import Datapack.Config.Version
import Datapack.Proofs.Text.Characters
import Datapack.Proofs.Text.Split
import Mathlib.Data.Prod.Lex
import Mathlib.Order.Compare

/-!
# The texts and the order of versions

Versions are compared by the signs of the differences of their components, which are words and may overflow.
Among components that are not negative no difference does, and the comparison is the lexicographic order.
All versions that are read from a text are of this kind, and each of them is read back from its own text.
-/

namespace Datapack.Config

/-! ## Decimal numbers -/

theorem foldl_digits {cs : List Char} (h : ∀ c ∈ cs, c.isDigit = true) (m : Nat) :
    cs.foldl (fun (n : Int) c => n * 10 + (c.toNat - '0'.toNat)) m = Nat.ofDigitChars 10 cs m := by
  induction cs generalizing m with
  | nil => rfl
  | cons c cs ih =>
      have hle : '0'.toNat ≤ c.toNat := by
        have hdigit := h c List.mem_cons_self
        simp only [Char.isDigit, Bool.and_eq_true, decide_eq_true_eq, UInt32.le_iff_toNat_le] at hdigit
        exact hdigit.1
      have hstep : (m : Int) * 10 + ((c.toNat : Int) - ('0'.toNat : Int))
          = ((10 * m + (c.toNat - '0'.toNat) : Nat) : Int) := by
        omega
      rw [List.foldl_cons, hstep, ih fun d hd => h d (List.mem_cons_of_mem c hd), Nat.ofDigitChars_cons]

/-- A number that fits is read back from its digits. -/
theorem signedInteger?_toString {n : Nat} (h : n < 0x8000000000000000) :
    signedInteger? (toString n) = some (Int64.ofInt n) := by
  have hchars : (toString n).toList = Nat.toDigits 10 n := by rw [Nat.toString_eq_repr, Nat.toList_repr]
  have hdigits : ∀ c ∈ Nat.toDigits 10 n, c.isDigit = true :=
    fun _ => Nat.isDigit_of_mem_toDigits (by decide) (by decide)
  have hvalue : (Nat.toDigits 10 n).foldl (fun (n : Int) c => n * 10 + (c.toNat - '0'.toNat)) 0 = n := by
    have hfold := foldl_digits hdigits 0
    rwa [Nat.ofDigitChars_ten_toDigits] at hfold
  unfold signedInteger?
  rw [hchars]
  split
  next negative digits heq =>
  -- neither sign is a digit
  have hunsigned : (false, Nat.toDigits 10 n) = (negative, digits) := by
    rw [← heq]
    split
    · next ds hlist => exact absurd (hdigits '-' (hlist ▸ List.mem_cons_self)) (by decide)
    · next ds hlist => exact absurd (hdigits '+' (hlist ▸ List.mem_cons_self)) (by decide)
    · rfl
  obtain ⟨rfl, rfl⟩ := Prod.mk.inj hunsigned
  have hempty : (Nat.toDigits 10 n).isEmpty = false := List.isEmpty_eq_false_iff.2 Nat.toDigits_ne_nil
  rw [List.all_eq_true.2 hdigits, hempty]
  simp only [Bool.not_true, Bool.or_false, Bool.false_eq_true, if_false, hvalue]
  rw [if_pos ⟨by omega, by omega⟩]

namespace Version

variable {u v w : Version}

/-- No component is negative. -/
def IsProper (v : Version) : Prop := 0 ≤ v.major ∧ 0 ≤ v.minor ∧ 0 ≤ v.patch

instance (v : Version) : Decidable v.IsProper := inferInstanceAs (Decidable (_ ∧ _))

/-- The components, of which the first difference decides. -/
def rank (v : Version) : ℤ ×ₗ ℤ ×ₗ ℤ := toLex (v.major.toInt, toLex (v.minor.toInt, v.patch.toInt))

theorem toInt_sub_of_nonneg {a b : Int64} (ha : 0 ≤ a) (hb : 0 ≤ b) :
    (a - b).toInt = a.toInt - b.toInt := by
  rw [Int64.le_iff_toInt_le, Int64.toInt_zero] at ha hb
  have hlta := Int64.toInt_lt a
  have hltb := Int64.toInt_lt b
  rw [Int64.toInt_sub, Int.bmod_eq_of_le] <;> omega

theorem signOf_cons {a b : Int64} (ha : 0 ≤ a) (hb : 0 ≤ b) (ds : List Int64) :
    signOf ((a - b) :: ds) = (Ord.compare a.toInt b.toInt).then (signOf ds) := by
  have hlt : a - b < 0 ↔ a.toInt < b.toInt := by
    rw [Int64.lt_iff_toInt_lt, toInt_sub_of_nonneg ha hb, Int64.toInt_zero]
    omega
  have hgt : 0 < a - b ↔ b.toInt < a.toInt := by
    rw [Int64.lt_iff_toInt_lt, toInt_sub_of_nonneg ha hb, Int64.toInt_zero]
    omega
  rw [signOf]
  simp only [hlt, hgt]
  rcases lt_trichotomy a.toInt b.toInt with h | h | h
  · rw [if_pos h, compare_lt_iff_lt.2 h]
    rfl
  · rw [if_neg h.not_lt, if_neg h.not_gt, compare_eq_iff_eq.2 h]
    rfl
  · rw [if_neg h.not_gt, if_pos h, compare_gt_iff_gt.2 h]
    rfl

/-- The signs of the differences compare the components. -/
theorem compare_eq (hv : v.IsProper) (hw : w.IsProper) : v.compare w = Ord.compare v.rank w.rank := by
  obtain ⟨hmajor, hminor, hpatch⟩ := hv
  obtain ⟨hmajor', hminor', hpatch'⟩ := hw
  have hrank : Ord.compare v.rank w.rank = (Ord.compare v.major.toInt w.major.toInt).then
      ((Ord.compare v.minor.toInt w.minor.toInt).then (Ord.compare v.patch.toInt w.patch.toInt)) := rfl
  rw [hrank, compare, signOf_cons hmajor hmajor', signOf_cons hminor hminor', signOf_cons hpatch hpatch',
    signOf, Ordering.then_eq]

theorem less_iff (hv : v.IsProper) (hw : w.IsProper) : v.less w = true ↔ v.rank < w.rank := by
  rw [less, beq_iff_eq, compare_eq hv hw, compare_lt_iff_lt]

theorem compare_ne_gt_iff (hv : v.IsProper) (hw : w.IsProper) : v.compare w ≠ .gt ↔ v.rank ≤ w.rank := by
  rw [compare_eq hv hw, ne_eq, compare_gt_iff_gt, not_lt]

theorem nonneg_of_component? {s : String} {n : Int64} (h : component? s = some n) : 0 ≤ n :=
  of_decide_eq_true (Option.filter_eq_some_iff.1 h).2

theorem isProper_of_ofComponents {edition : Edition} {s : String} (h : ofComponents edition s = .ok v) :
    v.IsProper := by
  have hparts : ∀ n, some n ∈ (Text.split '.' s).map component? → 0 ≤ n := by
    intro n hn
    obtain ⟨part, -, hpart⟩ := List.mem_map.1 hn
    exact nonneg_of_component? hpart
  unfold ofComponents at h
  split at h
  · next major minor heq =>
      obtain rfl := Except.ok.inj h
      rw [heq] at hparts
      exact ⟨hparts major (by simp), hparts minor (by simp), Int64.le_refl 0⟩
  · next major minor patch heq =>
      obtain rfl := Except.ok.inj h
      rw [heq] at hparts
      exact ⟨hparts major (by simp), hparts minor (by simp), hparts patch (by simp)⟩
  · exact nomatch h

theorem isProper_of_ofString {s : String} (h : ofString s = .ok v) : v.IsProper := by
  unfold ofString at h
  split at h
  · exact isProper_of_ofComponents h
  · dsimp only at h
    split at h
    · exact isProper_of_ofComponents h
    split at h
    · exact isProper_of_ofComponents h
    · exact nomatch h

/-! ## Texts -/

theorem component?_toString {n : Int64} (hn : 0 ≤ n) : component? (toString n.toInt) = some n := by
  obtain ⟨k, hk⟩ := Int.eq_ofNat_of_zero_le (Int64.le_iff_toInt_le.1 hn)
  have hlt := Int64.toInt_lt n
  have hread : signedInteger? (toString k) = some (Int64.ofInt k) := signedInteger?_toString (by omega)
  have htext : toString n.toInt = toString k := by
    rw [hk]
    rfl
  rw [← hk, Int64.ofInt_toInt] at hread
  rw [component?, htext, hread]
  exact Option.filter_some_pos (decide_eq_true hn)

/-- Neither separator stands in a number. -/
theorem not_mem_toString {c : Char} (hdigit : c.isDigit = false) (hsign : c ≠ '-') (z : Int) :
    c ∉ (toString z).toList := by
  intro hc
  rcases Text.isDigit_of_mem_toString hc with h | h
  · rw [hdigit] at h
    exact Bool.noConfusion h
  · exact hsign h

theorem split_toString (z : Int) : Text.split '.' (toString z) = [toString z] :=
  Text.split_of_not_mem (not_mem_toString (by decide) (by decide) z)

/-- The components in a text; a zero patch is left out. -/
def spelled (v : Version) : String :=
  toString v.major.toInt ++ "." ++ toString v.minor.toInt
    ++ if v.patch = 0 then "" else "." ++ toString v.patch.toInt

theorem text_eq (v : Version) :
    v.text = (if v.edition = .bedrock then "bedrock:" else "") ++ v.spelled := by
  simp only [text, spelled, String.append_assoc]

theorem ofComponents_spelled (hv : v.IsProper) (edition : Edition) :
    ofComponents edition v.spelled = .ok { v with edition } := by
  obtain ⟨hmajor, hminor, hpatch⟩ := hv
  have hfront : Text.split '.' (toString v.major.toInt ++ "." ++ toString v.minor.toInt)
      = [toString v.major.toInt, toString v.minor.toInt] := by
    rw [Text.split_append rfl, split_toString, split_toString]
    rfl
  unfold ofComponents spelled
  split_ifs with hzero
  · -- a patch that is left out is read as zero
    rw [String.append_empty, hfront, List.map_cons, List.map_cons, List.map_nil, component?_toString hmajor,
      component?_toString hminor]
    simp only [hzero]
  · rw [← String.append_assoc, Text.split_append rfl, hfront, split_toString]
    simp only [List.cons_append, List.nil_append, List.map_cons, List.map_nil, component?_toString hmajor,
      component?_toString hminor, component?_toString hpatch]

theorem colon_not_mem_spelled (v : Version) : ':' ∉ v.spelled.toList := by
  have hnumber := not_mem_toString (c := ':') (by decide) (by decide)
  unfold spelled
  simp only [String.toList_append, List.mem_append, not_or]
  refine ⟨⟨⟨hnumber _, by decide⟩, hnumber _⟩, ?_⟩
  split
  · exact List.not_mem_nil
  · rw [String.toList_append, List.mem_append, not_or]
    exact ⟨by decide, hnumber _⟩

theorem ofString_text (hv : v.IsProper) : ofString v.text = .ok v := by
  rw [ofString, text_eq]
  cases hedition : v.edition with
  | java =>
      rw [if_neg (by decide), String.empty_append, Text.cut_of_not_mem (colon_not_mem_spelled v)]
      dsimp only
      rw [ofComponents_spelled hv, ← hedition]
  | bedrock =>
      have hcut : Text.cut ':' ("bedrock" ++ ":" ++ v.spelled) = some ("bedrock", v.spelled) :=
        Text.cut_append rfl (by decide) _
      have hprefix : "bedrock:" = "bedrock" ++ ":" := rfl
      have hlower : String.ofList ("bedrock".toList.map Text.lowerResource) = "bedrock" := by decide
      rw [if_pos rfl, hprefix, hcut]
      dsimp only
      rw [hlower, if_neg (by decide), if_pos rfl, ofComponents_spelled hv, ← hedition]

/-! ## Texts and order -/

/-- A version reads its own text, whatever its edition, and the sign of the first difference compares
versions by the lexicographic order of their components: a total preorder, in which no difference leaves
the words. -/
theorem reads_back_and_compares (hu : u.IsProper) (hv : v.IsProper) (hw : w.IsProper) :
    ofString v.text = .ok v
      ∧ v.compare w = Ord.compare v.rank w.rank
      ∧ v.compare v ≠ .gt
      ∧ (v.compare w ≠ .gt ∨ w.compare v ≠ .gt)
      ∧ (u.compare v ≠ .gt → v.compare w ≠ .gt → u.compare w ≠ .gt)
      ∧ w.compare v = (v.compare w).swap
      ∧ (v.major - w.major).toInt = v.major.toInt - w.major.toInt
      ∧ (v.minor - w.minor).toInt = v.minor.toInt - w.minor.toInt
      ∧ (v.patch - w.patch).toInt = v.patch.toInt - w.patch.toInt := by
  refine ⟨ofString_text hv, compare_eq hv hw, ?_, ?_, ?_, ?_, ?_, ?_, ?_⟩
  · exact (compare_ne_gt_iff hv hv).2 le_rfl
  · rw [compare_ne_gt_iff hv hw, compare_ne_gt_iff hw hv]
    exact le_total _ _
  · rw [compare_ne_gt_iff hu hv, compare_ne_gt_iff hv hw, compare_ne_gt_iff hu hw]
    exact le_trans
  · rw [compare_eq hw hv, compare_eq hv hw, Std.OrientedOrd.eq_swap]
  · exact toInt_sub_of_nonneg hv.1 hw.1
  · exact toInt_sub_of_nonneg hv.2.1 hw.2.1
  · exact toInt_sub_of_nonneg hv.2.2 hw.2.2

/-- Components as large as they get, against versions that leave out the patch. -/
theorem reads_back_and_compares_largest :
    let u : Version := ⟨1, 20, 0, .java⟩
    let v : Version := ⟨9223372036854775807, 0, 9223372036854775807, .bedrock⟩
    let w : Version := ⟨0, 21, 0, .java⟩
    u.IsProper ∧ v.IsProper ∧ w.IsProper
      ∧ v.text = "bedrock:9223372036854775807.0.9223372036854775807"
      ∧ ofString v.text = .ok v ∧ v.compare w = Ord.compare v.rank w.rank
      ∧ w.compare v = (v.compare w).swap ∧ v.compare w = .gt
      ∧ (v.major - w.major).toInt = 9223372036854775807 := by
  intro u v w
  have hu : u.IsProper := by decide
  have hv : v.IsProper := by decide
  have hw : w.IsProper := by decide
  obtain ⟨hread, hcompare, -, -, -, hswap, hmajor, -⟩ := reads_back_and_compares hu hv hw
  exact ⟨hu, hv, hw, by cbv, hread, hcompare, hswap, by decide, hmajor⟩

end Version

namespace VersionRange

variable {r : VersionRange} {v : Version}

/-- No component of a bound is negative. -/
def IsProper (r : VersionRange) : Prop := r.min.IsProper ∧ r.max.IsProper

instance (r : VersionRange) : Decidable r.IsProper := inferInstanceAs (Decidable (_ ∧ _))

/-- The bounds that are set are in order. -/
def IsOrdered (r : VersionRange) : Prop :=
  r.min.isUnset = true ∨ r.max.isUnset = true ∨ r.min.compare r.max ≠ .gt

instance (r : VersionRange) : Decidable r.IsOrdered := inferInstanceAs (Decidable (_ ∨ _))

theorem min_le_of_contains (hr : r.IsProper) (hv : v.IsProper) (h : r.contains v = true)
    (hset : ¬r.min.isUnset = true) : r.min.rank ≤ v.rank := by
  simp only [contains, Bool.and_eq_true, Bool.not_eq_true', Bool.and_eq_false_iff] at h
  rw [← not_lt, ← Version.less_iff hv hr.1]
  simpa [hset] using h.1

theorem le_max_of_contains (hr : r.IsProper) (hv : v.IsProper) (h : r.contains v = true)
    (hset : ¬r.max.isUnset = true) : v.rank ≤ r.max.rank := by
  simp only [contains, Bool.and_eq_true, Bool.not_eq_true', Bool.and_eq_false_iff] at h
  rw [← not_lt, ← Version.less_iff hr.2 hv]
  simpa [hset] using h.2

end VersionRange

end Datapack.Config
