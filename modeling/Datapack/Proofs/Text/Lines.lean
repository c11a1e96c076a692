import Datapack.Json.Writer
import Datapack.Text.Resource
import Datapack.Proofs.Text.Characters

/-!
# Texts on one line

Numbers, resource names and everything written as JSON have no line break, and texts without line breaks
put together have none.
-/

namespace Datapack

namespace Text

structure Unbroken (s : String) : Prop where
  not_mem : '\n' ∉ s.toList

theorem unbroken_iff {s : String} : Unbroken s ↔ '\n' ∉ s.toList := ⟨fun h => h.not_mem, .mk⟩

instance : DecidablePred Unbroken := fun _ => decidable_of_iff _ unbroken_iff.symm

@[simp] theorem unbroken_append {s s' : String} : Unbroken (s ++ s') ↔ Unbroken s ∧ Unbroken s' := by
  simp [unbroken_iff, String.toList_append]

theorem unbroken_ofList {cs : List Char} : Unbroken (String.ofList cs) ↔ '\n' ∉ cs := by
  rw [unbroken_iff, String.toList_ofList]

/-- As `unbroken_ofList`, for words that stand in commands. -/
theorem unbroken_word {cs : List Char} (h : cs.contains '\n' = false) : Unbroken (String.ofList cs) :=
  unbroken_ofList.2 (by simpa using h)

theorem unbroken_map {f : Char → Char} (h : ∀ c, f c ≠ '\n') (s : String) : Unbroken (s.map f) := by
  rw [unbroken_iff, String.toList_map]
  intro hmem
  obtain ⟨c, -, hc⟩ := List.mem_map.1 hmem
  exact h c hc

theorem unbroken_intercalate {sep : String} {xs : List String} (hsep : Unbroken sep)
    (h : ∀ x ∈ xs, Unbroken x) : Unbroken (sep.intercalate xs) := by
  induction xs with
  | nil => exact ⟨List.not_mem_nil⟩
  | cons x xs ih =>
      obtain ⟨hx, hxs⟩ := List.forall_mem_cons.1 h
      by_cases hne : xs = []
      · subst hne
        simpa using hx
      · rw [String.intercalate_cons_of_ne_nil hne]
        simp [hx, hsep, ih hxs]

theorem digitChar_ne_break : ∀ d < 16, Nat.digitChar d ≠ '\n' := by decide

@[simp] theorem unbroken_nat (n : Nat) : Unbroken n.repr := by
  rw [unbroken_iff, Nat.toList_repr]
  intro hmem
  obtain ⟨d, hd, hbreak⟩ := exists_digit_of_mem_toDigits (by decide) hmem
  exact digitChar_ne_break d (by omega) hbreak

@[simp] theorem unbroken_int (n : Int) : Unbroken n.repr := by
  cases n with
  | ofNat n => exact unbroken_nat n
  | negSucc n => exact unbroken_append.2 ⟨by decide, unbroken_nat (n + 1)⟩

theorem unbroken_resourceName (s : String) : Unbroken (resourceName s) := by
  unfold resourceName
  split
  · decide
  · rw [unbroken_ofList]
    intro hmem
    obtain ⟨c, -, hc⟩ := List.mem_map.1 hmem
    unfold resourceChar at hc
    dsimp only at hc
    split at hc
    · next h => exact absurd h (by rw [hc]; decide)
    · exact absurd hc (by decide)

end Text

open Text

/-! ## JSON -/

namespace Json

theorem not_mem_hexDigits (width n : Nat) : '\n' ∉ hexDigits width n := by
  intro hmem
  obtain ⟨d, hd, hbreak⟩ := exists_digit_of_mem_hexDigits hmem
  exact digitChar_ne_break d hd hbreak

theorem not_mem_writeChar (c : Char) : '\n' ∉ writeChar c := by
  unfold writeChar
  extract_lets n
  repeat (split; · decide)
  split
  · simp [not_mem_hexDigits]
  · next hn _ _ _ =>
    rintro (_ | ⟨_, ⟨⟩⟩)
    exact hn rfl

theorem unbroken_writeString (s : String) : Unbroken (writeString s) := by
  rw [writeString, unbroken_ofList]
  simp [not_mem_writeChar]

mutual

theorem unbroken_compact : ∀ t : Tree, Unbroken t.compact
  | .text s => unbroken_writeString s
  | .number n => unbroken_int n
  | .list items => by
      simp only [Tree.compact, unbroken_append]
      exact ⟨⟨by decide, unbroken_intercalate (by decide) (unbroken_compactItems items)⟩, by decide⟩
  | .record fields => by
      simp only [Tree.compact, unbroken_append]
      exact ⟨⟨by decide, unbroken_intercalate (by decide) (unbroken_compactFields fields)⟩, by decide⟩

theorem unbroken_compactItems : ∀ ts : List Tree, ∀ x ∈ compactItems ts, Unbroken x
  | [] => List.forall_mem_nil _
  | t :: ts => List.forall_mem_cons.2 ⟨unbroken_compact t, unbroken_compactItems ts⟩

theorem unbroken_compactFields : ∀ fields : List (String × Tree), ∀ x ∈ compactFields fields, Unbroken x
  | [] => List.forall_mem_nil _
  | (k, t) :: rest => by
      refine List.forall_mem_cons.2 ⟨?_, unbroken_compactFields rest⟩
      simp only [unbroken_append]
      exact ⟨⟨unbroken_writeString k, by decide⟩, unbroken_compact t⟩

end

end Json

end Datapack
