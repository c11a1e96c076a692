import Datapack.Text.Case
import Datapack.Text.Hash

/-!
# Digits and letters

Every character of a number, in whatever base, is a digit of that base.  The lower-case form of a text
differs from its ASCII one only where there are letters outside ASCII, so the two agree on everything that
reads as a hexadecimal text.
-/

namespace Datapack.Text

/-- A property of the first characters, checked one by one. -/
theorem forall_small_char {P : Char → Prop} (h : ∀ n : Fin 128, P (Char.ofNat n)) {c : Char}
    (hc : c.toNat < 128) : P c := by
  have hp := h ⟨c.toNat, hc⟩
  rwa [Char.ofNat_toNat] at hp

/-! ## Digits -/

theorem exists_digit_of_mem_toDigits {base : Nat} (hbase : 1 < base) {n : Nat} {c : Char}
    (hc : c ∈ Nat.toDigits base n) : ∃ d < base, Nat.digitChar d = c := by
  induction n using Nat.strongRecOn with
  | _ n ih =>
      rw [Nat.toDigits_eq_if hbase] at hc
      split at hc
      · next hlt => exact ⟨n, hlt, (List.mem_singleton.1 hc).symm⟩
      · next hle =>
          rcases List.mem_append.1 hc with hc | hc
          · exact ih (n / base) (Nat.div_lt_self (by omega) hbase) hc
          · exact ⟨n % base, Nat.mod_lt n (by omega), (List.mem_singleton.1 hc).symm⟩

theorem exists_digit_of_mem_hexDigits {width n : Nat} {c : Char} (hc : c ∈ hexDigits width n) :
    ∃ d < 16, Nat.digitChar d = c := by
  rcases List.mem_append.1 hc with hc | hc
  · exact ⟨0, by omega, (List.mem_replicate.1 hc).2.symm⟩
  · exact exists_digit_of_mem_toDigits (by omega) hc

/-- A decimal number is written with digits, and a sign if it is negative. -/
theorem isDigit_of_mem_toString {z : Int} {c : Char} (hc : c ∈ (toString z).toList) :
    c.isDigit = true ∨ c = '-' := by
  have hdigits : ∀ {n : Nat}, c ∈ n.repr.toList → c.isDigit = true := by
    intro n hn
    rw [Nat.toList_repr] at hn
    exact Nat.isDigit_of_mem_toDigits (by decide) (by decide) hn
  cases z with
  | ofNat n => exact .inl (hdigits hc)
  | negSucc n =>
      have hsigned : c ∈ ("-" ++ (n + 1).repr).toList := hc
      rw [String.toList_append, List.mem_append] at hsigned
      exact hsigned.symm.imp hdigits fun hsign => List.mem_singleton.1 hsign

theorem toString_nat_inj {m n : Nat} (h : toString m = toString n) : m = n := by
  have hchars := congrArg String.toList h
  rw [Nat.toString_eq_repr, Nat.toString_eq_repr, Nat.toList_repr, Nat.toList_repr] at hchars
  rw [← @Nat.ofDigitChars_ten_toDigits m, hchars, Nat.ofDigitChars_ten_toDigits]

theorem sign_ne_toString {x : String} {n : Nat} : "-" ++ x ≠ toString n := by
  intro heq
  have hmem : '-' ∈ (toString n).toList := by
    rw [← heq, String.toList_append]
    exact List.mem_cons_self
  rw [Nat.toString_eq_repr, Nat.toList_repr] at hmem
  have hdigit : '-'.isDigit = true := Nat.isDigit_of_mem_toDigits (by decide) (by decide) hmem
  exact absurd hdigit (by decide)

theorem toString_int_inj {m n : Int} (h : toString m = toString n) : m = n := by
  cases m with
  | ofNat m =>
      cases n with
      | ofNat n => exact congrArg Int.ofNat (toString_nat_inj h)
      | negSucc n => exact absurd h.symm sign_ne_toString
  | negSucc m =>
      cases n with
      | ofNat n => exact absurd h sign_ne_toString
      | negSucc n => exact congrArg Int.negSucc (Nat.succ_inj.1 (toString_nat_inj ((String.append_right_inj "-").1 h)))

/-- The number that hexadecimal digits spell. -/
def hexNumber (cs : List Char) : Nat := cs.foldl (fun n c => 16 * n + (hexValue? c).getD 0) 0

theorem hexNumber_toDigits (n : Nat) : hexNumber (Nat.toDigits 16 n) = n := by
  have hdigit : ∀ d < 16, (hexValue? (Nat.digitChar d)).getD 0 = d := by decide
  induction n using Nat.strongRecOn with
  | _ n ih =>
      rw [Nat.toDigits_eq_if (by omega)]
      split
      · next hlt =>
        rw [hexNumber, List.foldl_cons, List.foldl_nil, hdigit n hlt]
        omega
      · next hle =>
        have hrest := ih (n / 16) (by omega)
        rw [hexNumber] at hrest
        rw [hexNumber, List.foldl_append, hrest, List.foldl_cons, List.foldl_nil, hdigit (n % 16) (by omega)]
        omega

/-- Leading zeros do not count. -/
theorem hexNumber_hexDigits (width n : Nat) : hexNumber (hexDigits width n) = n := by
  have hzeros : ∀ k, (List.replicate k '0').foldl (fun n c => 16 * n + (hexValue? c).getD 0) 0 = 0 := by
    intro k
    induction k with
    | zero => rfl
    | succ k ih => exact ih
  have hdigits := hexNumber_toDigits n
  rw [hexNumber] at hdigits
  rw [hexNumber, hexDigits, List.foldl_append, hzeros, hdigits]

theorem hex16_inj {m n : UInt64} (h : hex16 m = hex16 n) : m = n := by
  have hdigits := String.ofList_injective h
  apply UInt64.toNat_inj.1
  rw [← hexNumber_hexDigits 16 m.toNat, hdigits, hexNumber_hexDigits]

theorem dot_not_mem_hex16 (n : UInt64) : '.' ∉ (hex16 n).toList := by
  rw [hex16, String.toList_ofList]
  intro hmem
  obtain ⟨d, hd, hdot⟩ := exists_digit_of_mem_hexDigits hmem
  have hnot : ∀ d < 16, Nat.digitChar d ≠ '.' := by decide
  exact hnot d hd hdot

theorem lt_of_mem_hex {bs : List UInt8} {c : Char} (hc : c ∈ (hex bs).toList) : c.toNat < 128 := by
  rw [hex, String.toList_ofList] at hc
  obtain ⟨b, -, hc⟩ := List.mem_flatMap.1 hc
  obtain ⟨d, hd, rfl⟩ := exists_digit_of_mem_hexDigits hc
  have hsmall : ∀ d < 16, (Nat.digitChar d).toNat < 128 := by decide
  exact hsmall d hd

/-! ## Lower case -/

theorem toLower_eq_self {c : Char} (hc : 90 < c.toNat) : c.toLower = c := by
  have hupper : ¬(c.val ≥ 'A'.val ∧ c.val ≤ 'Z'.val) := fun h =>
    absurd (UInt32.le_iff_toNat_le.1 h.2) (Nat.not_le.2 hc)
  exact dif_neg hupper

theorem lowerChar_eq_toLower {c : Char} (hc : c.toLower.toNat < 128) : lowerChar c = c.toLower := by
  rcases Nat.lt_or_ge c.toNat 128 with hlt | hge
  · exact if_pos hlt
  · rw [toLower_eq_self (by omega)] at hc
    omega

theorem lowerCase_eq_lowerAscii {s : String} (h : ∀ c ∈ (lowerAscii s).toList, c.toNat < 128) :
    lowerCase s = lowerAscii s := by
  apply String.toList_inj.1
  rw [lowerCase, lowerAscii, String.toList_map, String.toList_map]
  apply List.map_congr_left
  intro c hc
  apply lowerChar_eq_toLower
  apply h
  rw [lowerAscii, String.toList_map]
  exact List.mem_map_of_mem hc

end Datapack.Text
