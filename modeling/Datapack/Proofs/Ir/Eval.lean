import Datapack.Ir.Eval
import Mathlib.Algebra.Order.Ring.Int
import Mathlib.Tactic.Positivity

/-!
# Integers behind the evaluator

The evaluator works on words.  Its quotients and remainders are those of the integers rounded toward
negative infinity, its shifts are products and quotients with powers of two, and its order of words is that
of their values.
-/

namespace Datapack.Ir

/-! ## Rounding -/

section Integers

variable {a b : Int}

/-- Rounding toward negative infinity differs from truncation where the division is not exact and the
signs differ. -/
theorem fdiv_eq_tdiv_sub (hb : b ≠ 0) :
    a.fdiv b = a.tdiv b - if a.tmod b ≠ 0 ∧ decide (a < 0) ≠ decide (b < 0) then 1 else 0 := by
  have hdvd : b ∣ a ↔ a.tmod b = 0 := Int.dvd_iff_tmod_eq_zero
  rw [Int.fdiv_eq_tdiv]
  rcases lt_or_gt_of_ne hb with hneg | hpos
  · have hsign : b.sign = -1 := Int.sign_eq_neg_one_of_neg hneg
    by_cases ha : 0 ≤ a <;> by_cases hd : a.tmod b = 0 <;> simp [*]
  · have hsign : b.sign = 1 := Int.sign_eq_one_of_pos hpos
    by_cases ha : 0 ≤ a <;> by_cases hd : a.tmod b = 0 <;> simp [*] <;> omega

theorem tmod_neg_iff (h : a.tmod b ≠ 0) : a.tmod b < 0 ↔ a < 0 := by
  have hpos : 0 ≤ a → 0 ≤ a.tmod b := Int.tmod_nonneg b
  have hneg : 0 ≤ -a → 0 ≤ (-a).tmod b := Int.tmod_nonneg b
  rw [Int.neg_tmod] at hneg
  omega

theorem fmod_eq_tmod_add (hb : b ≠ 0) :
    a.fmod b =
      a.tmod b + if a.tmod b ≠ 0 ∧ decide (a.tmod b < 0) ≠ decide (b < 0) then b else 0 := by
  have hsame : (a.tmod b ≠ 0 ∧ decide (a.tmod b < 0) ≠ decide (b < 0)) ↔
      (a.tmod b ≠ 0 ∧ decide (a < 0) ≠ decide (b < 0)) := by
    apply and_congr_right
    intro h
    rw [decide_eq_decide.mpr (tmod_neg_iff h)]
  have hfloor := Int.mul_fdiv_add_fmod a b
  have htrunc := Int.mul_tdiv_add_tmod a b
  rw [fdiv_eq_tdiv_sub hb, mul_sub] at hfloor
  simp only [hsame]
  split at hfloor
  · rw [if_pos ‹_›]
    omega
  · rw [if_neg ‹_›]
    omega

/-- A rounded remainder lies between zero and the divisor. -/
theorem fmod_range (hb : b ≠ 0) :
    0 ≤ a.fmod b ∧ a.fmod b < b ∨ b < a.fmod b ∧ a.fmod b ≤ 0 := by
  rcases lt_or_gt_of_ne hb with hneg | hpos
  · right
    have hpos' : 0 < -b := by omega
    have hlo := Int.fmod_nonneg_of_pos (-a) hpos'
    have hhi := Int.fmod_lt_of_pos (-a) hpos'
    rw [Int.neg_fmod_neg] at hlo hhi
    omega
  · exact .inl ⟨Int.fmod_nonneg_of_pos a hpos, Int.fmod_lt_of_pos a hpos⟩

/-- The quotient of two words fits a word again, unless its sign turns the least word. -/
theorem fdiv_range {w : Int} (hw : 0 < w) (hlo : -w ≤ a) (hhi : a < w) (hb : b ≠ 0)
    (h : a ≠ -w ∨ b ≠ -1) : -w ≤ a.fdiv b ∧ a.fdiv b < w := by
  have hsum := Int.mul_fdiv_add_fmod a b
  generalize a.fdiv b = q at *
  rcases fmod_range (a := a) hb with ⟨h0, hlt⟩ | ⟨hgt, h0⟩
  · have hone : 1 ≤ b := by omega
    constructor
    · by_contra hq
      have hmul : b * (q + 1) ≤ 1 * (q + 1) := mul_le_mul_of_nonpos_right hone (by omega)
      rw [mul_add, mul_one, one_mul] at hmul
      omega
    · by_contra hq
      have hmul : 1 * q ≤ b * q := mul_le_mul_of_nonneg_right hone (by omega)
      rw [one_mul] at hmul
      omega
  · have hone : b ≤ -1 := by omega
    constructor
    · by_contra hq
      have hmul : -1 * (q + 1) ≤ b * (q + 1) := mul_le_mul_of_nonpos_right hone (by omega)
      rw [mul_add b, mul_one, neg_mul, one_mul] at hmul
      omega
    · by_contra hq
      have hmul : b * q ≤ -1 * q := mul_le_mul_of_nonneg_right hone (by omega)
      rw [neg_mul, one_mul] at hmul
      -- the product reaches the least word, which only minus one divides that way
      have ha : a = -w := by omega
      have hb2 : b ≤ -2 := by omega
      have hmul2 : b * q ≤ -2 * q := mul_le_mul_of_nonneg_right hb2 (by omega)
      omega

end Integers

section Words

variable {a b k : Int64}

theorem toInt_ne_zero (h : b ≠ 0) : b.toInt ≠ 0 := fun h0 => h (Int64.toInt_inj.mp h0)

theorem mod_ne_zero_iff : a % b ≠ 0 ↔ a.toInt.tmod b.toInt ≠ 0 := by
  rw [← Int64.toInt_mod]
  exact not_congr Int64.toInt_inj.symm

theorem mod_neg_iff : a % b < 0 ↔ a.toInt.tmod b.toInt < 0 := by
  rw [Int64.lt_iff_toInt_lt, Int64.toInt_mod]
  rfl

theorem floorDiv_eq_ofInt (hb : b ≠ 0) : floorDiv a b = .ofInt (a.toInt.fdiv b.toInt) := by
  have hdiv : a / b = .ofInt (a.toInt.tdiv b.toInt) := by
    apply Int64.toInt_inj.mp
    rw [Int64.toInt_div, Int64.toInt_ofInt]
  have ha : a < 0 ↔ a.toInt < 0 := Int64.lt_iff_toInt_lt
  have hb' : b < 0 ↔ b.toInt < 0 := Int64.lt_iff_toInt_lt
  simp only [floorDiv, fdiv_eq_tdiv_sub (toInt_ne_zero hb), mod_ne_zero_iff, ha, hb', hdiv]
  split
  · exact (Int64.ofInt_sub _ 1).symm
  · rw [Int.sub_zero]

/-- Words of different signs have a sum between them. -/
theorem toInt_add_of_signs (h : decide (a < 0) ≠ decide (b < 0)) :
    (a + b).toInt = a.toInt + b.toInt := by
  have ha : a < 0 ↔ a.toInt < 0 := Int64.lt_iff_toInt_lt
  have hb : b < 0 ↔ b.toInt < 0 := Int64.lt_iff_toInt_lt
  have halo := Int64.le_toInt a
  have hahi := Int64.toInt_lt a
  have hblo := Int64.le_toInt b
  have hbhi := Int64.toInt_lt b
  simp only [ha, hb] at h
  rw [Int64.toInt_add]
  apply Int.bmod_eq_of_le <;> by_cases hneg : b.toInt < 0 <;> simp [hneg] at h <;> omega

/-- The correction of a remainder does not wrap. -/
theorem toInt_floorMod (hb : b ≠ 0) : (floorMod a b).toInt = a.toInt.fmod b.toInt := by
  have hb' : b < 0 ↔ b.toInt < 0 := Int64.lt_iff_toInt_lt
  simp only [fmod_eq_tmod_add (toInt_ne_zero hb), ← mod_ne_zero_iff, ← mod_neg_iff, ← hb', floorMod]
  split
  · rename_i h
    rw [toInt_add_of_signs h.2, Int64.toInt_mod]
  · rw [Int.add_zero, Int64.toInt_mod]

theorem toInt_floorDiv_iff (hb : b ≠ 0) :
    (floorDiv a b).toInt = a.toInt.fdiv b.toInt ↔ ¬(a = Int64.minValue ∧ b = -1) := by
  have hmin : a = Int64.minValue ↔ a.toInt = -(2 ^ 63 : Nat) := Int64.toInt_inj.symm
  have hone : b = -1 ↔ b.toInt = -1 := Int64.toInt_inj.symm
  have hlo := Int64.le_toInt a
  have hhi := Int64.toInt_lt a
  have hword : (floorDiv a b).toInt = (a.toInt.fdiv b.toInt).bmod (2 ^ 64) := by
    have hsize : Int64.size = 2 ^ 64 := rfl
    rw [floorDiv_eq_ofInt hb, Int64.toInt_ofInt, hsize]
  rw [hword, hmin, hone, not_and_or]
  constructor
  · intro h
    by_contra hex
    simp only [not_or, not_not] at hex
    rw [hex.1, hex.2] at h
    exact absurd h (by decide)
  · intro h
    have hrange := fdiv_range (w := (2 ^ 63 : Nat)) (by decide) (by omega) (by omega) (toInt_ne_zero hb) h
    apply Int.bmod_eq_of_le <;> omega

/-! ## Order -/

/-- How two words stand to each other, in terms of their values. -/
theorem orderInt_eq (a b : Int64) :
    (orderInt a b = .lt ↔ a.toInt < b.toInt) ∧ (orderInt a b = .eq ↔ a.toInt = b.toInt) ∧
      (orderInt a b = .gt ↔ b.toInt < a.toInt) := by
  unfold orderInt
  simp only [Int64.lt_iff_toInt_lt]
  by_cases hlt : a.toInt < b.toInt
  · have hne : a.toInt ≠ b.toInt := by omega
    have hgt : ¬b.toInt < a.toInt := by omega
    simp [hlt, hne, hgt]
  · by_cases hgt : b.toInt < a.toInt
    · have hne : a.toInt ≠ b.toInt := by omega
      simp [hlt, hgt, hne]
    · have heq : a.toInt = b.toInt := by omega
      simp [heq]

theorem toInt_sub_one {n : Int64} (h : n ≠ Int64.minValue) : (n - 1).toInt = n.toInt - 1 := by
  have hmin : n.toInt ≠ Int64.minValue.toInt := fun heq => h (Int64.toInt_inj.mp heq)
  rw [Int64.toInt_minValue] at hmin
  have hlo := Int64.le_toInt n
  have hhi := Int64.toInt_lt n
  have hone : (1 : Int64).toInt = 1 := rfl
  rw [Int64.toInt_sub, hone]
  apply Int.bmod_eq_of_le <;> omega

theorem toInt_add_one {n : Int64} (h : n ≠ Int64.maxValue) : (n + 1).toInt = n.toInt + 1 := by
  have hmax : n.toInt ≠ Int64.maxValue.toInt := fun heq => h (Int64.toInt_inj.mp heq)
  rw [Int64.toInt_maxValue] at hmax
  have hlo := Int64.le_toInt n
  have hhi := Int64.toInt_lt n
  have hone : (1 : Int64).toInt = 1 := rfl
  rw [Int64.toInt_add, hone]
  apply Int.bmod_eq_of_le <;> omega

/-! ## Shifts -/

theorem smod_width (h0 : 0 ≤ k) (hk : k < 64) : k.toBitVec.smod 64 = k.toBitVec := by
  apply BitVec.eq_of_toInt_eq
  rw [BitVec.toInt_smod]
  exact Int.fmod_eq_of_lt (Int64.le_iff_toInt_le.mp h0) (Int64.lt_iff_toInt_lt.mp hk)

theorem one_shiftLeft_toBitVec (h0 : 0 ≤ k) (hk : k < 64) :
    ((1 : Int64) <<< k).toBitVec = BitVec.twoPow 64 k.toBitVec.toNat := by
  rw [Int64.toBitVec_shiftLeft, smod_width h0 hk, BitVec.shiftLeft_eq', BitVec.twoPow_eq]
  rfl

theorem shiftLeft_eq_mul (h0 : 0 ≤ k) (hk : k < 64) : a <<< k = a * ((1 : Int64) <<< k) := by
  apply Int64.toBitVec_inj.mp
  rw [Int64.toBitVec_mul, one_shiftLeft_toBitVec h0 hk, Int64.toBitVec_shiftLeft, smod_width h0 hk,
    BitVec.shiftLeft_eq', BitVec.shiftLeft_eq_mul_twoPow]

theorem toNat_lt_of_lt (h0 : 0 ≤ k) (hk : k < 63) : k.toBitVec.toNat < 63 := by
  have h0' : 0 ≤ k.toBitVec.toInt := Int64.le_iff_toInt_le.mp h0
  have hk' : k.toBitVec.toInt < 63 := Int64.lt_iff_toInt_lt.mp hk
  rw [BitVec.toInt_eq_toNat_cond] at h0' hk'
  omega

theorem toInt_one_shiftLeft (h0 : 0 ≤ k) (hk : k < 63) :
    ((1 : Int64) <<< k).toInt = ((2 ^ k.toBitVec.toNat : Nat) : Int) := by
  have hlt := toNat_lt_of_lt h0 hk
  change ((1 : Int64) <<< k).toBitVec.toInt = _
  rw [one_shiftLeft_toBitVec h0 (Int64.lt_trans hk (by decide)), BitVec.toInt_twoPow,
    if_neg (by omega), if_neg (by omega)]
  push_cast
  rfl

theorem one_shiftLeft_ne_zero (h0 : 0 ≤ k) (hk : k < 63) : (1 : Int64) <<< k ≠ 0 := by
  intro h
  have hpow := toInt_one_shiftLeft h0 hk
  rw [h] at hpow
  exact absurd hpow.symm (by positivity)

theorem toNat_eq_toNat (h0 : 0 ≤ k) : k.toBitVec.toNat = k.toInt.toNat := by
  have h0' : 0 ≤ k.toBitVec.toInt := Int64.le_iff_toInt_le.mp h0
  change _ = k.toBitVec.toInt.toNat
  rw [BitVec.toInt_eq_toNat_cond] at h0' ⊢
  omega

theorem shiftLeft_eq_ofInt (h0 : 0 ≤ k) (hk : k < 64) :
    a <<< k = .ofInt (a.toInt * ((2 ^ k.toBitVec.toNat : Nat) : Int)) := by
  have hpow : (BitVec.ofInt 64 ((2 ^ k.toBitVec.toNat : Nat) : Int)) = BitVec.twoPow 64 k.toBitVec.toNat := by
    apply BitVec.eq_of_toNat_eq
    rw [BitVec.ofInt_natCast, BitVec.toNat_ofNat, BitVec.toNat_twoPow]
  apply Int64.toBitVec_inj.mp
  change _ = BitVec.ofInt 64 _
  rw [BitVec.ofInt_mul, hpow, Int64.toBitVec_shiftLeft, smod_width h0 hk, BitVec.shiftLeft_eq',
    BitVec.shiftLeft_eq_mul_twoPow]
  congr 1
  exact (BitVec.ofInt_toInt).symm

theorem toInt_shiftRight (h0 : 0 ≤ k) (hk : k < 64) :
    (a >>> k).toInt = a.toInt.fdiv ((2 ^ k.toBitVec.toNat : Nat) : Int) := by
  change (a >>> k).toBitVec.toInt = _
  rw [Int64.toBitVec_shiftRight, smod_width h0 hk, BitVec.sshiftRight_eq', BitVec.toInt_sshiftRight,
    Int.shiftRight_eq_div_pow, Int.fdiv_eq_ediv_of_nonneg _ (Int.natCast_nonneg _)]
  rfl

/-- The power of two is positive as long as it does not reach the sign. -/
theorem shiftRight_eq_floorDiv (h0 : 0 ≤ k) (hk : k < 63) :
    a >>> k = floorDiv a ((1 : Int64) <<< k) := by
  have hshift := toInt_shiftRight (a := a) h0 (Int64.lt_trans hk (by decide))
  calc a >>> k = .ofInt (a >>> k).toInt := (Int64.ofInt_toInt _).symm
    _ = .ofInt (a.toInt.fdiv ((1 : Int64) <<< k).toInt) := by rw [hshift, toInt_one_shiftLeft h0 hk]
    _ = floorDiv a ((1 : Int64) <<< k) := (floorDiv_eq_ofInt (one_shiftLeft_ne_zero h0 hk)).symm

end Words

/-! ## Values -/

theorem evalBinary_int (op : BinaryOperator) (a b : Int64) :
    evalBinary op (.int a) (.int b) (.data .int) = (evalInt op a b).map .int := by
  simp [evalBinary, Literal.str?, Literal.int?, Option.map_eq_bind]

variable {a b : Int64}

theorem evalInt_eq_none_iff {op : BinaryOperator} :
    evalInt op a b = none ↔
      (op = .div ∨ op = .mod) ∧ b = 0 ∨ (op = .shl ∨ op = .shr) ∧ ¬(0 ≤ b ∧ b < 64) ∨
        op = .undefined := by
  have hdistance : shiftDistance? b = none ↔ ¬(0 ≤ b ∧ b < 64) := by
    unfold shiftDistance?
    rw [not_and_or, Int64.not_le, Int64.not_lt]
    split <;> simp_all
  cases op <;> simp only [evalInt, Option.map_eq_none_iff, hdistance] <;> simp

theorem evalInt_shift (h0 : 0 ≤ b) (hb : b < 64) :
    evalInt .shl a b = some (a <<< b) ∧ evalInt .shr a b = some (a >>> b) := by
  have hdistance : shiftDistance? b = some b := by
    rw [shiftDistance?, if_neg]
    rw [not_or, Int64.not_lt, Int64.not_le]
    exact ⟨h0, hb⟩
  simp [evalInt, hdistance]

/-- Integer operations are exact up to the wrapping of words, which remainders and right shifts never need
and quotients only for the least word by minus one. -/
theorem evalBinary_exact (a b : Int64) :
    let value := fun op => evalBinary op (.int a) (.int b) (.data .int)
    value .add = some (.int (.ofInt (a.toInt + b.toInt))) ∧
    value .sub = some (.int (.ofInt (a.toInt - b.toInt))) ∧
    value .mul = some (.int (.ofInt (a.toInt * b.toInt))) ∧
    (b ≠ 0 →
      (∃ m, value .mod = some (.int m) ∧ m.toInt = a.toInt - b.toInt * a.toInt.fdiv b.toInt ∧
        m.toInt.natAbs < b.toInt.natAbs ∧ (m = 0 ∨ m.toInt.sign = b.toInt.sign) ∧
        (decide (a % b < 0) ≠ decide (b < 0) → (a % b + b).toInt = (a % b).toInt + b.toInt)) ∧
      ∃ q, value .div = some (.int q) ∧ q = .ofInt (a.toInt.fdiv b.toInt) ∧
        (q.toInt = a.toInt.fdiv b.toInt ↔ ¬(a = Int64.minValue ∧ b = -1))) ∧
    (0 ≤ b → b < 64 →
      value .shl = some (.int (.ofInt (a.toInt * 2 ^ b.toInt.toNat))) ∧
      ∃ n, value .shr = some (.int n) ∧ n.toInt = a.toInt.fdiv (2 ^ b.toInt.toNat)) ∧
    ∀ op, value op = none ↔
      (op = .div ∨ op = .mod) ∧ b = 0 ∨ (op = .shl ∨ op = .shr) ∧ ¬(0 ≤ b ∧ b < 64) ∨
        op = .undefined := by
  simp only [evalBinary_int, Option.map_eq_none_iff, evalInt_eq_none_iff, implies_true, and_true]
  refine ⟨?_, ?_, ?_, fun hb => ⟨?_, ?_⟩, fun h0 hb => ?_⟩
  · rw [Int64.ofInt_add, Int64.ofInt_toInt, Int64.ofInt_toInt]
    rfl
  · rw [Int64.ofInt_sub, Int64.ofInt_toInt, Int64.ofInt_toInt]
    rfl
  · rw [Int64.ofInt_mul, Int64.ofInt_toInt, Int64.ofInt_toInt]
    rfl
  · have hvalue := toInt_floorMod (a := a) hb
    have hrange := fmod_range (a := a.toInt) (toInt_ne_zero hb)
    refine ⟨floorMod a b, by simp [evalInt, hb], ?_, ?_, ?_, toInt_add_of_signs⟩
    · rw [hvalue, Int.fmod_def]
    · omega
    · by_cases hm : (floorMod a b).toInt = 0
      · exact .inl (Int64.toInt_inj.mp hm)
      · right
        rcases hrange with ⟨h0, hlt⟩ | ⟨hgt, h0⟩
        · rw [Int.sign_eq_one_of_pos (by omega), Int.sign_eq_one_of_pos (by omega)]
        · rw [Int.sign_eq_neg_one_of_neg (by omega), Int.sign_eq_neg_one_of_neg (by omega)]
  · exact ⟨floorDiv a b, by simp [evalInt, hb], floorDiv_eq_ofInt hb, toInt_floorDiv_iff hb⟩
  · have hpow : ((2 ^ b.toBitVec.toNat : Nat) : Int) = 2 ^ b.toInt.toNat := by
      rw [toNat_eq_toNat h0]
      push_cast
      rfl
    obtain ⟨hleft, hright⟩ := evalInt_shift (a := a) h0 hb
    rw [hleft, hright, shiftLeft_eq_ofInt h0 hb, hpow]
    exact ⟨rfl, _, rfl, by rw [toInt_shiftRight h0 hb, hpow]⟩

/-- Minus seven by two. -/
theorem evalBinary_exact_seven :
    (2 : Int64) ≠ 0 ∧ (0 : Int64) ≤ 2 ∧ (2 : Int64) < 64 ∧
      (∃ m, evalBinary .mod (.int (-7)) (.int 2) (.data .int) = some (.int m) ∧ m.toInt = 1) ∧
      (∃ q, evalBinary .div (.int (-7)) (.int 2) (.data .int) = some (.int q) ∧ q.toInt = -4) ∧
      evalBinary .shl (.int (-7)) (.int 2) (.data .int) = some (.int (.ofInt (-28))) := by
  obtain ⟨-, -, -, hdivide, hshift, -⟩ := evalBinary_exact (-7) 2
  obtain ⟨⟨m, hm, hrest, -⟩, q, hq, -, hexact⟩ := hdivide (by decide)
  refine ⟨by decide, by decide, by decide, ⟨m, hm, hrest⟩, ⟨q, hq, hexact.2 (by decide)⟩, ?_⟩
  exact (hshift (by decide) (by decide)).1

end Datapack.Ir
