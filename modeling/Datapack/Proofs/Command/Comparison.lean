import Datapack.Proofs.Command.Arithmetic

/-!
# Comparing scores

What the commands for comparisons of integer literals and scores leave in their destination.  A number
becomes the end of a range, and the range of a strict comparison ends one beside it: with the least or the
greatest word that end wraps, and the range holds every score.
-/

namespace Datapack.Command

open Ir

variable {S : Scores} {dst scratch : Slot} {env : Registers} {op : CompareOperator}
variable {fns : String → Option (List Command)}

/-- Whether a word has a value of 32 bits. -/
def isShort (n : Int64) : Bool := -2147483648 ≤ n.toInt && n.toInt < 2147483648

def Operand.Reads (S : Scores) (n : Int64) : Operand → Prop
  | literal l => l = .int n ∧ isShort n = true
  | slot s => s.space = .score ∧ S s = some n

theorem Operand.Reads.holds {o : Operand} {n : Int64} (h : o.Reads S n) : o.Holds S n := by
  cases o with
  | literal l => exact h.1
  | slot s => exact h

/-! ## Words in order -/

/-- The word a comparison of two words gives. -/
def comparisonOf (op : CompareOperator) (a b : Int64) : Int64 :=
  if holds op (orderInt a b) = some true then 1 else 0

/-- A comparison read from its other side. -/
theorem comparisonOf_swap (op : CompareOperator) (hop : op ≠ .undefined) (a b : Int64) :
    comparisonOf op.swap b a = comparisonOf op a b := by
  obtain ⟨hlt, heq, hgt⟩ := orderInt_eq a b
  obtain ⟨hlt', heq', hgt'⟩ := orderInt_eq b a
  have hsym : a.toInt = b.toInt ↔ b.toInt = a.toInt := eq_comm
  cases op with
  | undefined => exact absurd rfl hop
  | _ => simp [comparisonOf, CompareOperator.swap, holds, hlt, heq, hgt, hlt', heq', hgt', hsym]

theorem evalCompare_int (hop : op ≠ .undefined) (a b : Int64) :
    ∃ v, evalCompare op (.int a) (.int b) = some (.bool v) ∧
      comparisonOf op a b = if v then 1 else 0 := by
  obtain ⟨v, hv⟩ : ∃ v, holds op (orderInt a b) = some v := by
    cases op with
    | undefined => exact absurd rfl hop
    | _ => exact ⟨_, rfl⟩
  exact ⟨v, by simp [evalCompare, Literal.type, Literal.int?, hv], by simp [comparisonOf, hv]⟩

/-! ## Ranges -/

/-- Whether the range of a strict comparison with a number would end beyond the words. -/
def wrapsAt (op : CompareOperator) (n : Int64) : Bool :=
  op = .lt && n = Int64.minValue || op = .gt && n = Int64.maxValue

/-- Whether the literal of a comparison lies at the end of the words that the comparison excludes. -/
def overruns (op : CompareOperator) : Operand → Operand → Bool
  | .slot _, .literal (.int n) => wrapsAt op n
  | .literal (.int n), .slot _ => wrapsAt op.swap n
  | _, _ => false

/-- A range whose end wraps contains every word, any other the words that stand in the relation. -/
theorem contains_rangeOf (hop : op ≠ .undefined) (a b : Int64) :
    (rangeOf op b).contains a = (wrapsAt op b || (relationOf op).relates a b) := by
  cases op with
  | undefined => exact absurd rfl hop
  | lt =>
      by_cases hb : b = Int64.minValue
      · subst hb
        have hend : Int64.minValue - 1 = Int64.maxValue := by decide
        simp [rangeOf, Range.contains, wrapsAt, hend, Int64.le_maxValue]
      · simp only [rangeOf, Range.contains, relationOf, Relation.relates, wrapsAt, hb, decide_false,
          Bool.and_false, Bool.or_false, Bool.false_or, reduceCtorEq, Bool.false_and,
          Int64.le_iff_toInt_le, Int64.lt_iff_toInt_lt, toInt_sub_one hb, decide_eq_decide]
        omega
  | gt =>
      by_cases hb : b = Int64.maxValue
      · subst hb
        have hend : Int64.maxValue + 1 = Int64.minValue := by decide
        simp [rangeOf, Range.contains, wrapsAt, hend, Int64.minValue_le]
      · simp only [rangeOf, Range.contains, relationOf, Relation.relates, wrapsAt, hb, decide_false,
          Bool.and_false, Bool.or_false, Bool.false_or, reduceCtorEq, Bool.false_and,
          Int64.le_iff_toInt_le, Int64.lt_iff_toInt_lt, toInt_add_one hb, decide_eq_decide]
        omega
  | _ => rfl

/-! ## Conditions -/

/-- The polarity with which a comparison is tested. -/
def polarityOf (op : CompareOperator) : Polarity := if op = .ne then .fails else .holds

theorem admits_relates (hop : op ≠ .undefined) (a b : Int64) :
    (polarityOf op).admits ((relationOf op).relates a b) = (holds op (orderInt a b) = some true) := by
  obtain ⟨hlt, heq, hgt⟩ := orderInt_eq a b
  cases op with
  | undefined => exact absurd rfl hop
  | eq => simp [polarityOf, Polarity.admits, relationOf, Relation.relates, holds, heq, Int64.toInt_inj]
  | ne => simp [polarityOf, Polarity.admits, relationOf, Relation.relates, holds, heq, Int64.toInt_inj]
  | lt => simp [polarityOf, Polarity.admits, relationOf, Relation.relates, holds, hlt,
      Int64.lt_iff_toInt_lt]
  | le => simp [polarityOf, Polarity.admits, relationOf, Relation.relates, holds, hgt,
      Int64.le_iff_toInt_le]
  | gt => simp [polarityOf, Polarity.admits, relationOf, Relation.relates, holds, hgt,
      Int64.lt_iff_toInt_lt]
  | ge => simp [polarityOf, Polarity.admits, relationOf, Relation.relates, holds, hlt,
      Int64.le_iff_toInt_le]

/-- The word a condition leaves. -/
def outcomeOf (p : Polarity) (passes : Bool) : Int64 := if p.admits passes then 1 else 0

theorem outcomeOf_relates (hop : op ≠ .undefined) (a b : Int64) :
    outcomeOf (polarityOf op) ((relationOf op).relates a b) = comparisonOf op a b := by
  simp only [outcomeOf, comparisonOf, admits_relates hop]

theorem outcomeOf_contains (hop : op ≠ .undefined) (a b : Int64) :
    outcomeOf (polarityOf op) ((rangeOf op b).contains a) =
      if wrapsAt op b = true then 1 else comparisonOf op a b := by
  rw [contains_rangeOf hop]
  by_cases hwraps : wrapsAt op b = true
  · have hne : op ≠ .ne := by
      rintro rfl
      simp [wrapsAt] at hwraps
    simp [hwraps, outcomeOf, polarityOf, hne, Polarity.admits]
  · rw [if_neg hwraps, Bool.not_eq_true _ |>.mp hwraps, Bool.false_or]
    exact outcomeOf_relates hop a b

/-! ## The commands -/

variable (fns)
variable {l r : Operand} {a b : Int64}

theorem compareScore_writes {s : Slot} (hop : op ≠ .undefined) (hl : Operand.Holds S a (.slot s))
    (hr : r.Holds S b) :
    ∃ cs, compareScore env dst op (.slot s) r = .ok cs ∧ Writes fns cs S dst scratch
      (if overruns op (.slot s) r = true then 1 else comparisonOf op a b) := by
  obtain ⟨hspace, hs⟩ := hl
  cases r with
  | literal y =>
      subst hr
      refine ⟨[.storeTest dst (polarityOf op) (.inRange s (rangeOf op b))], ?_, .single ?_⟩
      · simp only [compareScore, asScore, hspace, Literal.int?, polarityOf]
        rfl
      · rw [overruns, ← outcomeOf_contains hop]
        simp [effect, Test.passes, hs, outcomeOf]
  | slot t =>
      obtain ⟨-, ht⟩ := hr
      refine ⟨[.storeTest dst (polarityOf op) (.related s (relationOf op) t)], ?_, .single ?_⟩
      · simp only [compareScore, asScore, hspace, polarityOf]
        rfl
      · have hword : (if overruns op (.slot s) (.slot t) = true then 1 else comparisonOf op a b)
            = outcomeOf (polarityOf op) ((relationOf op).relates a b) := (outcomeOf_relates hop a b).symm
        rw [hword]
        simp [effect, Test.passes, hs, ht, outcomeOf]

theorem isStored_of_holds {o : Operand} {n : Int64} (h : o.Holds S n) : isStored o = false := by
  cases o with
  | literal x =>
      subst h
      rfl
  | slot s => simp [isStored, h.1]

/-- The commands of a comparison leave one where its literal overruns the words, and else the word the
comparison gives. -/
theorem compare_leaves (hop : op ≠ .undefined) (hslot : l.literal? = none ∨ r.literal? = none)
    (hl : l.Holds S a) (hr : r.Holds S b) :
    ∃ cs, compare env dst op l r = .ok cs ∧
      Writes fns cs S dst scratch (if overruns op l r = true then 1 else comparisonOf op a b) := by
  have hstored : (isStored l || isStored r) = false := by
    rw [isStored_of_holds hl, isStored_of_holds hr, Bool.or_false]
  cases l with
  | slot s =>
      obtain ⟨cs, hcs, hwrites⟩ := compareScore_writes fns hop hl hr
      refine ⟨cs, ?_, hwrites⟩
      rw [compare, hstored, if_neg (by simp)]
      exact hcs
  | literal x =>
      cases r with
      | literal y => simp [Operand.literal?] at hslot
      | slot t =>
          have hswap : op.swap ≠ .undefined := by cases op <;> decide
          obtain ⟨cs, hcs, hwrites⟩ := compareScore_writes fns hswap hr hl
          refine ⟨cs, ?_, ?_⟩
          · rw [compare, hstored, if_neg (by simp)]
            · exact hcs
            · intro _ _ _ h
              cases h
          · subst hl
            rw [comparisonOf_swap op hop] at hwrites
            exact hwrites

theorem comparisonOf_of_wrapsAt (h : wrapsAt op b = true) : comparisonOf op a b = 0 := by
  obtain ⟨hlt, -, hgt⟩ := orderInt_eq a b
  have hlo := Int64.le_toInt a
  have hhi := Int64.toInt_lt a
  simp only [wrapsAt, Bool.or_eq_true, Bool.and_eq_true, decide_eq_true_eq] at h
  rcases h with ⟨rfl, rfl⟩ | ⟨rfl, rfl⟩
  · rw [Int64.toInt_minValue] at hlt
    have hne : orderInt a Int64.minValue ≠ .lt := fun h => absurd (hlt.mp h) (by omega)
    simp [comparisonOf, holds, hne]
  · rw [Int64.toInt_maxValue] at hgt
    have hne : orderInt a Int64.maxValue ≠ .gt := fun h => absurd (hgt.mp h) (by omega)
    simp [comparisonOf, holds, hne]

/-- A literal that overruns the words excludes every word. -/
theorem comparisonOf_of_overruns (hop : op ≠ .undefined) (hl : l.Holds S a) (hr : r.Holds S b)
    (h : overruns op l r = true) : comparisonOf op a b = 0 := by
  unfold overruns at h
  split at h
  · obtain rfl := Literal.int.inj hr
    exact comparisonOf_of_wrapsAt h
  · obtain rfl := Literal.int.inj hl
    rw [← comparisonOf_swap op hop]
    exact comparisonOf_of_wrapsAt h
  · exact absurd h (by simp)

/-- The commands of a comparison of which at least one side is a score leave one or zero, as the evaluator
decides it, unless a literal overruns the words; then they leave the opposite.  The destination may be one
of the sides, and nothing else changes. -/
theorem compare_computes_iff (hop : op ≠ .undefined) (hslot : l.literal? = none ∨ r.literal? = none)
    (hl : l.Holds S a) (hr : r.Holds S b) :
    ∃ v cs n, evalCompare op (.int a) (.int b) = some (.bool v) ∧ compare env dst op l r = .ok cs ∧
      Writes fns cs S dst dst n ∧ (n = (if v then 1 else 0) ↔ overruns op l r = false) := by
  obtain ⟨v, hv, hword⟩ := evalCompare_int hop a b
  obtain ⟨cs, hcs, hwrites⟩ := compare_leaves fns hop hslot hl hr
  refine ⟨v, cs, _, hv, hcs, hwrites, ?_⟩
  rw [← hword]
  cases hover : overruns op l r with
  | false => simp
  | true => simp [comparisonOf_of_overruns hop hl hr hover]

/-- A literal compared with a score, into that score. -/
theorem compare_computes_in_place :
    ∃ cs, compare exampleRegisters (.score "y" "ns") .lt (.literal (.int 1)) (.slot (.score "y" "ns"))
        = .ok cs ∧
      Writes (fun _ => none) cs exampleScores (.score "y" "ns") (.score "y" "ns") 0 := by
  have hop : CompareOperator.lt ≠ .undefined := by decide
  have hone : Operand.Holds exampleScores 1 (.literal (.int 1)) := rfl
  have hy : Operand.Holds exampleScores (-7) (.slot (.score "y" "ns")) := ⟨rfl, by decide⟩
  obtain ⟨v, cs, n, hv, hcs, hwrites, hiff⟩ :
      ∃ v cs n, evalCompare .lt (.int 1) (.int (-7)) = some (.bool v) ∧
        compare exampleRegisters (.score "y" "ns") .lt (.literal (.int 1)) (.slot (.score "y" "ns"))
          = .ok cs ∧
        Writes (fun _ => none) cs exampleScores (.score "y" "ns") (.score "y" "ns") n ∧
        (n = (if v then 1 else 0) ↔ overruns .lt (.literal (.int 1)) (.slot (.score "y" "ns")) = false) :=
    compare_computes_iff (fun _ => none) hop (.inr rfl) hone hy
  obtain rfl := Literal.bool.inj (Option.some.inj hv)
  rw [hiff.mpr (by decide)] at hwrites
  exact ⟨cs, hcs, hwrites⟩

/-- No number is less than the least word, but the commands say so. -/
theorem compare_least_word :
    evalCompare .lt (.int 2) (.int Int64.minValue) = some (.bool false) ∧
      ∃ cs, compare exampleRegisters (.score "z" "ns") .lt (.slot (.score "x" "ns"))
          (.literal (.int Int64.minValue)) = .ok cs ∧
        Writes (fun _ => none) cs exampleScores (.score "z" "ns") (.score "z" "ns") 1 := by
  refine ⟨by decide, ?_⟩
  exact compare_leaves (fun _ => none) (a := 2) (b := Int64.minValue) (by decide) (.inl rfl)
    ⟨rfl, by decide⟩ rfl

/-! ## Short numbers -/

theorem wrapsAt_of_isShort {n : Int64} (h : isShort n = true) : wrapsAt op n = false := by
  have hmin : n ≠ Int64.minValue := by
    rintro rfl
    exact absurd h (by decide)
  have hmax : n ≠ Int64.maxValue := by
    rintro rfl
    exact absurd h (by decide)
  simp [wrapsAt, hmin, hmax]

theorem overruns_of_reads (hl : l.Reads S a) (hr : r.Reads S b) : overruns op l r = false := by
  unfold overruns
  split
  · obtain ⟨hb, hshort⟩ := hr
    obtain rfl := Literal.int.inj hb
    exact wrapsAt_of_isShort hshort
  · obtain ⟨ha, hshort⟩ := hl
    obtain rfl := Literal.int.inj ha
    exact wrapsAt_of_isShort hshort
  · rfl

theorem compare_writes (hop : op ≠ .undefined) (hdst : dst.space = .score) (hl : l.Reads S a)
    (hr : r.Reads S b) :
    ∃ cs, compare env dst op l r = .ok cs ∧ Writes fns cs S dst scratch (comparisonOf op a b) := by
  by_cases hslot : l.literal? = none ∨ r.literal? = none
  · obtain ⟨cs, hcs, hwrites⟩ := compare_leaves fns hop hslot hl.holds hr.holds
    rw [overruns_of_reads hl hr, if_neg (by simp)] at hwrites
    exact ⟨cs, hcs, hwrites⟩
  · cases l with
    | slot s => exact absurd (.inl rfl) hslot
    | literal x =>
        cases r with
        | slot s => exact absurd (.inr rfl) hslot
        | literal y =>
            obtain ⟨rfl, -⟩ := hl
            obtain ⟨rfl, -⟩ := hr
            obtain ⟨v, hv, hword⟩ := evalCompare_int hop a b
            refine ⟨[.setScore dst (comparisonOf op a b)], ?_, .single rfl⟩
            simp [compare, hv, store, hdst, Literal.int?, hword]

end Datapack.Command
