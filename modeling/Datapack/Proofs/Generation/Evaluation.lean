import Datapack.Optimize.Folding
import Datapack.Proofs.Generation.Acceptance
import Datapack.Proofs.Generation.Regions

/-!
# Operations over literals

An operation over literals can be evaluated before its commands are made, or while they are made.  Either
way the variable gets the same value, with one exception: while commands are made a binary operation counts
as one on integers, so that a boolean variable gets the number itself in place of its truth value.
-/

namespace Datapack.Generation

open Ir Command

variable {g : Generation} {ins : Instruction} {l w : Literal} {v : Variable}

/-- The value of an operation over literals while its commands are made. -/
def directValue (ins : Instruction) : Option Literal :=
  if ins.op = .binaryOp then do
    let a ← literalOf (ins.refAt 2)
    let b ← literalOf (ins.refAt 3)
    evalBinary ins.binaryOperator a b (.data .int)
  else evaluate ins

/-- Whether a boolean variable is to get a number that stands for no truth value. -/
def givesNumber (ins : Instruction) : Bool :=
  ins.op = .binaryOp && typeOf (ins.refAt 0) = .data .boolean &&
    ((directValue ins).bind Literal.int?).any fun n => n ≠ 0 && n ≠ 1

theorem store_eq_setScore {dst : Slot} {n : Int64} (hdst : dst.space = .score) (h : l.int? = some n) :
    store dst l = .ok [.setScore dst n] := by
  simp [store, hdst, h]

/-! ## The two values -/

/-- Only a boolean result makes a difference to the value of a binary operation. -/
theorem evalBinary_integer {op : BinaryOperator} {a b : Literal} {result : Ty}
    (h : evalBinary op a b result = some l) :
    evalBinary op a b (.data .int) = some l ∧ (result = .data .boolean → l.int? = none) ∨
      result = .data .boolean ∧
        ∃ n, evalBinary op a b (.data .int) = some (.int n) ∧ l = .bool (n != 0) := by
  unfold evalBinary at h ⊢
  split at h
  · -- texts: the type of the result is not looked at
    have htext : l.int? = none := by grind [Literal.int?]
    exact .inl ⟨h, fun _ => htext⟩
  · simp only [Option.bind_eq_bind, Option.bind_eq_some_iff, Option.pure_def, Option.some.injEq] at h
    obtain ⟨x, hx, y, hy, n, hn, rfl⟩ := h
    by_cases hresult : result = .data .boolean
    · exact .inr ⟨hresult, n, by simp [hx, hy, hn], if_pos hresult⟩
    · exact .inl ⟨by simp [hx, hy, hn, hresult], fun hboolean => absurd hboolean hresult⟩

/-- What evaluation and the making of commands give to a variable. -/
theorem exists_directValue (h : evaluate ins = some l) :
    directValue ins = some l ∧
        (ins.op = .binaryOp → typeOf (ins.refAt 0) = .data .boolean → l.int? = none) ∨
      ins.op = .binaryOp ∧ typeOf (ins.refAt 0) = .data .boolean ∧
        ∃ n, directValue ins = some (.int n) ∧ l = .bool (n != 0) := by
  by_cases hop : ins.op = .binaryOp
  · simp only [evaluate, hop, Option.bind_eq_bind, Option.bind_eq_some_iff] at h
    obtain ⟨a, ha, b, hb, hvalue⟩ := h
    have hdirect : directValue ins = evalBinary ins.binaryOperator a b (.data .int) := by
      simp [directValue, hop, ha, hb]
    rw [hdirect]
    exact (evalBinary_integer hvalue).imp (fun hsame => ⟨hsame.1, fun _ => hsame.2⟩)
      (fun hboolean => ⟨hop, hboolean⟩)
  · left
    rw [directValue, if_neg hop]
    exact ⟨h, fun hbinary => absurd hbinary hop⟩

/-! ## The commands -/

theorem eq_literal_of_literalOf {r : Option Reference} (h : literalOf r = some l) : r = some (.literal l) := by
  cases r with
  | none => cases h
  | some x =>
      cases x with
      | literal k => exact congrArg (some ∘ Reference.literal) (Option.some.inj h)
      | _ => cases h

theorem destination_run {r : Option Reference} {α : Type} (hv : varOf r = some v) (k : Slot → Gen α) :
    (destination r >>= k).run g = (k (Layout.slot g v)).run g := by
  cases r with
  | none => cases hv
  | some x =>
      have hx : x.var? = some v := hv
      have hget : ∀ k : Generation → Gen α, (get >>= k).run g = (k g).run g := fun _ => rfl
      rw [destination, hx, bind_assoc, hget, pure_bind]

theorem run_direct (hv : varOf (ins.refAt 0) = some v) (htype : v.type ≠ .data .string)
    (hl : evaluate ins = some l) (hw : directValue ins = some w) :
    (processors.find ins.op ins).run g = (Gen.emitLowered (store (Layout.slot g v) w)).run g := by
  have hstring : typeOf (ins.refAt 0) ≠ .data .string := by
    rwa [typeOf_of_varOf hv]
  unfold evaluate at hl
  split at hl
  · next hop =>
    simp only [directValue, hop, Option.bind_eq_bind, Option.bind_eq_some_iff, if_true] at hw
    obtain ⟨a, ha, b, hb, hvalue⟩ := hw
    have hcs : ∀ env, binaryOp env (Layout.slot g v) ins.binaryOperator (.literal a) (.literal b) =
        store (Layout.slot g v) w := by simp [binaryOp, hvalue]
    have hfind : processors.find .binaryOp = binary := rfl
    rw [hop, hfind, binary, destination_run hv, eq_literal_of_literalOf ha, eq_literal_of_literalOf hb]
    simp only [operand, pure_bind, hstring, decide_false, Bool.and_false, Bool.false_eq_true, if_false]
    exact congrArg (fun cs => (Gen.emitLowered cs).run g) (hcs (Layout.registers g))
  · next hop =>
    simp only [directValue, hop, reduceCtorEq, if_false, evaluate, Option.bind_eq_bind,
      Option.bind_eq_some_iff] at hw
    obtain ⟨a, ha, b, hb, hvalue⟩ := hw
    have hcs : ∀ env, Command.compare env (Layout.slot g v) ins.compareOperator (.literal a) (.literal b) =
        store (Layout.slot g v) w := by simp [Command.compare, hvalue]
    have hfind : processors.find .compare = comparison := rfl
    rw [hop, hfind, comparison, destination_run hv, eq_literal_of_literalOf ha,
      eq_literal_of_literalOf hb]
    exact congrArg (fun cs => (Gen.emitLowered cs).run g) (hcs (Layout.registers g))
  · next hop =>
    simp only [directValue, hop, reduceCtorEq, if_false, evaluate, Option.bind_eq_bind,
      Option.bind_eq_some_iff] at hw
    obtain ⟨a, ha, hvalue⟩ := hw
    have hcs : ∀ env, unaryOp env (Layout.slot g v) ins.unaryOperator (.literal a) =
        store (Layout.slot g v) w := by simp [unaryOp, hvalue]
    have hfind : processors.find .unaryOp = unary := rfl
    rw [hop, hfind, unary, destination_run hv, eq_literal_of_literalOf ha]
    exact congrArg (fun cs => (Gen.emitLowered cs).run g) (hcs (Layout.registers g))
  · next hop =>
    simp only [directValue, hop, reduceCtorEq, if_false, evaluate, Option.bind_eq_bind,
      Option.bind_eq_some_iff] at hw
    obtain ⟨a, ha, hvalue⟩ := hw
    have hfind : processors.find .cast = conversion := rfl
    rw [hop, hfind, conversion, destination_run hv, eq_literal_of_literalOf ha]
    simp only [operand, pure_bind, hvalue]
  · cases hl

theorem run_assignment (hv : varOf (ins.refAt 0) = some v) :
    (processors.find .assign (.assign (ins.refAt 0) (some (.literal l)))).run g =
      (Gen.emitLowered (store (Layout.slot g v) l)).run g := by
  have hfind : processors.find .assign = assignment := rfl
  have htarget : (Instruction.assign (ins.refAt 0) (some (.literal l))).refAt 0 = ins.refAt 0 := rfl
  rw [hfind, assignment, htarget, destination_run hv]
  rfl

theorem int?_of_givesNumber_eq_false (hop : ins.op = .binaryOp)
    (hboolean : typeOf (ins.refAt 0) = .data .boolean) {n : Int64} (hn : directValue ins = some (.int n))
    (h : givesNumber ins = false) : (Literal.bool (n != 0)).int? = some n := by
  simp only [givesNumber, hop, hboolean, hn, Literal.int?, decide_true, Bool.true_and, Option.bind_some,
    Option.any_some, Bool.and_eq_false_iff, decide_eq_false_iff_not, not_not] at h
  rcases h with rfl | rfl <;> rfl

theorem exists_number (h : givesNumber ins = true) :
    ins.op = .binaryOp ∧ typeOf (ins.refAt 0) = .data .boolean ∧
      ∃ w n, directValue ins = some w ∧ w.int? = some n ∧ n ≠ 0 ∧ n ≠ 1 := by
  simp only [givesNumber, Bool.and_eq_true, decide_eq_true_eq, Option.any_eq_true] at h
  obtain ⟨⟨hop, hboolean⟩, n, hn, hrange⟩ := h
  obtain ⟨w, hw, hword⟩ := Option.bind_eq_some_iff.1 hn
  exact ⟨hop, hboolean, w, n, hw, hword, hrange⟩

/-- An operation over literals into a score has the commands of the assignment of its value, except where
a boolean variable is to get a number: then the number is stored, and the assignment stores one. -/
theorem run_evaluated (hv : varOf (ins.refAt 0) = some v)
    (htype : v.type = .data .int ∨ v.type = .data .boolean) (hl : evaluate ins = some l) :
    (givesNumber ins = false →
      (processors.find ins.op ins).run g =
        (processors.find .assign (.assign (ins.refAt 0) (some (.literal l)))).run g) ∧
    (givesNumber ins = true → ∃ n, n ≠ 0 ∧ n ≠ 1 ∧
      (processors.find ins.op ins).run g = (Gen.emit [.setScore (Layout.slot g v) n]).run g ∧
      (processors.find .assign (.assign (ins.refAt 0) (some (.literal l)))).run g =
        (Gen.emit [.setScore (Layout.slot g v) 1]).run g) := by
  have hspace : (Layout.slot g v).space = .score := by
    rw [space_slot]
    rcases htype with h | h <;> rw [h] <;> rfl
  have hstring : v.type ≠ .data .string := by
    rcases htype with h | h <;> rw [h] <;> exact nofun
  rw [run_assignment hv]
  rcases exists_directValue hl with ⟨hsame, htext⟩ | ⟨hop, hboolean, n, hn, rfl⟩
  · rw [run_direct hv hstring hl hsame]
    refine ⟨fun _ => rfl, ?_⟩
    intro hnumber
    obtain ⟨hop, hboolean, w, n, hw, hword, -⟩ := exists_number hnumber
    obtain rfl : l = w := Option.some.inj (hsame.symm.trans hw)
    rw [htext hop hboolean] at hword
    cases hword
  · rw [run_direct hv hstring hl hn]
    constructor
    · intro hnumber
      have hint := int?_of_givesNumber_eq_false hop hboolean hn hnumber
      rw [store_eq_setScore hspace hint, store_eq_setScore hspace (l := .int n) rfl]
    · intro hnumber
      obtain ⟨-, -, w, m, hw, hword, hzero, hone⟩ := exists_number hnumber
      obtain rfl : Literal.int n = w := Option.some.inj (hn.symm.trans hw)
      obtain rfl : n = m := Option.some.inj hword
      have htruth : (Literal.bool (n != 0)).int? = some 1 := by
        rw [bne_iff_ne.2 hzero]
        rfl
      refine ⟨n, hzero, hone, ?_, ?_⟩
      · rw [store_eq_setScore hspace hword]
        rfl
      · rw [store_eq_setScore hspace htruth]
        rfl

/-- A comparison of two numbers into a boolean variable. -/
def decidedOrder : Stream :=
  let b : Variable := { id := "b", name := "b", type := .data .boolean, retain := true }
  [.declare (some (.var b)),
    .compare (some (.var b)) .lt (some (.literal (.int 2))) (some (.literal (.int 3)))]

theorem run_evaluated_decidedOrder :
    ∃ g v ins l, start {} { code := decidedOrder } [] toString = .ok g ∧ decidedOrder[1]? = some ins ∧
      varOf (ins.refAt 0) = some v ∧ (v.type = .data .int ∨ v.type = .data .boolean) ∧
      evaluate ins = some l ∧ givesNumber ins = false ∧
      (processors.find ins.op ins).run g =
        (processors.find .assign (.assign (ins.refAt 0) (some (.literal l)))).run g := by
  refine ⟨_, _, _, _, rfl, rfl, rfl, .inr rfl, rfl, rfl, ?_⟩
  exact (run_evaluated rfl (.inr rfl) rfl).1 rfl

/-- The sum of two numbers into a boolean variable. -/
def sumOfTruths : Stream :=
  let b : Variable := { id := "b", name := "b", type := .data .boolean, retain := true }
  [.declare (some (.var b)),
    .binaryOp (some (.var b)) .add (some (.literal (.int 2))) (some (.literal (.int 3)))]

/-- The program is valid, and stores five unless its sum is folded first. -/
theorem sumOfTruths_differs_folded : Program.isValid { code := sumOfTruths } = true ∧
    ∃ g out g', start {} { code := sumOfTruths } [] toString = .ok g ∧
      Optimize.Folding.run sumOfTruths = .ok out ∧
      start {} { code := out.code } [] toString = .ok g' ∧
      (lower g).1.commandsAt 0 = [.setScore (.score "mcfc.b" "mcfc") 5] ∧
      (lower g').1.commandsAt 0 = [.setScore (.score "mcfc.b" "mcfc") 1] := by
  refine ⟨by decide +kernel, _, _, _, rfl, rfl, rfl, ?_, ?_⟩
  all_goals decide +kernel

end Datapack.Generation
