import Datapack.Proofs.Ir.Validity
import Datapack.Proofs.Optimize.Measure

/-!
# Operations read as assignments

Folding turns an operation into an assignment, and an assignment is checked more strictly: its target
must be declared, must accept the value and, if it is a constant, must not have been assigned before.
A program that is valid in the strict reading, where every operation stands for an assignment of a
value of the type it computes, is valid in the plain one.
-/

namespace Datapack.Optimize

open Ir ScopeTree

def sampleOf : DataType → Literal
  | .int => .int 0
  | .string => .str ""
  | .boolean => .bool false
  | .null => .null

/-- The type an operation computes. -/
def computedType (ins : Instruction) : DataType :=
  match ins.op with
  | .binaryOp =>
    if typeOf (ins.refAt 2) = .data .string then .string
    else if typeOf (ins.refAt 0) = .data .boolean then .boolean
    else .int
  | .compare => .boolean
  | .unaryOp => if ins.unaryOperator = .not then .boolean else .int
  | _ => ins.castTarget

/-- An operation as an assignment of a value of the type it computes, any other instruction as it is. -/
def asAssignment (ins : Instruction) : Instruction :=
  if isOperation ins then
    (Instruction.assign (ins.refAt 0) (some (.literal (sampleOf (computedType ins))))).located ins.loc
  else ins

/-- A program with its operations read as assignments. -/
def strict (p : Program) : Program := { p with code := p.code.map asAssignment }

section Instructions

variable {ins : Instruction}

theorem asAssignment_operation (h : isOperation ins = true) :
    asAssignment ins =
      (Instruction.assign (ins.refAt 0) (some (.literal (sampleOf (computedType ins))))).located ins.loc :=
  if_pos h

theorem asAssignment_other (h : isOperation ins = false) : asAssignment ins = ins :=
  if_neg (by simp [h])

theorem isOperation_delimiter (h : isDelimiter ins = true) : isOperation ins = false := by
  simp only [isDelimiter, Bool.or_eq_true, decide_eq_true_eq] at h
  rcases h with hop | hop <;> simp [isOperation, hop]

theorem asAssignment_delimiter (h : isDelimiter ins = true) : asAssignment ins = ins :=
  asAssignment_other (isOperation_delimiter h)

theorem isDelimiter_asAssignment (ins : Instruction) :
    isDelimiter (asAssignment ins) = isDelimiter ins := by
  cases h : isDelimiter ins with
  | true => rw [asAssignment_delimiter h, h]
  | false =>
      unfold asAssignment
      split
      · rfl
      · exact h

/-- Of the opcodes that stand for themselves an assignment is the only one that is ever gained. -/
theorem op_asAssignment_eq_iff {op : Opcode} (hop : isOperation ⟨op, [], none⟩ = false)
    (hassign : op ≠ .assign) : (asAssignment ins).op = op ↔ ins.op = op := by
  unfold asAssignment
  split
  · next h =>
      refine ⟨fun hnew => absurd hnew.symm hassign, ?_⟩
      rintro rfl
      rw [show isOperation ins = isOperation ⟨ins.op, [], none⟩ from rfl, hop] at h
      exact Bool.noConfusion h
  · rfl

end Instructions

/-! ## The regions of the strict reading -/

section Streams

variable (s : Stream)

theorem advance_asAssignment (p : Ir.Position) (ins : Instruction) :
    p.advance (asAssignment ins) = p.advance ins := by
  cases h : isDelimiter ins with
  | true => rw [asAssignment_delimiter h]
  | false => rw [p.advance_plain h, p.advance_plain (by rw [isDelimiter_asAssignment, h])]

theorem after_strict (p : Ir.Position) : p.after (s.map asAssignment) = p.after s := by
  induction s generalizing p with
  | nil => rfl
  | cons ins s ih =>
      rw [List.map_cons, Position.after_cons, Position.after_cons, advance_asAssignment, ih]

theorem scan_strict (i : Nat) (nodes : List ScopeNode) (stack owner : List Nat) :
    scan i nodes stack owner (s.map asAssignment) = scan i nodes stack owner s := by
  induction s generalizing i nodes stack owner with
  | nil => rfl
  | cons ins s ih =>
      rw [List.map_cons]
      cases h : isDelimiter ins with
      | false =>
          have h' : isDelimiter (asAssignment ins) = false := by rw [isDelimiter_asAssignment, h]
          rw [isDelimiter_eq_false] at h h'
          rw [scan_other h.1 h.2, scan_other h'.1 h'.2, ih]
      | true =>
          rw [asAssignment_delimiter h]
          unfold scan
          simp only [ih]

theorem ofStream_strict : ofStream (s.map asAssignment) = ofStream s := by
  rw [ofStream, List.length_map]
  exact scan_strict s _ _ _ _

theorem functionScopesFrom_strict (t : ScopeTree) (i : Nat) :
    functionScopesFrom t i (s.map asAssignment) = functionScopesFrom t i s := by
  induction s generalizing i with
  | nil => rfl
  | cons a s ih =>
      cases s with
      | nil => rfl
      | cons b rest =>
          have htail := ih (i + 1)
          rw [List.map_cons] at htail
          rw [List.map_cons, List.map_cons, functionScopesFrom, functionScopesFrom, htail]
          congr 1
          have hfunction : (asAssignment a).op = .function ↔ a.op = .function :=
            op_asAssignment_eq_iff rfl Opcode.noConfusion
          have hbegin : (asAssignment b).op = .scopeBegin ↔ b.op = .scopeBegin :=
            op_asAssignment_eq_iff rfl Opcode.noConfusion
          by_cases hbody : a.op = .function ∧ b.op = .scopeBegin
          · rw [asAssignment_other (by simp [isOperation, hbody.1]),
              asAssignment_delimiter (by simp [isDelimiter, hbody.2])]
          · rw [not_and_or] at hbody
            rcases hbody with ha | hb
            · simp [hfunction, ha]
            · simp [hbegin, hb]

end Streams

/-! ## Validity in the strict reading -/

/-- No instruction of a stream has a defect in the strict reading. -/
def Clean (classes : Hierarchy) (s : Stream) (t : ScopeTree) : Prop :=
  ∀ pre ins post, s = pre ++ ins :: post →
    (surroundings classes s t).defects (track (pre.map asAssignment)) (Position.start.after pre).top
      (asAssignment ins) = []

theorem isValid_strict_iff (p : Program) :
    (strict p).isValid = true ↔ ∃ t, ofStream p.code = .ok t ∧ Clean p.classes p.code t := by
  rw [Program.isValid_iff]
  refine exists_congr fun t => ?_
  have hsurroundings : surroundings p.classes (p.code.map asAssignment) t =
      surroundings p.classes p.code t := by
    rw [surroundings, surroundings, functionScopes, functionScopesFrom_strict]
    rfl
  rw [show (strict p).code = p.code.map asAssignment from rfl,
    show (strict p).classes = p.classes from rfl, ofStream_strict, hsurroundings]
  refine and_congr_right fun _ => ⟨fun h pre ins post hs => ?_, fun h pre ins post hs => ?_⟩
  · have hstep := h (pre.map asAssignment) (asAssignment ins) (post.map asAssignment) (by
      rw [hs, List.map_append, List.map_cons])
    rwa [after_strict] at hstep
  · obtain ⟨front, rest, hcode, rfl, hrest⟩ := List.map_eq_append_iff.1 hs
    obtain ⟨ins, post, rfl, rfl, rfl⟩ := List.map_eq_cons_iff.1 hrest
    rw [after_strict]
    exact h front ins post hcode

/-- What is known in the plain reading is what is known in the strict one, except that fewer constants
have been assigned. -/
theorem track_strict (s : Stream) :
    (track s).declared = (track (s.map asAssignment)).declared ∧
      ∀ v ∈ (track s).assigned, v ∈ (track (s.map asAssignment)).assigned := by
  induction s using List.reverseRecOn with
  | nil => exact ⟨rfl, fun v hv => hv⟩
  | append_singleton s ins ih =>
      obtain ⟨hdeclared, hassigned⟩ := ih
      rw [List.map_append, List.map_singleton, track_snoc, track_snoc, after_strict]
      generalize track (s.map asAssignment) = k at *
      generalize track s = k' at *
      generalize (Position.start.after s).top = n
      cases hoperation : isOperation ins with
      | true =>
          have hne : ins.op ≠ .declare ∧ ins.op ≠ .assign := by
            simp only [isOperation, Bool.or_eq_true, decide_eq_true_eq] at hoperation
            rcases hoperation with ((hop | hop) | hop) | hop <;> simp [hop]
          rw [advance_of_ne k' n hne.1 hne.2, asAssignment_operation hoperation]
          obtain ⟨hd, ha⟩ := @advance_assign ((Instruction.assign (ins.refAt 0)
            (some (.literal (sampleOf (computedType ins))))).located ins.loc) k n rfl
          rw [hd, ha]
          exact ⟨hdeclared, fun v hv => List.mem_append_right _ (hassigned v hv)⟩
      | false =>
          rw [asAssignment_other hoperation]
          by_cases hdeclare : ins.op = .declare
          · obtain ⟨ha, hd⟩ := advance_declare k n hdeclare
            obtain ⟨ha', hd'⟩ := advance_declare k' n hdeclare
            rw [ha, hd, ha', hd', hdeclared]
            refine ⟨?_, hassigned⟩
            cases varOf (ins.refAt 0) with
            | none => rfl
            | some v =>
                have hsame : k'.declares n v.name = k.declares n v.name := by
                  simp only [Progress.declares, hdeclared]
                simp only [hsame]
          · by_cases hassign : ins.op = .assign
            · obtain ⟨hd, ha⟩ := advance_assign k n hassign
              obtain ⟨hd', ha'⟩ := advance_assign k' n hassign
              rw [ha, hd, ha', hd']
              refine ⟨hdeclared, fun v hv => ?_⟩
              rw [List.mem_append] at hv ⊢
              exact hv.imp id (hassigned v)
            · rw [advance_of_ne k n hdeclare hassign, advance_of_ne k' n hdeclare hassign]
              exact ⟨hdeclared, hassigned⟩

theorem defects_of_fewer_assigned {e : Surroundings} {k k' : Ir.Progress} {n : Nat} {ins : Instruction}
    (hdeclared : k'.declared = k.declared) (hassigned : ∀ v ∈ k'.assigned, v ∈ k.assigned)
    (h : e.defects k n ins = []) : e.defects k' n ins = [] := by
  by_cases hdeclare : ins.op = .declare
  · simp only [Surroundings.defects, hdeclare, Surroundings.declareDefects, Progress.declares,
      hdeclared] at h ⊢
    exact h
  · by_cases hassign : ins.op = .assign
    · simp only [Surroundings.defects, hassign] at h ⊢
      obtain ⟨v, source, hv, hsource, hd, hconstant, htype⟩ := assignDefects_eq_nil.1 h
      refine assignDefects_eq_nil.2 ⟨v, source, hv, hsource, ?_, fun hc hmem => ?_, htype⟩
      · rw [Progress.isDeclared, hdeclared]
        exact hd
      · exact hconstant hc (hassigned v hmem)
    · -- nothing else is checked against what is known
      have hsame : e.defects k' n ins = e.defects k n ins := by
        unfold Surroundings.defects
        split
        · contradiction
        · contradiction
        all_goals rfl
      rw [hsame, h]

theorem isValid_of_strict {p : Program} (h : (strict p).isValid = true) : p.isValid = true := by
  obtain ⟨t, ht, hclean⟩ := (isValid_strict_iff p).1 h
  refine p.isValid_iff.2 ⟨t, ht, fun pre ins post hs => ?_⟩
  cases hop : isOperation ins with
  | true =>
      simp only [isOperation, Bool.or_eq_true, decide_eq_true_eq] at hop
      rcases hop with ((hop | hop) | hop) | hop <;> simp [Surroundings.defects, hop]
  | false =>
      have hdefects := hclean pre ins post hs
      rw [asAssignment_other hop] at hdefects
      obtain ⟨hdeclared, hassigned⟩ := track_strict pre
      exact defects_of_fewer_assigned hdeclared hassigned hdefects

end Datapack.Optimize
