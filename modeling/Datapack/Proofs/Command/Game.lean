import Datapack.Proofs.Command.Storage
import Datapack.Command.Template

/-!
# Running commands on scores and data

A run of the commands of a function, with macro functions and the data that the storages hold.  What the
game does beyond scores, data and control flow is given to it: which command a line spells, and what the
commands do that the compiler does not look into.
-/

namespace Datapack.Command

open Ir

/-- What a run depends on besides its commands. -/
structure Game where
  /-- The commands of a function. -/
  functions : String → Option (List Command)
  /-- The command that a line spells, unless the line is refused. -/
  reads : String → Option Command
  /-- The text of a compound. -/
  spells : (String → Option Data) → String
  /-- What the other commands may do. -/
  other : Command → Memory → Memory → Prop

/-- What stands for a piece of a line, if there is a text for it. -/
def Piece.fill (texts : String → Option String) : Piece → Option (List Char)
  | char c => some [c]
  | placeholder name => (texts name).map String.toList

/-- A line with a text in the place of every placeholder, if there is one for each. -/
def fill (texts : String → Option String) (content : String) : Option String :=
  ((pieces content.toList).mapM (Piece.fill texts)).map fun cs => String.ofList cs.flatten

namespace Game

/-- The text that a value puts into a line: a text is put there as it is. -/
def textOf (G : Game) : Data → String
  | .number n => toString n.toInt
  | .text s => s
  | .compound es => G.spells es

/-- The commands of a macro function on a compound. There are none if a placeholder has no value or a line
is refused. -/
def instantiate (G : Game) (args : Option Data) (cs : List Command) : Option (List Command) :=
  match args with
  | some (.compound es) =>
    cs.mapM fun c =>
      match c with
      | .template content => (fill (fun key => (es key).map G.textOf) content).bind G.reads
      | c => some c
  | _ => none

end Game

def isControl : Command → Bool
  | guarded .. | call _ | callWith .. | ret _ | returnRun _ => true
  | _ => false

/-- Run the commands of a function. A macro function that has no commands for its arguments fails, and the
run goes on behind the call. -/
inductive Runs (G : Game) : List Command → Memory → Memory → Prop where
  | nil {M : Memory} : Runs G [] M M
  | plain {c : Command} {rest : List Command} {M N U : Memory} (hc : M.effect c = some N)
      (hrest : Runs G rest N U) : Runs G (c :: rest) M U
  | other {c : Command} {rest : List Command} {M N U : Memory} (hc : M.effect c = none)
      (hcontrol : c.isControl = false) (hother : G.other c M N) (hrest : Runs G rest N U) :
      Runs G (c :: rest) M U
  | skip {p : Polarity} {s : Slot} {r : Range} {c : Command} {rest : List Command} {M U : Memory}
      (htest : p.admits ((Test.inRange s r).passes M.scores) = false) (hrest : Runs G rest M U) :
      Runs G (guarded p s r c :: rest) M U
  | run {p : Polarity} {s : Slot} {r : Range} {c : Command} {rest : List Command} {M U : Memory}
      (htest : p.admits ((Test.inRange s r).passes M.scores) = true) (hc : Runs G (c :: rest) M U) :
      Runs G (guarded p s r c :: rest) M U
  | call {f : String} {cs rest : List Command} {M N U : Memory} (hf : G.functions f = some cs)
      (hcs : Runs G cs M N) (hrest : Runs G rest N U) : Runs G (call f :: rest) M U
  | callWith {f : String} {s : Slot} {cs ds rest : List Command} {M N U : Memory} (hf : G.functions f = some cs)
      (hds : G.instantiate (M.data? s) cs = some ds) (hrun : Runs G ds M N) (hrest : Runs G rest N U) :
      Runs G (callWith f s :: rest) M U
  | refuse {f : String} {s : Slot} {cs rest : List Command} {M U : Memory} (hf : G.functions f = some cs)
      (hcs : G.instantiate (M.data? s) cs = none) (hrest : Runs G rest M U) : Runs G (callWith f s :: rest) M U
  | ret {n : Nat} {rest : List Command} {M : Memory} : Runs G (ret n :: rest) M M
  | returnRun {c : Command} {rest : List Command} {M N : Memory} (hc : Runs G [c] M N) :
      Runs G (returnRun c :: rest) M N

variable {G : Game} {c : Command} {cs ds rest : List Command} {M N U : Memory}

theorem effect_of_isControl (h : c.isControl = true) (M : Memory) : M.effect c = none := by
  cases c <;> first | rfl | cases h

theorem runs_nil_iff : Runs G [] M U ↔ U = M := by
  constructor
  · rintro ⟨⟩
    rfl
  · rintro rfl
    exact .nil

theorem runs_plain_iff (hc : M.effect c = some N) : Runs G (c :: rest) M U ↔ Runs G rest N U := by
  refine ⟨fun h => ?_, .plain hc⟩
  have hcontrol : c.isControl = false := by
    by_contra htrue
    rw [effect_of_isControl (eq_true_of_ne_false htrue)] at hc
    cases hc
  cases h with
  | plain hc' hrest => exact Option.some.inj (hc.symm.trans hc') ▸ hrest
  | other hc' => cases hc.symm.trans hc'
  | _ => cases hcontrol

theorem runs_other_iff (hc : M.effect c = none) (hcontrol : c.isControl = false) :
    Runs G (c :: rest) M U ↔ ∃ N, G.other c M N ∧ Runs G rest N U := by
  constructor
  · intro h
    cases h with
    | plain hc' => cases hc.symm.trans hc'
    | other _ _ hother hrest => exact ⟨_, hother, hrest⟩
    | _ => cases hcontrol
  · rintro ⟨N, hother, hrest⟩
    exact .other hc hcontrol hother hrest

theorem runs_guarded_iff {p : Polarity} {s : Slot} {r : Range} :
    Runs G (guarded p s r c :: rest) M U ↔
      if p.admits ((Test.inRange s r).passes M.scores) then Runs G (c :: rest) M U else Runs G rest M U := by
  constructor
  · intro h
    cases h with
    | plain hc => cases hc
    | other _ hcontrol => cases hcontrol
    | skip htest hrest => rwa [if_neg (by simp [htest])]
    | run htest hc => rwa [if_pos htest]
  · intro h
    split at h
    · next htest => exact .run htest h
    · next htest => exact .skip (eq_false_of_ne_true htest) h

/-- Commands with known effects are run by their effects, one after the other. -/
theorem runs_map_iff {α : Type} {f : α → Command} {step : Memory → α → Memory}
    (h : ∀ M a, M.effect (f a) = some (step M a)) (as : List α) :
    Runs G (as.map f ++ rest) M U ↔ Runs G rest (as.foldl step M) U := by
  induction as generalizing M with
  | nil => rfl
  | cons a as ih =>
      rw [List.map_cons, List.cons_append, runs_plain_iff (h M a), ih]
      rfl

/-- A return ends the run of a function. -/
theorem runs_ret_iff {n : Nat} : Runs G (ret n :: rest) M U ↔ U = M := by
  constructor
  · intro h
    cases h with
    | plain hc => cases hc
    | other _ hcontrol => cases hcontrol
    | ret => rfl
  · rintro rfl
    exact .ret

theorem runs_call_iff {f : String} :
    Runs G (call f :: rest) M U ↔ ∃ cs N, G.functions f = some cs ∧ Runs G cs M N ∧ Runs G rest N U := by
  constructor
  · intro h
    cases h with
    | plain hc => cases hc
    | other _ hcontrol => cases hcontrol
    | call hf hcs hrest => exact ⟨_, _, hf, hcs, hrest⟩
  · rintro ⟨cs, N, hf, hcs, hrest⟩
    exact .call hf hcs hrest

/-- A macro function runs the commands it has for its arguments, or nothing. -/
theorem runs_callWith_iff {f : String} {s : Slot} (hf : G.functions f = some cs) :
    Runs G (callWith f s :: rest) M U ↔
      ∃ N, ((∃ ds, G.instantiate (M.data? s) cs = some ds ∧ Runs G ds M N) ∨
        G.instantiate (M.data? s) cs = none ∧ N = M) ∧ Runs G rest N U := by
  constructor
  · intro h
    cases h with
    | plain hc => cases hc
    | other _ hcontrol => cases hcontrol
    | callWith hf' hds hrun hrest =>
        cases hf.symm.trans hf'
        exact ⟨_, .inl ⟨_, hds, hrun⟩, hrest⟩
    | refuse hf' hcs hrest =>
        cases hf.symm.trans hf'
        exact ⟨_, .inr ⟨hcs, rfl⟩, hrest⟩
  · rintro ⟨N, ⟨ds, hds, hrun⟩ | ⟨hcs, rfl⟩, hrest⟩
    · exact .callWith hf hds hrun hrest
    · exact .refuse hf hcs hrest

/-- Commands without control flow are run one part after the other. -/
theorem runs_append_iff (hcs : ∀ c ∈ cs, c.isControl = false) :
    Runs G (cs ++ ds) M U ↔ ∃ N, Runs G cs M N ∧ Runs G ds N U := by
  induction cs generalizing M with
  | nil => simp [runs_nil_iff]
  | cons c cs ih =>
      have htail := fun M => ih (M := M) fun d hd => hcs d (List.mem_cons_of_mem c hd)
      have hcontrol := hcs c List.mem_cons_self
      constructor
      · intro h
        cases h with
        | plain hc hrest =>
            obtain ⟨N, hfirst, hsecond⟩ := (htail _).1 hrest
            exact ⟨N, .plain hc hfirst, hsecond⟩
        | other hc _ hother hrest =>
            obtain ⟨N, hfirst, hsecond⟩ := (htail _).1 hrest
            exact ⟨N, .other hc hcontrol hother hfirst, hsecond⟩
        | _ => cases hcontrol
      · rintro ⟨N, hfirst, hsecond⟩
        cases hfirst with
        | plain hc hrest => exact .plain hc ((htail _).2 ⟨N, hrest, hsecond⟩)
        | other hc _ hother hrest => exact .other hc hcontrol hother ((htail _).2 ⟨N, hrest, hsecond⟩)
        | _ => cases hcontrol

end Datapack.Command
