import Datapack.Optimize.Pass

/-!
# Schedules

A registry holds passes of distinct names in the order of their registration. The schedule for a level
takes the passes of that level, orders them so that each follows the ones it depends on, with the
earliest registered first where there is a choice, and groups them by phase.
-/

namespace Datapack.Optimize

open Config

abbrev Registry (σ : Type) := List (Pass σ)

inductive RegisterError where
  | unnamed
  | duplicate (name : String)

def RegisterError.message : RegisterError → String
  | unnamed => "pass without a name"
  | duplicate name => "duplicate pass name: " ++ name

def Registry.register {σ : Type} (r : Registry σ) (p : Pass σ) :
    Except RegisterError (Registry σ) :=
  if p.name = "" then .error .unnamed
  else if r.any (·.name = p.name) then .error (.duplicate p.name)
  else .ok (r ++ [p])

inductive ScheduleError where
  | unknown (pass dependency : String)
  | circular (passes : List String)

def ScheduleError.message : ScheduleError → String
  | unknown pass dependency => "unknown pass dependency: " ++ pass ++ " depends on " ++ dependency
  | circular passes => "circular pass dependency: " ++ ", ".intercalate passes

/-- A level-filtered, ordered list of passes. -/
structure Schedule (σ : Type) where
  passes : List (Pass σ) := []
  maxIterations : Nat

namespace Schedule

variable {σ : Type}

def names (s : Schedule σ) : List String := s.passes.map Pass.name

/-- The first dependency that is not registered at all. -/
def missing? (registered : List String) (selected : List PassInfo) : Option ScheduleError :=
  selected.findSome? fun i =>
    (i.dependsOn.find? (· ∉ registered)).map (.unknown i.name)

/-- The first pass that can be placed: not placed yet, and all its selected dependencies are. -/
def next? (selected : List PassInfo) (placed : List String) : Option PassInfo :=
  selected.find? fun i =>
    i.name ∉ placed
      && i.dependsOn.all fun d => d ∈ placed || !selected.any (·.name = d)

/-- Place passes one by one while one can be placed, at most `fuel` of them. `placed` holds the names
placed before. -/
def place (selected : List PassInfo) : Nat → List String → List PassInfo
  | 0, _ => []
  | fuel + 1, placed =>
    match next? selected placed with
    | none => []
    | some i => i :: place selected fuel (i.name :: placed)

def order (selected : List PassInfo) : Except ScheduleError (List PassInfo) :=
  let placed := place selected selected.length []
  if placed.length = selected.length then .ok placed
  else
    .error (.circular
      ((selected.map PassInfo.name).filter fun n => !placed.any (·.name = n)))

def build (r : Registry σ) (level : OptLevel) : Except ScheduleError (Schedule σ) :=
  let max := level.maxIterations
  if level = .o0 then .ok ⟨[], max⟩
  else
    let selected := r.filter fun p => p.info.level.rank ≤ level.rank
    match missing? (r.map Pass.name) (selected.map Pass.info) with
    | some e => .error e
    | none => do
      let sorted ← order (selected.map Pass.info)
      let passes := sorted.filterMap fun i => selected.find? (·.name = i.name)
      return ⟨Phase.order.flatMap fun ph => passes.filter (·.info.phase = ph), max⟩

end Schedule

end Datapack.Optimize
