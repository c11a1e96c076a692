import Datapack.Generation.Layout

/-!
# Control flow

Regions are functions, so a jump is a call, and a jump to a region around is a call in tail position.
An exit from nested regions raises a flag and returns; every frame on the way checks the flags of the
regions it calls, until the frame at which the exit ends lowers the flag.
-/

namespace Datapack.Generation

open Ir Command

def callRegion (g : Generation) (n : Nat) : Command := .call (g.regions.functionRef g.ns n)

def ifRaised (flag : Slot) (c : Command) : Command := .guarded .holds flag (.exactly 1) c

/-- Open a region. -/
def scopeBegin : Processor := fun _ => Gen.change fun g => g.push (g.regionAt g.index)

/-- Close a region. -/
def scopeEnd : Processor := fun _ => Gen.pop

/-- The exit of a flag, registered on first use. -/
def exitFor (kind : ExitKind) (flag : String) (consumer : Nat) : Gen Exit := do
  match (← get).exits.lookup flag with
  | some e => return e
  | none =>
    let e : Exit := ⟨kind, consumer⟩
    Gen.change fun g => { g with exits := g.exits ++ [(flag, e)] }
    return e

/-- Raise the flag of an exit, leave the frame, and mark every frame up to where the exit ends. -/
def raise (kind : ExitKind) (flag : String) (consumer : Nat) : Gen Unit := do
  let e ← exitFor kind flag consumer
  Gen.emit [.setScore (Layout.flag (← get) flag) 1, .ret 0]
  Gen.change fun g =>
    let frames := (g.regions.ancestors g.current).takeWhile (· ≠ e.consumer)
    { g with regions := frames.foldl (fun rs n => rs.update n (·.mark flag)) g.regions }

/-- Check one flag after a call from the innermost region. -/
def checkFlag (flag : String) (e : Exit) : Gen (List Command) := do
  let g ← get
  let slot := Layout.flag g flag
  if e.consumer ≠ g.current then return [ifRaised slot (.ret 0)]
  else
    match e.kind with
    | .breakLoop => return [.setScore slot 0]
    | .returnFunction => return [ifRaised slot (.returnRun (.setScore slot 0))]
    | .continueLoop =>
      match g.regions.parent? g.current with
      | none => return []
      | some check =>
        if check ∉ g.resets then
          Gen.change fun g =>
            { g with
              regions := g.regions.update check (·.prepend [.setScore slot 0])
              resets := check :: g.resets }
        return [ifRaised slot (.returnRun (callRegion g check))]

/-- The exits a call of a region may leave raised, in the order of their flags. -/
def owedChecks (g : Generation) (n : Nat) : List (String × Exit) :=
  ((g.regions.at? n).flags.mergeSort textLe).filterMap fun flag =>
    (g.exits.lookup flag).map (flag, ·)

/-- The flag checks owed after a call of a region. -/
def afterCall (n : Nat) : Gen (List Command) := do
  let checks ← (owedChecks (← get) n).mapM fun (flag, e) => checkFlag flag e
  return checks.flatten

def regionNamed (name : String) : Gen Nat := do
  Gen.orFail ("unknown scope " ++ Text.quoted name) ((← get).resolve name)

def jumpTo (name : String) : Gen Unit := do
  let n ← regionNamed name
  let g ← get
  if g.regions.isAncestor n g.current then Gen.emit [.returnRun (callRegion g n)]
  else
    Gen.emit [callRegion g n]
    Gen.emit (← afterCall n)

def jump : Processor := fun ins => jumpTo ins.jumpTarget

/-- Call the region of a branch under a condition on a flag. An empty name is no branch. -/
def branchTo (flag : Slot) (p : Polarity) (name : String) : Gen (List Nat) :=
  if name = "" then return []
  else do
    let n ← regionNamed name
    Gen.emit [.guarded p flag (.exactly 0) (callRegion (← get) n)]
    return [n]

/-- Jump on a condition. The condition is saved when it is no score or tested twice. -/
def condJump : Processor := fun ins => do
  match ← operand ins.condition with
  | .literal l =>
    let name := if l.truthy?.getD false then ins.onTrue else ins.onFalse
    if name = "" then return () else jumpTo name
  | .slot s =>
    let flag ←
      if s.space ≠ .score || (ins.onTrue ≠ "" && ins.onFalse ≠ "") then do
        let saved := Slot.score (← Gen.freshName "$c") (← get).ns
        Gen.emit (copy saved s)
        pure saved
      else pure s
    let onTrue ← branchTo flag .fails ins.onTrue
    let onFalse ← branchTo flag .holds ins.onFalse
    (onTrue ++ onFalse).forM fun n => do Gen.emit (← afterCall n)

/-- The loop an exit names, or the innermost one. -/
def loopOf (name : String) : Gen Nat := do
  let g ← get
  let named := (if name = "" then none else g.resolve name).filter fun n =>
    (g.regions.at? n).kind = .loop
  match named with
  | some n => return n
  | none =>
    Gen.orFail (Text.quoted name ++ " is not an enclosing loop")
      (g.regions.enclosing g.current [.loop])

def breakLoop : Processor := fun ins => do
  let loop ← loopOf ins.jumpTarget
  raise .breakLoop ("$break." ++ holder ((← get).regions.absolutePath loop)) loop

def bodyOfLoop? (g : Generation) (loop : Nat) : Option Nat :=
  ((g.regions.ancestors g.current).takeWhile (· ≠ loop)).find? fun n =>
    (g.regions.at? n).kind = .loopBody
      && ((g.regions.parent? n).bind fun p => g.regions.enclosing p [.loop]) = some loop

def continueLoop : Processor := fun ins => do
  let loop ← loopOf ins.jumpTarget
  let g ← get
  let missing := "continue outside the body of " ++ Text.quoted (g.regions.at? loop).name
  let body ← Gen.orFail missing (bodyOfLoop? g loop)
  let check ← Gen.orFail missing (g.regions.parent? body)
  if g.current = body then Gen.emit [.returnRun (callRegion g check)]
  else raise .continueLoop ("$continue." ++ holder (g.regions.absolutePath body)) body

def storeReturn (body : Nat) (value : Option Reference) : Gen Unit :=
  match value with
  | none => return ()
  | some r => do
    let g ← get
    let f ← Gen.orFail
      ("function scope " ++ Text.quoted (g.regions.at? body).name ++ " has no definition")
      (g.ownerOf? body)
    let src ← operand (some r)
    Gen.emitLowered (assign (Layout.returnSlot g body f.returnType) src)

def ret : Processor := fun ins => do
  let g ← get
  match g.regions.enclosing g.current [.function] with
  | none => Gen.emit [.ret 0]
  | some body =>
    storeReturn body (ins.refAt 0)
    if g.current = body then Gen.emit [.ret 0]
    else raise .returnFunction ("$return." ++ holder (g.regions.absolutePath body)) body

/-- Note the lifecycle hooks of a defined function. -/
def functionDef : Processor := fun ins => do
  match ins.function? with
  | none => return ()
  | some f =>
    let g ← get
    match g.bodyOf? f with
    | none => return ()
    | some body =>
      let ref := g.regions.functionRef g.ns body
      Gen.change fun g =>
        { g with
          onLoad := if f.hasAnnotation "load" then g.onLoad ++ [ref] else g.onLoad
          onTick := if f.hasAnnotation "tick" then g.onTick ++ [ref] else g.onTick }

end Datapack.Generation
