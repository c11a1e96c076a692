import Datapack.Generation.Data

/-!
# Calls

A call copies its arguments into the slots of the parameters, runs the function and copies the returned
value. Objects are copied back after a method, so that its writes are visible to the caller. Builtin
functions become commands of their own.
-/

namespace Datapack.Generation

open Ir Command

def argumentFor (f : Function) (args : List Argument) (p : Parameter) :
    Gen (Option Reference) :=
  match args.find? (·.name = p.name) with
  | some a => return a.value
  | none =>
    match p.default with
    | some d => return some d
    | none =>
      throw (.failed ("missing argument " ++ Text.quoted p.name ++ " for " ++ f.name))

/-- Call a function with a body; the result is the body. -/
def callBody (result : Option Reference) (f : Function) (args : List Argument) : Gen Nat := do
  let body ← Gen.orFail ("function " ++ f.name ++ " has no body") ((← get).bodyOf? f)
  f.params.forM fun p => do
    let src ← operand (← argumentFor f args p)
    Gen.emitLowered (assign (Layout.paramSlot (← get) body p) src)
  Gen.emit [callRegion (← get) body]
  match result with
  | none => return body
  | some r =>
    if f.returnType = Ty.null then return body
    else do
      let dst ← destination (some r)
      Gen.emit (copy dst (Layout.returnSlot (← get) body f.returnType))
      return body

/-- Call a method and copy the objects it may have changed back. -/
def callMethod : Processor := fun ins => do
  let f ← Gen.orFail "CALL_METHOD without a method" ins.function?
  let body ← callBody ins.result f ins.arguments
  f.params.forM fun p =>
    match ins.arguments.find? (·.name = p.name) with
    | none => return ()
    | some a =>
      if p.type.isPrimitive || (varOf a.value).isNone then return ()
      else do
        let dst ← destination a.value
        Gen.emit (copy dst (Layout.paramSlot (← get) body p))

/-- The values of all arguments; a later argument of a name hides an earlier one. -/
def argumentValues (args : List Argument) : Gen Arguments :=
  args.foldlM
    (fun acc a => fun g =>
      match (operand a.value).run g with
      | (.ok o, g) => (.ok ((a.name, o) :: acc.filter (·.1 ≠ a.name)), g)
      | (.error e, g) =>
        (.error (.failed ("argument " ++ Text.quoted a.name ++ ": " ++ e.message)), g))
    []

def callLibraryFunction (ins : Instruction) (f : Function) : Gen Unit := do
  let args ← argumentValues ins.arguments
  let dst ← match ins.result with
    | none => pure Slot.nowhere
    | some r => destination (some r)
  Gen.emit (← callLibrary f.name dst args)

/-- Render a command template. Arguments it objects to are reported and produce no commands. -/
def renderTemplate (name : String) (args : Arguments) : Gen Unit := do
  let g ← get
  let renderer : Renderer :=
    ⟨builtinTemplates, g.ns, g.ns ++ ":macro", engineDirectory ++ "/template"⟩
  let args := args.map fun (p, o) =>
    match o with
    | .literal l => (p, TemplateArg.known (argumentForm l))
    | .slot s => (p, .runtime s)
  match renderer.render (g.newId (g.ids + 1)) name args with
  | .error (.invalid t objection) =>
    Gen.change (·.report (.templateInvalid name (TemplateError.invalid t objection).message))
  | .error e => throw (.template e)
  | .ok r =>
    match r.helper with
    | some (path, body) =>
      Gen.change fun g => { g.addHelper path body with ids := g.ids + 1 }
    | none => pure ()
    Gen.emit r.commands

/-- The part of a message that shows an operand; a literal of the pool is read from there. -/
def shown (g : Generation) : Command.Operand → Component
  | .slot s => .value s
  | .literal l =>
    match g.pool.lookup l with
    | some s => .value s
    | none => .text (argumentForm l)

def print (ins : Instruction) : Gen Unit := do
  let parts ← ins.arguments.mapM fun a => do
    let o ← operand a.value
    return shown (← get) o
  Gen.emit [.tell "@a" parts]

def templateBuiltins : List String := ["say", "give", "setblock", "tp"]

def callBuiltin (ins : Instruction) (f : Function) : Gen Unit := do
  if f.name = "print" then print ins
  else if f.name ∈ templateBuiltins then
    renderTemplate f.name (← argumentValues ins.arguments)
  else Gen.change (·.report (.unknownBuiltin f.name ins.loc))

def call : Processor := fun ins => do
  let f ← Gen.orFail "CALL without a function" ins.function?
  match f.kind with
  | .builtin => callBuiltin ins f
  | .library => callLibraryFunction ins f
  | _ => discard (callBody ins.result f ins.arguments)

end Datapack.Generation
