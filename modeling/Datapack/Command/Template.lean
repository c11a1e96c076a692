import Datapack.Command.Arithmetic

/-!
# Command templates

A template is a command with placeholders for its parameters. When every argument is known it is
rendered in place; otherwise the arguments are put into a compound and a macro function, made once per
template, fills the placeholders when it runs.
-/

namespace Datapack.Command

open Ir Text

inductive Piece where
  | char (c : Char)
  | placeholder (name : String)
  deriving DecidableEq

def isNameStart (c : Char) : Bool := ('a' ≤ c && c ≤ 'z') || c = '_'

def isNameChar (c : Char) : Bool := isNameStart c || c.isDigit

/-- The name of a placeholder whose opening has been read, and what follows its closing bracket. -/
def placeholder? (cs : List Char) : Option (String × List Char) :=
  match cs with
  | [] => none
  | c :: _ =>
    if isNameStart c then
      match cs.dropWhile isNameChar with
      | ')' :: rest => some (String.ofList (cs.takeWhile isNameChar), rest)
      | _ => none
    else none

theorem placeholder?_length {cs rest : List Char} {name : String}
    (h : placeholder? cs = some (name, rest)) : rest.length < cs.length := by
  unfold placeholder? at h
  have le : (cs.dropWhile isNameChar).length ≤ cs.length :=
    (List.dropWhile_suffix isNameChar).length_le
  split at h
  · cases h
  · split at h
    · split at h
      · rename_i tail eq
        rw [eq] at le
        cases h
        simp only [List.length_cons] at le ⊢
        omega
      · cases h
    · cases h

/-- The pieces of a template, leftmost placeholders first. -/
def pieces : List Char → List Piece
  | [] => []
  | [c] => [.char c]
  | a :: b :: rest =>
    if a = '$' ∧ b = '(' then
      match h : placeholder? rest with
      | some (name, rest') =>
        have := placeholder?_length h
        .placeholder name :: pieces rest'
      | none => .char a :: pieces (b :: rest)
    else .char a :: pieces (b :: rest)
termination_by cs => cs.length

structure Template where
  name : String
  line : String
  required : List String
  /-- The optional parameters with their defaults, in the order of their names. -/
  defaults : List (String × String) := []
  /-- A condition on the arguments known so far; the result is what is wrong with them. -/
  objection : List (String × String) → Option String := fun _ => none

namespace Template

/-- The parameters: the required ones, then the optional ones. -/
def params (t : Template) : List String := t.required ++ t.defaults.map Prod.fst

def placeholders (t : Template) : List String :=
  (pieces t.line.toList).filterMap fun p =>
    match p with
    | .placeholder name => some name
    | .char _ => none

/-- The command with every placeholder replaced; one without a value vanishes. -/
def substitute (t : Template) (values : List (String × String)) : String :=
  String.ofList ((pieces t.line.toList).flatMap fun p =>
    match p with
    | .char c => [c]
    | .placeholder name => ((values.lookup name).getD "").toList)

end Template

inductive TemplateError where
  | undeclared (template param : String)
  | duplicate (template : String)
  | unknown (template : String)
  | unknownParam (template param : String)
  | missingParam (template param : String)
  | invalid (template objection : String)

def TemplateError.message : TemplateError → String
  | undeclared t p => "unknown template parameter: " ++ t ++ " uses undeclared $(" ++ p ++ ")"
  | duplicate t => "duplicate template: " ++ t
  | unknown t => "unknown template: " ++ t
  | unknownParam t p => "unknown template parameter: " ++ t ++ " has no parameter " ++ quoted p
  | missingParam t p => "missing template parameter: " ++ t ++ " needs " ++ quoted p
  | invalid t objection => "template validation failed: " ++ t ++ ": " ++ objection

abbrev Templates := List Template

/-- Add a template all of whose placeholders are parameters. -/
def Templates.register (ts : Templates) (t : Template) : Except TemplateError Templates :=
  match t.placeholders.find? (· ∉ t.params) with
  | some p => .error (.undeclared t.name p)
  | none => if ts.any (·.name = t.name) then .error (.duplicate t.name) else .ok (ts ++ [t])

/-- Blanks that may stand before a number; line breaks are none. -/
def isBlank (c : Char) : Bool :=
  let n := c.toNat
  (0x9 ≤ n && n ≤ 0xd && n ≠ 0xa) || n = 0x20 || n = 0x85 || n = 0xa0 || n = 0x1680
    || (0x2000 ≤ n && n ≤ 0x200a) || n = 0x2028 || n = 0x2029 || n = 0x202f || n = 0x205f
    || n = 0x3000

/-- The integer at the start of a text, behind blanks and with an optional sign. What follows the digits
does not count. -/
def leadingInt? (s : String) : Option Int :=
  let (negative, cs) :=
    match s.toList.dropWhile isBlank with
    | '-' :: cs => (true, cs)
    | '+' :: cs => (false, cs)
    | cs => (false, cs)
  match cs.takeWhile Char.isDigit with
  | [] => none
  | ds =>
    let n : Int := ds.foldl (fun n c => n * 10 + (c.toNat - '0'.toNat)) 0
    some (if negative then -n else n)

/-- A stack has at least one item and at most a hundred times sixty-four. -/
def countObjection (known : List (String × String)) : Option String :=
  match known.lookup "count" with
  | none => none
  | some c =>
    let fine := match leadingInt? c with
      | some n => 1 ≤ n && n ≤ 6400
      | none => false
    if fine then none else some ("count must be between 1 and 6400, got " ++ quoted c)

def builtinTemplates : Templates :=
  [{ name := "say", line := "say $(message)", required := ["message"] },
    { name := "give", line := "give $(target) $(item) $(count)", required := ["target", "item"],
      defaults := [("count", "1")], objection := countObjection },
    { name := "setblock", line := "setblock $(x) $(y) $(z) $(block)",
      required := ["x", "y", "z", "block"] },
    { name := "tp", line := "tp $(target) $(x) $(y) $(z)", required := ["target", "x", "y", "z"] }]

inductive TemplateArg where
  | known (text : String)
  | runtime (s : Slot)
  deriving DecidableEq

def TemplateArg.text? : TemplateArg → Option String
  | known text => some text
  | runtime _ => none

/-- The commands of a template and the macro function they need. -/
structure Rendering where
  commands : List Command
  helper : Option (String × List Command) := none

structure Renderer where
  templates : Templates
  ns : String
  /-- The storage of the argument compounds. -/
  storage : String
  /-- The directory of the macro functions. -/
  directory : String

namespace Renderer

/-- The arguments of all parameters, defaults filled in. -/
def bind (t : Template) (args : List (String × TemplateArg)) :
    List String → Except TemplateError (List (String × TemplateArg))
  | [] => .ok []
  | p :: ps =>
    match args.lookup p with
    | some a => (bind t args ps).map ((p, a) :: ·)
    | none =>
      match t.defaults.lookup p with
      | some d => (bind t args ps).map ((p, .known d) :: ·)
      | none => .error (.missingParam t.name p)

/-- Put an argument into its place in the compound. -/
def stage (root : Slot) (arg : String × TemplateArg) : List Command :=
  match arg.2 with
  | .known text => [.setData (root.child arg.1) (.str text)]
  | .runtime s => copy (root.child arg.1) s

/-- The commands that fill a compound, run the macro function on it and remove it. -/
def viaMacro (r : Renderer) (t : Template) (id : String) (bound : List (String × TemplateArg)) :
    Rendering :=
  let root := Slot.storage r.storage ("args." ++ id)
  let path := r.directory ++ "/" ++ t.name
  { commands := bound.flatMap (stage root)
      ++ [.callWith (r.ns ++ ":" ++ path) root, .removeData root]
    helper := some (path, [.template t.line]) }

/-- Render a template. The identifier names the compound, if one is needed. -/
def render (r : Renderer) (id name : String) (args : List (String × TemplateArg)) :
    Except TemplateError Rendering :=
  match r.templates.find? (·.name = name) with
  | none => .error (.unknown name)
  | some t =>
    match args.find? (·.1 ∉ t.params) with
    | some (p, _) => .error (.unknownParam name p)
    | none => do
      let bound ← bind t args t.params
      let known := bound.filterMap fun (p, a) => a.text?.map (p, ·)
      match t.objection known with
      | some objection => .error (.invalid name objection)
      | none =>
        if bound.all (·.2.text?.isSome) then
          return { commands := [.line (t.substitute known)] }
        else return r.viaMacro t id bound

end Renderer

end Datapack.Command
