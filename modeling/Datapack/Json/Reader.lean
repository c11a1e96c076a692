/-!
# Reading JSON

A value read from a text keeps the spelling it had there: numbers stay decimal text, and strings,
arrays and objects carry the characters they were read from, so that a message can show them as
they were written. Objects keep every field in the order of the text, repeated names included.

`Json.first? text` reads the first JSON value of a text and ignores whatever follows it. Reading is
strict: numbers and strings follow the standard grammar exactly, and containers nest at most
`maxDepth` deep. A surrogate escape without its partner reads as the replacement character.
-/

namespace Datapack

/-- A JSON value together with its spelling in the text it was read from. -/
inductive Json where
  | null
  | bool (value : Bool)
  | number (text : String)
  | string (value : String) (source : String)
  | array (items : List Json) (source : String)
  | object (fields : List (String × Json)) (source : String)
  deriving Inhabited

namespace Json

/-- The characters a value was read from, without surrounding blanks. -/
def source : Json → String
  | null => "null"
  | bool true => "true"
  | bool false => "false"
  | number text => text
  | string _ src => src
  | array _ src => src
  | object _ src => src

def isNull : Json → Bool
  | null => true
  | _ => false

end Json

end Datapack

namespace Datapack.Json

def maxDepth : Nat := 10000

/-- The unread part of a text and the number of characters read so far. -/
structure Input where
  rest : List Char
  pos : Nat

namespace Input

/-- The characters between an earlier and a later position of one text. -/
def upTo (start stop : Input) : String :=
  String.ofList (start.rest.take (stop.pos - start.pos))

def drop (s : Input) (n : Nat) : Input :=
  ⟨s.rest.drop n, s.pos + n⟩

end Input

/-- The four characters JSON allows between tokens. -/
def isBlank (c : Char) : Bool :=
  c = ' ' || c = '\t' || c = '\n' || c = '\r'

def skipBlanks (s : Input) : Input :=
  s.drop (s.rest.takeWhile isBlank).length

def hexDigit? (c : Char) : Option Nat :=
  let n := c.toNat
  if '0'.toNat ≤ n && n ≤ '9'.toNat then some (n - '0'.toNat)
  else if 'a'.toNat ≤ n && n ≤ 'f'.toNat then some (n - 'a'.toNat + 10)
  else if 'A'.toNat ≤ n && n ≤ 'F'.toNat then some (n - 'A'.toNat + 10)
  else none

def hex4? (a b c d : Char) : Option Nat := do
  let a ← hexDigit? a
  let b ← hexDigit? b
  let c ← hexDigit? c
  let d ← hexDigit? d
  return ((a * 16 + b) * 16 + c) * 16 + d

/-- Whether a code unit is the first half of a surrogate pair. -/
def isHighSurrogate (n : Nat) : Bool := 0xd800 ≤ n && n < 0xdc00

/-- Whether a code unit is the second half of a surrogate pair. -/
def isLowSurrogate (n : Nat) : Bool := 0xdc00 ≤ n && n < 0xe000

/-- Stands for a surrogate without its partner. -/
def replacement : Char := Char.ofNat 0xfffd

/-- The character of a code unit that is not part of a surrogate pair. -/
def unitChar (n : Nat) : Char :=
  if isHighSurrogate n || isLowSurrogate n then replacement else Char.ofNat n

def pairChar (hi lo : Nat) : Char :=
  Char.ofNat (0x10000 + (hi - 0xd800) * 0x400 + (lo - 0xdc00))

/-- What a one-character escape stands for. -/
def shortEscape? (c : Char) : Option Char :=
  if c = '"' then some '"'
  else if c = '\\' then some '\\'
  else if c = '/' then some '/'
  else if c = 'b' then some (Char.ofNat 0x08)
  else if c = 'f' then some (Char.ofNat 0x0c)
  else if c = 'n' then some (Char.ofNat 0x0a)
  else if c = 'r' then some (Char.ofNat 0x0d)
  else if c = 't' then some (Char.ofNat 0x09)
  else none

/-- One item of a string: a character, or a code unit given by its four digits. -/
inductive StringItem where
  | char (c : Char)
  | unit (n : Nat)

/-- The characters of a string: code units that form a surrogate pair make one character. -/
def joinItems : List StringItem → List Char
  | [] => []
  | .char c :: items => c :: joinItems items
  | .unit hi :: .unit lo :: items =>
    if isHighSurrogate hi && isLowSurrogate lo then pairChar hi lo :: joinItems items
    else unitChar hi :: joinItems (.unit lo :: items)
  | .unit n :: items => unitChar n :: joinItems items

/-- The part of a string after its opening quote: its items in reverse, and the input behind the
closing quote. -/
def stringBody : List Char → Nat → List StringItem → Option (List StringItem × Input)
  | [], _, _ => none
  | '"' :: rest, pos, acc => some (acc, ⟨rest, pos + 1⟩)
  | '\\' :: 'u' :: a :: b :: c :: d :: rest, pos, acc =>
    match hex4? a b c d with
    | some n => stringBody rest (pos + 6) (.unit n :: acc)
    | none => none
  | '\\' :: c :: rest, pos, acc =>
    match shortEscape? c with
    | some e => stringBody rest (pos + 2) (.char e :: acc)
    | none => none
  | c :: rest, pos, acc =>
    if c.toNat < 0x20 || c = '\\' then none else stringBody rest (pos + 1) (.char c :: acc)

/-- Read a string whose opening quote is the next character. -/
def string? (s : Input) : Option (String × Input) :=
  match s.rest with
  | '"' :: rest =>
    (stringBody rest (s.pos + 1) []).map fun (acc, s') =>
      (String.ofList (joinItems acc.reverse), s')
  | _ => none

/-- The number of characters of a run of at least one digit. -/
def digitRun? (cs : List Char) : Option Nat :=
  let n := (cs.takeWhile Char.isDigit).length
  if n = 0 then none else some n

/-- The length of the fraction at the front of `cs`, zero when there is none. -/
def fractionLength? : List Char → Option Nat
  | '.' :: cs => (digitRun? cs).map (· + 1)
  | _ => some 0

/-- The length of the exponent at the front of `cs`, zero when there is none. -/
def exponentLength? : List Char → Option Nat
  | c :: cs =>
    if c = 'e' || c = 'E' then
      match cs with
      | '+' :: cs => (digitRun? cs).map (· + 2)
      | '-' :: cs => (digitRun? cs).map (· + 2)
      | cs => (digitRun? cs).map (· + 1)
    else some 0
  | [] => some 0

/-- The length of the integer part at the front of `cs`: a zero, or digits that start otherwise. -/
def integerLength? : List Char → Option Nat
  | '0' :: _ => some 1
  | cs => digitRun? cs

def numberLength? (cs : List Char) : Option Nat := do
  let sign := match cs with
    | '-' :: _ => 1
    | _ => 0
  let cs := cs.drop sign
  let int ← integerLength? cs
  let cs := cs.drop int
  let frac ← fractionLength? cs
  let exp ← exponentLength? (cs.drop frac)
  return sign + int + frac + exp

def number? (s : Input) : Option (Json × Input) :=
  (numberLength? s.rest).map fun n => (number (s.upTo (s.drop n)), s.drop n)

/-- Read one fixed word. -/
def word? (word : String) (v : Json) (s : Input) : Option (Json × Input) :=
  if word.toList.isPrefixOf s.rest then some (v, s.drop word.length) else none

mutual

/-- Read one value at the front of the input; `depth` containers are open around it. -/
def value? : Nat → Nat → Input → Option (Json × Input)
  | 0, _, _ => none
  | fuel + 1, depth, s =>
    match s.rest with
    | '{' :: _ =>
      if depth < maxDepth then
        let s' := skipBlanks (s.drop 1)
        match s'.rest with
        | '}' :: _ =>
          let stop := s'.drop 1
          some (object [] (s.upTo stop), stop)
        | _ => (members? fuel (depth + 1) s' []).map fun (fields, stop) =>
          (object fields.reverse (s.upTo stop), stop)
      else none
    | '[' :: _ =>
      if depth < maxDepth then
        let s' := skipBlanks (s.drop 1)
        match s'.rest with
        | ']' :: _ =>
          let stop := s'.drop 1
          some (array [] (s.upTo stop), stop)
        | _ => (elements? fuel (depth + 1) s' []).map fun (items, stop) =>
          (array items.reverse (s.upTo stop), stop)
      else none
    | '"' :: _ => (string? s).map fun (v, stop) => (string v (s.upTo stop), stop)
    | 't' :: _ => word? "true" (bool true) s
    | 'f' :: _ => word? "false" (bool false) s
    | 'n' :: _ => word? "null" null s
    | _ => number? s

/-- Read the elements of an array up to its closing bracket, adding them to `acc` in reverse. -/
def elements? : Nat → Nat → Input → List Json → Option (List Json × Input)
  | 0, _, _, _ => none
  | fuel + 1, depth, s, acc => do
    let (v, s) ← value? fuel depth s
    let s := skipBlanks s
    match s.rest with
    | ',' :: _ => elements? fuel depth (skipBlanks (s.drop 1)) (v :: acc)
    | ']' :: _ => some (v :: acc, s.drop 1)
    | _ => none

/-- Read the fields of an object up to its closing brace, adding them to `acc` in reverse. -/
def members? : Nat → Nat → Input → List (String × Json) → Option (List (String × Json) × Input)
  | 0, _, _, _ => none
  | fuel + 1, depth, s, acc => do
    let (key, s) ← string? s
    let s := skipBlanks s
    match s.rest with
    | ':' :: _ => do
      let (v, s) ← value? fuel depth (skipBlanks (s.drop 1))
      let s := skipBlanks s
      match s.rest with
      | ',' :: _ => members? fuel depth (skipBlanks (s.drop 1)) ((key, v) :: acc)
      | '}' :: _ => some ((key, v) :: acc, s.drop 1)
      | _ => none
    | _ => none

end

/-- The first value of a text; what follows it is ignored. Every step reads a character, so twice
the length of the text bounds the work. -/
def first? (text : String) : Option Json :=
  let cs := text.toList
  (value? (2 * cs.length + 2) 0 (skipBlanks ⟨cs, 0⟩)).map (·.1)

end Datapack.Json
