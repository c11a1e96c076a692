import Datapack.Dependency.HostAddress

/-!
# Addresses

Reading the address of an archive and writing it in the form in which it is requested: the scheme in
lower case, a colon behind the host left out when no number follows it, and every byte that may not stand
where it stands as a percent sign with two digits. `Url.parse?` refuses texts that are no address.
-/

namespace Datapack.Dependency

inductive UrlPart where
  | host | zone | user | path | fragment
  deriving DecidableEq, Repr

namespace UrlPart

def isOneOf (b : UInt8) (chars : String) : Bool :=
  b < 0x80 && chars.toList.contains (Char.ofNat b.toNat)

def isAlphanumeric (b : UInt8) : Bool := b < 0x80 && (Char.ofNat b.toNat).isAlphanum

/-- Whether a byte stands for itself in a part of an address. -/
def allows (part : UrlPart) (b : UInt8) : Bool :=
  isAlphanumeric b || isOneOf b "-_.~" ||
    match part with
    | host | zone => isOneOf b "!$&'()*+,;=:[]<>\""
    | user => isOneOf b "$&+,;="
    | path => isOneOf b "$&+,/:;=@"
    | fragment => isOneOf b "$&+,/:;=?@!()*"

/-- Whether a byte may stand for itself in a text that is kept as it was given. -/
def tolerates (part : UrlPart) (b : UInt8) : Bool :=
  part.allows b || isOneOf b "!$&'()*+,;=:@[]%"

end UrlPart

open UrlPart (isOneOf isAlphanumeric)

/-- The upper-case hexadecimal digit of a number below sixteen. -/
def hexDigit (n : UInt8) : UInt8 := if n < 10 then n + 0x30 else n - 10 + 0x41

def escape (part : UrlPart) (bs : List UInt8) : List UInt8 :=
  bs.flatMap fun b => if part.allows b then [b] else [0x25, hexDigit (b / 16), hexDigit (b % 16)]

/-- Whether an escaped byte is accepted. In a host an escape stands for a percent sign or a byte outside
ASCII, in a zone also for a space or what a host may hold. -/
def acceptsEscaped (part : UrlPart) (b : UInt8) : Bool :=
  match part with
  | .host => 0x80 ≤ b || b = 0x25
  | .zone => b = 0x25 || b = 0x20 || UrlPart.host.allows b
  | _ => true

/-- Whether a byte that is not escaped is accepted. -/
def acceptsPlain (part : UrlPart) (b : UInt8) : Bool :=
  match part with
  | .host | .zone => 0x80 ≤ b || part.allows b
  | _ => true

def unescape? (part : UrlPart) : List UInt8 → Option (List UInt8)
  | [] => some []
  | 0x25 :: h :: l :: rest => do
    let b := (← digitValue? h) * 16 + (← digitValue? l)
    if acceptsEscaped part b then (b :: ·) <$> unescape? part rest else none
  | b :: rest =>
    if b ≠ 0x25 && acceptsPlain part b then (b :: ·) <$> unescape? part rest else none

/-- Whether a text may be kept as it was given. -/
def isTolerated (part : UrlPart) (bs : List UInt8) : Bool := bs.all part.tolerates

/-- A part in its escaped form: as it was given if it may be kept, else escaped anew. -/
def normalForm (part : UrlPart) (given plain : List UInt8) : List UInt8 :=
  if isTolerated part given then given else escape part plain

/-- A path in its escaped form. A path that is just an asterisk stays one. -/
def pathForm (given plain : List UInt8) : List UInt8 :=
  if plain = [0x2a] && given = escape .path plain then plain else normalForm .path given plain

/-- What stands before and behind the first byte of a kind; without one the second part is missing. -/
def cut (sep : UInt8) (bs : List UInt8) : List UInt8 × Option (List UInt8) :=
  match bs.span (· ≠ sep) with
  | (front, _ :: back) => (front, some back)
  | (front, []) => (front, none)

/-- What stands before and behind the last byte of a kind. -/
def cutLast? (sep : UInt8) (bs : List UInt8) : Option (List UInt8 × List UInt8) :=
  match bs.reverse.span (· ≠ sep) with
  | (back, _ :: front) => some (front.reverse, back.reverse)
  | (_, []) => none

/-- A user name with a password that may be missing. -/
structure UserInfo where
  name : List UInt8
  password : Option (List UInt8)
  deriving DecidableEq

structure Url where
  scheme : List UInt8 := []
  /-- What follows the scheme of an address that does not start with a slash. -/
  opaquePart : Option (List UInt8) := none
  user : Option UserInfo := none
  /-- The host with the number behind it, without escapes. -/
  host : List UInt8 := []
  /-- The path in its escaped form. -/
  path : List UInt8 := []
  /-- The address has a scheme and no authority. -/
  rootedOnly : Bool := false
  /-- What follows the question mark. -/
  query : Option (List UInt8) := none
  /-- What follows the hash sign, in its escaped form; empty when there is nothing. -/
  fragment : List UInt8 := []
  deriving DecidableEq

namespace Url

/-- The scheme of an address and what follows it. A text that starts with a colon is no address. -/
def scheme? (bs : List UInt8) : Option (List UInt8 × List UInt8) :=
  match bs.span fun b => isAlphanumeric b || isOneOf b "+-." with
  | ([], 0x3a :: _) => none
  | (c :: cs, 0x3a :: rest) =>
    some (if (Char.ofNat c.toNat).isAlpha then (c :: cs, rest) else ([], bs))
  | _ => some ([], bs)

/-- Whether a text is empty or a colon with digits behind it. -/
def isNumberSuffix (bs : List UInt8) : Bool :=
  match bs with
  | [] => true
  | c :: digits => c = 0x3a && digits.all fun b => 0x30 ≤ b && b ≤ 0x39

/-- What stands before the first escaped percent sign, and the rest from there on. -/
def cutZone (bs : List UInt8) : List UInt8 × List UInt8 :=
  match bs with
  | [] => ([], [])
  | b :: rest =>
    if [0x25, 0x32, 0x35].isPrefixOf bs then ([], bs)
    else
      let (front, back) := cutZone rest
      (b :: front, back)

/-- The bytes that a numeric host with a zone stands for. -/
def unescapeGrouped? (bs : List UInt8) : Option (List UInt8) := do
  let (groups, zone) := cutZone bs
  return (← unescape? .host groups) ++ (← unescape? .zone zone)

/-- The host of an authority. A numeric one stands in brackets, and nothing may stand before them. -/
def host? (bs : List UInt8) : Option (List UInt8) :=
  if bs.head? = some 0x5b then do
    let (inside, number) ← cutLast? 0x5d bs.tail
    if inside.contains 0x5b || !isNumberSuffix number then none
    let host ← unescapeGrouped? inside
    if isGroupedAddress host then return 0x5b :: host ++ 0x5d :: number else none
  else if bs.contains 0x5b then none
  else
    match cutLast? 0x3a bs with
    | some (_, number) => if isNumberSuffix (0x3a :: number) then unescape? .host bs else none
    | none => unescape? .host bs

/-- Whether a byte may stand in a user name or password, escaped or not. -/
def isUserByte (b : UInt8) : Bool :=
  isAlphanumeric b || isOneOf b "-._:~!$&'()*+,;=%@"

def user? (bs : List UInt8) : Option UserInfo :=
  if !bs.all isUserByte then none
  else
    match cut 0x3a bs with
    | (name, none) => return ⟨← unescape? .user name, none⟩
    | (name, some password) => return ⟨← unescape? .user name, some (← unescape? .user password)⟩

def withoutBareColon (host : List UInt8) : List UInt8 :=
  if host.getLast? = some 0x3a then host.dropLast else host

/-- Read what follows a double slash into an address: the user, the host and what is left. -/
def authority? (u : Url) (bs : List UInt8) : Option (Url × List UInt8) :=
  let (authority, rest) := bs.span (· ≠ 0x2f)
  match cutLast? 0x40 authority with
  | none => return ({ u with host := withoutBareColon (← host? authority) }, rest)
  | some (user, host) => do
    let host ← host? host
    return ({ u with host := withoutBareColon host, user := some (← user? user) }, rest)

/-- Whether a colon stands in the first part of a path. -/
def startsWithColonPart (bs : List UInt8) : Bool := (bs.takeWhile (· ≠ 0x2f)).contains 0x3a

/-- Read everything in front of the fragment. -/
def parseMain? (bs : List UInt8) : Option Url := do
  let (scheme, rest) ← scheme? bs
  let (rest, query) := cut 0x3f rest
  let u : Url :=
    { scheme := scheme.map fun b => if 0x41 ≤ b && b ≤ 0x5a then b + 0x20 else b
      query := query }
  if rest.head? ≠ some 0x2f && !scheme.isEmpty then return { u with opaquePart := some rest }
  if rest.head? ≠ some 0x2f && startsWithColonPart rest then none
  let (u, rest) ←
    if [0x2f, 0x2f].isPrefixOf rest
        && (!scheme.isEmpty || !([0x2f, 0x2f, 0x2f].isPrefixOf rest)) then
      u.authority? (rest.drop 2)
    else some ({ u with rootedOnly := !scheme.isEmpty }, rest)
  return { u with path := pathForm rest (← unescape? .path rest) }

def parse? (s : String) : Option Url := do
  let (front, fragment) := cut 0x23 (Text.bytes s)
  if front.any fun b => b < 0x20 || b = 0x7f then none
  let u ← parseMain? front
  match fragment with
  | none => return u
  | some f => return { u with fragment := normalForm .fragment f (← unescape? .fragment f) }

def userText (u : UserInfo) : List UInt8 :=
  escape .user u.name ++ match u.password with
    | some p => 0x3a :: escape .user p
    | none => []

/-- Whether nothing stands between the scheme and the path. -/
def isBare (u : Url) : Bool := u.rootedOnly && u.host.isEmpty && u.user.isNone

/-- The scheme and the authority of an address whose user is written as given. -/
def front (u : Url) (user : UserInfo → List UInt8) : List UInt8 :=
  let scheme := if u.scheme.isEmpty then [] else u.scheme ++ [0x3a]
  let named := !u.scheme.isEmpty || !u.host.isEmpty || u.user.isSome
  if !named || u.isBare then scheme
  else
    scheme
      ++ (if !u.host.isEmpty || !u.path.isEmpty || u.user.isSome then [0x2f, 0x2f] else [])
      ++ (match u.user with
        | some info => user info ++ [0x40]
        | none => [])
      ++ escape .host u.host

/-- The path as it is written behind the authority. Without an authority the first of two slashes is
escaped, so that no authority can be read into the path. -/
def pathText (u : Url) : List UInt8 :=
  if u.isBare && [0x2f, 0x2f].isPrefixOf u.path then [0x25, 0x32, 0x46] ++ u.path.drop 1
  else if !u.path.isEmpty && u.path.head? ≠ some 0x2f && !u.host.isEmpty then 0x2f :: u.path
  else u.path

/-- The bytes of an address whose user is written as given. -/
def bytesWith (u : Url) (user : UserInfo → List UInt8) : List UInt8 :=
  (match u.opaquePart with
    | some rest => u.scheme ++ 0x3a :: rest
    | none =>
      let front := u.front user
      front ++ (if front.isEmpty && startsWithColonPart u.path then [0x2e, 0x2f] else [])
        ++ u.pathText)
    ++ (match u.query with
      | some q => 0x3f :: q
      | none => [])
    ++ if u.fragment.isEmpty then [] else 0x23 :: u.fragment

def text (u : Url) : String := Text.ofBytes (u.bytesWith userText)

/-- The bytes of an address without its password. The user name is not escaped beside a hidden
password, so they need not be a text. -/
def redacted (u : Url) : List UInt8 :=
  u.bytesWith fun info =>
    if info.password.isSome then info.name ++ Text.bytes ":***" else userText info

end Url

end Datapack.Dependency
