import Datapack.Text.Hash

/-!
# Numeric hosts

The host of an address may be given in brackets as eight groups of hexadecimal digits, of which one run
may be left out as a double colon. The last two groups may be given as four decimal numbers, and a percent
sign may set a zone behind the groups. `isGroupedAddress` recognises this form.
-/

namespace Datapack.Dependency

def digitValue? (b : UInt8) : Option UInt8 :=
  if b < 0x80 then (Text.hexValue? (Char.ofNat b.toNat)).map UInt8.ofNat else none

def stretches (sep : UInt8) : List UInt8 → List (List UInt8)
  | [] => [[]]
  | b :: bs =>
    if b = sep then [] :: stretches sep bs
    else
      match stretches sep bs with
      | [] => [[b]]
      | first :: rest => (b :: first) :: rest

/-- Whether a stretch is a group of one to four hexadecimal digits. -/
def isHexGroup (bs : List UInt8) : Bool :=
  !bs.isEmpty && bs.length ≤ 4 && bs.all fun b => (digitValue? b).isSome

/-- Whether a stretch is a decimal number below 256 without needless zeros. -/
def isOctet (bs : List UInt8) : Bool :=
  !bs.isEmpty && bs.length ≤ 3 && bs.all (fun b => 0x30 ≤ b && b ≤ 0x39)
    && (bs.length = 1 || bs.head? ≠ some 0x30)
    && bs.foldl (fun n b => n * 10 + (b.toNat - 0x30)) 0 < 256

/-- Whether a stretch is made of four decimal numbers. -/
def isDotted (bs : List UInt8) : Bool :=
  let octets := stretches 0x2e bs
  octets.length = 4 && octets.all isOctet

/-- The number of groups between single colons. No bytes are no groups; at the end of the address four
decimal numbers stand for two groups. -/
def groupCount? (last : Bool) (bs : List UInt8) : Option Nat :=
  if bs.isEmpty then some 0
  else
    let groups := stretches 0x3a bs
    if groups.all isHexGroup then some groups.length
    else if last && groups.dropLast.all isHexGroup && (groups.getLast?.map isDotted).getD false then
      some (groups.length + 1)
    else none

/-- What stands before and behind the first double colon. -/
def cutGap? : List UInt8 → Option (List UInt8 × List UInt8)
  | 0x3a :: 0x3a :: rest => some ([], rest)
  | b :: rest => (cutGap? rest).map fun (front, back) => (b :: front, back)
  | [] => none

/-- Whether bytes are eight groups. A double colon stands for at least one group. -/
def isGroups (bs : List UInt8) : Bool :=
  match cutGap? bs with
  | none => groupCount? true bs = some 8
  | some (front, back) =>
    match groupCount? false front, groupCount? true back with
    | some m, some n => m + n < 8
    | _, _ => false

/-- Whether bytes are a numeric host: eight groups, and behind a percent sign a zone that is not empty. -/
def isGroupedAddress (bs : List UInt8) : Bool :=
  match bs.span (· ≠ 0x25) with
  | (groups, []) => isGroups groups
  | (groups, _ :: zone) => isGroups groups && !zone.isEmpty

end Datapack.Dependency
