import Datapack.Command.Arithmetic
import Datapack.Text.Hash

/-!
# Literal pools

The literals of a program, each with a slot of its own that is filled once when the pack is loaded.
Integers and booleans share a score by their integer value, texts are kept as data under their hash.
-/

namespace Datapack.Command

open Ir

/-- The literals of a program. -/
structure Pool where
  objective : String
  storage : String
  /-- The integers, ascending. -/
  ints : List Int64 := []
  /-- The texts, ascending. -/
  texts : List String := []

def insertOnce {α : Type} [DecidableEq α] (lt : α → α → Bool) (a : α) : List α → List α
  | [] => [a]
  | b :: bs => if a = b then b :: bs else if lt a b then a :: b :: bs else b :: insertOnce lt a bs

namespace Pool

def intSlot (p : Pool) (n : Int64) : Slot :=
  .score (if n < 0 then "#n" ++ toString (-n).toInt else "#" ++ toString n.toInt) p.objective

def textSlot (p : Pool) (s : String) : Slot :=
  .storage p.storage ("s" ++ Text.hex16 (Text.fnv1a (Text.bytes s)))

/-- Add a literal. Null has no slot and is not kept. -/
def intern (p : Pool) (l : Literal) : Pool :=
  match l with
  | .str s => { p with texts := insertOnce (fun a b => a < b) s p.texts }
  | l =>
    match l.int? with
    | some n => { p with ints := insertOnce (fun a b => a < b) n p.ints }
    | none => p

def collect (p : Pool) (s : Stream) : Pool := (s.flatMap Instruction.literals).foldl intern p

def constant? (p : Pool) (n : Int64) : Option Slot :=
  if n ∈ p.ints then some (p.intSlot n) else none

def lookup (p : Pool) (l : Literal) : Option Slot :=
  match l with
  | .str s => if s ∈ p.texts then some (p.textSlot s) else none
  | l => l.int?.bind p.constant?

def size (p : Pool) : Nat := p.ints.length + p.texts.length

/-- The score that says whether the slots are filled. -/
def sentinel (p : Pool) : Slot := .score "#initialized" p.objective

/-- Fill every slot, unless that has been done. -/
def initCommands (p : Pool) : List Command :=
  [.addObjective p.objective, .guarded .holds p.sentinel (.exactly 1) (.ret 0)]
    ++ p.ints.map (fun n => .setScore (p.intSlot n) n)
    ++ p.texts.map (fun s => .setData (p.textSlot s) (.str s))
    ++ [.setScore p.sentinel 1]

end Pool

end Datapack.Command
