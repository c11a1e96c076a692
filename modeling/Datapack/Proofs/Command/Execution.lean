import Datapack.Command.Arithmetic

/-!
# Running commands

The meaning of the commands that work on scores and call functions.  Scores are 64-bit words, or have
never been set; a function runs its commands in order until it is left.  `Exec fns cs S T` says that the
commands `cs` of a function, run with the functions `fns` from the scores `S`, end with the scores `T`.
-/

namespace Datapack.Command

open Ir

abbrev Scores := Slot → Option Int64

namespace Scores

/-- The score of a slot; one that has never been set counts as zero. -/
def get (S : Scores) (s : Slot) : Int64 := (S s).getD 0

def set (S : Scores) (s : Slot) (n : Int64) : Scores := fun t => if t = s then some n else S t

@[simp] theorem set_self (S : Scores) (s : Slot) (n : Int64) : S.set s n s = some n := by
  simp [set]

theorem set_ne (S : Scores) {s t : Slot} (n : Int64) (h : t ≠ s) : S.set s n t = S t := by
  simp [set, h]

theorem get_of_eq {S : Scores} {s : Slot} {n : Int64} (h : S s = some n) : S.get s = n := by
  simp [get, h]

end Scores

/-- What an operation makes of two scores. Quotients and remainders round toward negative infinity, and
dividing by zero changes nothing. -/
def ScoreOp.apply (op : ScoreOp) (a b : Int64) : Int64 :=
  match op with
  | assign => b
  | add => a + b
  | sub => a - b
  | mul => a * b
  | div => if b = 0 then a else floorDiv a b
  | mod => if b = 0 then a else floorMod a b
  | min => if a ≤ b then a else b
  | max => if a ≤ b then b else a

def Range.contains (r : Range) (x : Int64) : Bool :=
  match r with
  | exactly n => x = n
  | atMost n => x ≤ n
  | atLeast n => n ≤ x
  | spelled _ => false

def Relation.relates (rel : Relation) (x y : Int64) : Bool :=
  match rel with
  | eq => x = y
  | lt => x < y
  | le => x ≤ y
  | gt => y < x
  | ge => y ≤ x
  | undefined => false

/-- Whether a condition holds. No condition holds of a score that has never been set. -/
def Test.passes (S : Scores) (t : Test) : Bool :=
  match t with
  | inRange s r => (S s).any r.contains
  | related s rel t => (S s).any fun x => (S t).any fun y => rel.relates x y

/-- Whether the outcome of a condition is the required one. -/
def Polarity.admits (p : Polarity) (outcome : Bool) : Bool :=
  match p with
  | holds => outcome
  | fails => !outcome

/-- What a command that only changes scores does to them. -/
def effect (S : Scores) : Command → Option Scores
  | setScore s n => some (S.set s n)
  | addScore s n => some (S.set s (S.get s + n))
  | removeScore s n => some (S.set s (S.get s - n))
  | operate dst op src => some (S.set dst (op.apply (S.get dst) (S.get src)))
  | storeTest dst p t => some (S.set dst (if p.admits (t.passes S) then 1 else 0))
  | comment _ => some S
  | _ => none

/-- Run the commands of a function. -/
inductive Exec (fns : String → Option (List Command)) : List Command → Scores → Scores → Prop where
  | nil {S : Scores} : Exec fns [] S S
  | plain {c : Command} {rest : List Command} {S T U : Scores} (hc : effect S c = some T)
      (hrest : Exec fns rest T U) : Exec fns (c :: rest) S U
  | skip {p : Polarity} {s : Slot} {r : Range} {c : Command} {rest : List Command} {S U : Scores}
      (htest : p.admits ((Test.inRange s r).passes S) = false) (hrest : Exec fns rest S U) :
      Exec fns (guarded p s r c :: rest) S U
  | run {p : Polarity} {s : Slot} {r : Range} {c : Command} {rest : List Command} {S U : Scores}
      (htest : p.admits ((Test.inRange s r).passes S) = true) (hc : Exec fns (c :: rest) S U) :
      Exec fns (guarded p s r c :: rest) S U
  | call {f : String} {cs rest : List Command} {S T U : Scores} (hf : fns f = some cs)
      (hcs : Exec fns cs S T) (hrest : Exec fns rest T U) : Exec fns (call f :: rest) S U
  | ret {n : Nat} {rest : List Command} {S : Scores} : Exec fns (ret n :: rest) S S
  | returnRun {c : Command} {rest : List Command} {S T : Scores} (hc : Exec fns [c] S T) :
      Exec fns (returnRun c :: rest) S T

theorem Exec.deterministic {fns : String → Option (List Command)} {cs : List Command}
    {S T T' : Scores} (h : Exec fns cs S T) (h' : Exec fns cs S T') : T = T' := by
  induction h generalizing T' with
  | nil =>
      cases h'
      rfl
  | plain hc _ ih =>
      cases h' with
      | plain hc' hrest =>
          rw [hc, Option.some.injEq] at hc'
          subst hc'
          exact ih hrest
      | _ => simp [effect] at hc
  | skip htest _ ih =>
      cases h' with
      | plain hc => simp [effect] at hc
      | skip _ hrest => exact ih hrest
      | run htest' _ =>
          rw [htest] at htest'
          exact Bool.noConfusion htest'
  | run htest _ ih =>
      cases h' with
      | plain hc => simp [effect] at hc
      | skip htest' _ =>
          rw [htest] at htest'
          exact Bool.noConfusion htest'
      | run _ hc => exact ih hc
  | call hf _ _ ihcs ihrest =>
      cases h' with
      | plain hc => simp [effect] at hc
      | call hf' hcs hrest =>
          rw [hf, Option.some.injEq] at hf'
          subst hf'
          have hT := ihcs hcs
          subst hT
          exact ihrest hrest
  | ret =>
      cases h' with
      | plain hc => simp [effect] at hc
      | ret => rfl
  | returnRun _ ih =>
      cases h' with
      | plain hc => simp [effect] at hc
      | returnRun hc => exact ih hc

/-- The commands `cs` take the scores `S` to `T` and go on with what follows them. -/
def Steps (fns : String → Option (List Command)) (cs : List Command) (S T : Scores) : Prop :=
  ∀ rest U, Exec fns rest T U → Exec fns (cs ++ rest) S U

namespace Steps

variable {fns : String → Option (List Command)} {cs ds : List Command} {S T U : Scores}

theorem nil : Steps fns [] S S := fun _ _ h => h

theorem append (h : Steps fns cs S T) (h' : Steps fns ds T U) : Steps fns (cs ++ ds) S U := by
  intro rest V hrest
  rw [List.append_assoc]
  exact h _ V (h' _ V hrest)

theorem single {c : Command} (h : effect S c = some T) : Steps fns [c] S T :=
  fun _ _ hrest => .plain h hrest

theorem exec (h : Steps fns cs S T) : Exec fns cs S T := by
  have hnil := h [] T .nil
  rwa [List.append_nil] at hnil

end Steps

end Datapack.Command
