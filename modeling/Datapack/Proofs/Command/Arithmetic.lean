import Datapack.Proofs.Command.Execution
import Datapack.Proofs.Command.Expressible
import Datapack.Proofs.Ir.Eval

/-!
# Computing scores

What the commands for copies and operations leave in their destination when the operands are integer
literals or scores: the value the evaluator gives to the operation.  Besides the destination only the
scratch register changes.
-/

namespace Datapack.Command

open Ir

variable {S T : Scores} {dst scratch : Slot} {fns : String → Option (List Command)}

/-- Whether an operand stands for `n`: a literal that is `n`, or a score that holds it. -/
def Operand.Holds (S : Scores) (n : Int64) : Operand → Prop
  | literal l => l = .int n
  | slot s => s.space = .score ∧ S s = some n

theorem Operand.Holds.congr {o : Operand} {n : Int64} (h : o.Holds S n)
    (hsame : ∀ s, o = slot s → T s = S s) : o.Holds T n := by
  cases o with
  | literal l => exact h
  | slot s =>
      obtain ⟨hspace, hs⟩ := h
      exact ⟨hspace, (hsame s rfl).trans hs⟩

/-- The commands `cs` leave `n` in `dst`, and only `dst` and the scratch register change. -/
def Writes (fns : String → Option (List Command)) (cs : List Command) (S : Scores)
    (dst scratch : Slot) (n : Int64) : Prop :=
  ∃ T, Steps fns cs S T ∧ T dst = some n ∧ ∀ s, s ≠ dst → s ≠ scratch → T s = S s

theorem Writes.single {c : Command} {n : Int64} (h : effect S c = some (S.set dst n)) :
    Writes fns [c] S dst scratch n :=
  ⟨S.set dst n, .single h, S.set_self dst n, fun _ hs _ => S.set_ne n hs⟩

theorem Writes.after {cs ds : List Command} {n : Int64} (h : Steps fns cs S T)
    (hT : ∀ s, s ≠ dst → s ≠ scratch → T s = S s) (h' : Writes fns ds T dst scratch n) :
    Writes fns (cs ++ ds) S dst scratch n := by
  obtain ⟨U, hU, hdst, hrest⟩ := h'
  refine ⟨U, h.append hU, hdst, ?_⟩
  intro s hs hscratch
  exact (hrest s hs hscratch).trans (hT s hs hscratch)

/-! ## Operations on scores -/

section Operations

variable {op : BinaryOperator} {sop : ScoreOp} {a b n : Int64}

/-- Where an operation has a value, the operation on scores gives it. -/
theorem apply_of_evalInt (hsop : scoreOp? op = some sop) (h : evalInt op a b = some n) :
    sop.apply a b = n := by
  cases op <;> simp [scoreOp?] at hsop <;> subst hsop <;> simp_all [evalInt, ScoreOp.apply]

theorem apply_comm (hsop : scoreOp? op = some sop) (hop : op.isCommutative = true) (a b : Int64) :
    sop.apply a b = sop.apply b a := by
  have hanti : a ≤ b → b ≤ a → a = b := Int64.le_antisymm
  have htotal : a ≤ b ∨ b ≤ a := Int64.le_total a b
  cases op <;> simp [BinaryOperator.isCommutative] at hop <;> simp [scoreOp?] at hsop <;> subst hsop
  · exact Int64.add_comm a b
  · exact Int64.mul_comm a b
  · simp only [ScoreOp.apply]
    grind
  · simp only [ScoreOp.apply]
    grind

end Operations

variable (fns)

/-! ## Bringing operands where they are needed -/

theorem assign_steps {o : Operand} {n : Int64} (hdst : dst.space = .score) (h : o.Holds S n) :
    ∃ cs, assign dst o = .ok cs ∧
      ∃ T, Steps fns cs S T ∧ T dst = some n ∧ ∀ s, s ≠ dst → T s = S s := by
  cases o with
  | literal l =>
      subst h
      refine ⟨[.setScore dst n], by simp [assign, store, hdst, Literal.int?], S.set dst n, ?_, ?_, ?_⟩
      · exact .single rfl
      · exact S.set_self dst n
      · intro s hs
        exact S.set_ne n hs
  | slot s =>
      obtain ⟨hspace, hs⟩ := h
      by_cases heq : dst = s
      · subst heq
        exact ⟨[], by simp [assign, copy], S, .nil, hs, fun _ _ => rfl⟩
      · have hval : S.get s = n := Scores.get_of_eq hs
        refine ⟨[.operate dst .assign s], by simp [assign, copy, heq, hdst, hspace],
          S.set dst n, ?_, ?_, ?_⟩
        · exact .single (by simp [effect, ScoreOp.apply, hval])
        · exact S.set_self dst n
        · intro t ht
          exact S.set_ne n ht

theorem assign_writes {o : Operand} {n : Int64} (hdst : dst.space = .score) (h : o.Holds S n) :
    ∃ cs, assign dst o = .ok cs ∧ Writes fns cs S dst scratch n := by
  obtain ⟨cs, hcs, T, hT, hval, hrest⟩ := assign_steps fns hdst h
  exact ⟨cs, hcs, T, hT, hval, fun s hs _ => hrest s hs⟩

/-- The scores that stand for constants hold them, and none of them is written. -/
def Registers.IsFilled (env : Registers) (S : Scores) (dst : Slot) : Prop :=
  ∀ n s, env.constant n = some s → S s = some n ∧ s ≠ dst ∧ s ≠ env.scratch

variable {env : Registers}

theorem Registers.IsFilled.congr (h : env.IsFilled S dst)
    (hT : ∀ s, s ≠ dst → s ≠ env.scratch → T s = S s) : env.IsFilled T dst := by
  intro n s hs
  obtain ⟨hval, hdst, hscratch⟩ := h n s hs
  exact ⟨(hT s hdst hscratch).trans hval, hdst, hscratch⟩

theorem asScore_steps {o : Operand} {n : Int64} (h : o.Holds S n)
    (hfilled : o.literal? = none ∨ env.IsFilled S dst) :
    ∃ s cs T, asScore env o = .ok (s, cs) ∧ Steps fns cs S T ∧ T s = some n ∧
      ∀ t, t ≠ env.scratch → T t = S t := by
  cases o with
  | slot s =>
      obtain ⟨hspace, hs⟩ := h
      exact ⟨s, [], S, by simp [asScore, hspace], .nil, hs, fun _ _ => rfl⟩
  | literal l =>
      subst h
      have hfilled : env.IsFilled S dst := by simpa [Operand.literal?] using hfilled
      cases hconstant : env.constant n with
      | some s =>
          refine ⟨s, [], S, ?_, .nil, (hfilled n s hconstant).1, fun _ _ => rfl⟩
          simp [asScore, Literal.int?, hconstant]
      | none =>
          refine ⟨env.scratch, [.setScore env.scratch n], S.set env.scratch n, ?_, .single rfl, ?_, ?_⟩
          · simp [asScore, Literal.int?, hconstant]
          · exact S.set_self _ n
          · intro t ht
            exact S.set_ne n ht

/-! ## Applying an operation -/

section Binary

variable {op : BinaryOperator} {sop : ScoreOp} {l r : Operand} {a b : Int64}

theorem addNumber_effect (S : Scores) (dst : Slot) (n : Int64) :
    effect S (addNumber dst n) = some (S.set dst (S.get dst + n)) := by
  unfold addNumber
  split
  · simp [effect]
  · simp [effect]

theorem applyTo_literal (hsop : op = .add ∧ sop = .add ∨ op = .sub ∧ sop = .sub)
    (ha : S dst = some a) :
    ∃ cs, applyTo env dst op sop (.literal (.int b)) = .ok cs ∧
      Writes fns cs S dst scratch (sop.apply a b) := by
  have hget : S.get dst = a := Scores.get_of_eq ha
  rcases hsop with ⟨rfl, rfl⟩ | ⟨rfl, rfl⟩
  · refine ⟨[addNumber dst b], by simp [applyTo, Literal.int?], .single ?_⟩
    rw [addNumber_effect, hget]
    rfl
  · refine ⟨[addNumber dst (-b)], by simp [applyTo, Literal.int?], .single ?_⟩
    rw [addNumber_effect, hget, ← Int64.sub_eq_add_neg]
    rfl

theorem applyTo_staged (hr : r.literal? = none ∨ op ≠ .add ∧ op ≠ .sub) {s : Slot}
    {cs : List Command} (hs : asScore env r = .ok (s, cs)) :
    applyTo env dst op sop r = .ok (cs ++ [.operate dst sop s]) := by
  unfold applyTo
  split
  · simp [Operand.literal?] at hr
  · simp [Operand.literal?] at hr
  · rw [hs]
    rfl

theorem sum_cases (hsop : scoreOp? op = some sop) :
    (op = .add ∧ sop = .add ∨ op = .sub ∧ sop = .sub) ∨ op ≠ .add ∧ op ≠ .sub := by
  cases op <;> simp_all [scoreOp?]

/-- A sum takes a literal as it is; every other operation needs its right operand in a score. -/
theorem applyTo_writes (hsop : scoreOp? op = some sop) (hne : env.scratch ≠ dst)
    (hfilled : (op = .add ∨ op = .sub) ∨ env.IsFilled S dst) (ha : S dst = some a)
    (hr : r.Holds S b) :
    ∃ cs, applyTo env dst op sop r = .ok cs ∧ Writes fns cs S dst env.scratch (sop.apply a b) := by
  by_cases hsum : r.literal? = none ∨ op ≠ .add ∧ op ≠ .sub
  · have hfilled' : r.literal? = none ∨ env.IsFilled S dst := by
      rcases hsum with hslot | ⟨hadd, hsub⟩
      · exact .inl hslot
      · exact .inr (hfilled.resolve_left (by simp [hadd, hsub]))
    obtain ⟨s, cs, T, hcs, hsteps, hs, hrest⟩ := asScore_steps fns hr hfilled'
    have hdst : T.get dst = a := Scores.get_of_eq ((hrest dst hne.symm).trans ha)
    refine ⟨_, applyTo_staged hsum hcs, .after hsteps (fun t _ ht => hrest t ht) (.single ?_)⟩
    simp [effect, hdst, Scores.get_of_eq hs]
  · obtain ⟨hliteral, hop⟩ := not_or.mp hsum
    cases r with
    | slot s => exact absurd rfl hliteral
    | literal x =>
        subst hr
        exact applyTo_literal fns ((sum_cases hsop).resolve_right hop) ha

/-- The commands behind untangled operands: the left one goes to the destination, then the right one is
applied to it. -/
theorem assign_applyTo_writes (hsop : scoreOp? op = some sop) (hdst : dst.space = .score)
    (hne : env.scratch ≠ dst) (hfilled : (op = .add ∨ op = .sub) ∨ env.IsFilled S dst)
    (hl : l.Holds S a) (hr : r.Holds S b) (htangle : r = .slot dst → l = .slot dst) :
    ∃ first rest, assign dst l = .ok first ∧ applyTo env dst op sop r = .ok rest ∧
      Writes fns (first ++ rest) S dst env.scratch (sop.apply a b) := by
  obtain ⟨first, hfirst, T, hsteps, hval, hkeep⟩ := assign_steps fns hdst hl
  have hr' : r.Holds T b := by
    apply hr.congr
    intro s hs
    by_cases hsd : s = dst
    · rw [hsd] at hs ⊢
      rw [htangle hs] at hl
      exact hval.trans hl.2.symm
    · exact hkeep s hsd
  have hfilled' : (op = .add ∨ op = .sub) ∨ env.IsFilled T dst :=
    hfilled.imp_right fun h => h.congr fun s hs _ => hkeep s hs
  obtain ⟨rest, hrest, hwrites⟩ := applyTo_writes fns hsop hne hfilled' hval hr'
  exact ⟨first, rest, hfirst, hrest, .after hsteps (fun s hs _ => hkeep s hs) hwrites⟩

theorem untangle_writes (hsop : scoreOp? op = some sop) (hdst : dst.space = .score)
    (hscratch : env.scratch.space = .score) (hne : env.scratch ≠ dst)
    (hfilled : (op = .add ∨ op = .sub) ∨ env.IsFilled S dst) (hlne : l ≠ .slot env.scratch)
    (hl : l.Holds S a) (hr : r.Holds S b) :
    ∃ saving l' r' first rest, untangle env dst op l r = (saving, l', r') ∧
      assign dst l' = .ok first ∧ applyTo env dst op sop r' = .ok rest ∧
      Writes fns (saving ++ (first ++ rest)) S dst env.scratch (sop.apply a b) := by
  by_cases htangle : r = .slot dst ∧ l ≠ .slot dst
  · obtain ⟨rfl, hl'⟩ := htangle
    by_cases hcomm : op.isCommutative = true
    · -- A commutative operation takes its operands the other way round.
      obtain ⟨first, rest, hfirst, hrest, hwrites⟩ :=
        assign_applyTo_writes fns hsop hdst hne hfilled hr hl (fun h => absurd h hl')
      refine ⟨[], .slot dst, l, first, rest, ?_, hfirst, hrest, ?_⟩
      · simp [untangle, Operand.aliases, hl', hcomm]
      · rw [apply_comm hsop hcomm]
        exact hwrites
    · -- Any other operation saves its right operand in the scratch register.
      have hsave : Steps fns [.operate env.scratch .assign dst] S (S.set env.scratch b) := by
        apply Steps.single
        simp [effect, ScoreOp.apply, Scores.get_of_eq hr.2]
      have hkeep : ∀ s, s ≠ env.scratch → S.set env.scratch b s = S s := fun s hs => S.set_ne b hs
      have hl'' : l.Holds (S.set env.scratch b) a := by
        apply hl.congr
        rintro s rfl
        exact hkeep s (by simpa using hlne)
      have hr' : Operand.Holds (S.set env.scratch b) b (.slot env.scratch) :=
        ⟨hscratch, S.set_self _ b⟩
      have hfilled' : (op = .add ∨ op = .sub) ∨ env.IsFilled (S.set env.scratch b) dst :=
        hfilled.imp_right fun h => h.congr fun s _ hs => hkeep s hs
      obtain ⟨first, rest, hfirst, hrest, hwrites⟩ :=
        assign_applyTo_writes fns hsop hdst hne hfilled' hl'' hr' (fun h => absurd h (by simpa using hne))
      refine ⟨_, l, .slot env.scratch, first, rest, ?_, hfirst, hrest,
        .after hsave (fun s _ hs => hkeep s hs) hwrites⟩
      simp [untangle, Operand.aliases, hl', hcomm, copy, hne, hscratch, hdst]
  · have htangle' : r = .slot dst → l = .slot dst := by
      intro h
      exact Decidable.byContradiction fun hl' => htangle ⟨h, hl'⟩
    obtain ⟨first, rest, hfirst, hrest, hwrites⟩ :=
      assign_applyTo_writes fns hsop hdst hne hfilled hl hr htangle'
    refine ⟨[], l, r, first, rest, ?_, hfirst, hrest, hwrites⟩
    have hcond : (r.aliases dst && !l.aliases dst) = false := by
      simpa [Operand.aliases] using htangle'
    simp [untangle, hcond]

theorem binaryOp_of_unshift {op' : BinaryOperator} {r' : Operand} (hdst : dst.space = .score)
    (hslot : l.literal? = none ∨ r.literal? = none) (hunshift : unshift op r = .ok (op', r'))
    (hsop : scoreOp? op' = some sop) {saving first rest : List Command} {left right : Operand}
    (huntangle : untangle env dst op' l r' = (saving, left, right))
    (hfirst : assign dst left = .ok first) (hrest : applyTo env dst op' sop right = .ok rest) :
    binaryOp env dst op l r = .ok (saving ++ (first ++ rest)) := by
  have hspace : dst.space ≠ .storage := by
    rw [hdst]
    exact nofun
  rw [binaryOp, if_neg hspace]
  · simp only [hunshift, hsop, huntangle, hfirst, hrest, bind, Except.bind, pure, Except.pure,
      List.append_assoc]
  · rintro x y rfl rfl
    simp [Operand.literal?] at hslot

/-- The commands of an operation leave what its operation on scores makes of the operands, a shift
having become a product or a quotient. -/
theorem binaryOp_applies {op' : BinaryOperator} {r' : Operand} (hdst : dst.space = .score)
    (hscratch : env.scratch.space = .score) (hne : env.scratch ≠ dst)
    (hslot : l.literal? = none ∨ r.literal? = none) (hunshift : unshift op r = .ok (op', r'))
    (hsop : scoreOp? op' = some sop)
    (hfilled : (op' = .add ∨ op' = .sub) ∨ env.IsFilled S dst) (hlne : l ≠ .slot env.scratch)
    (hl : l.Holds S a) (hr : r'.Holds S b) :
    ∃ cs, binaryOp env dst op l r = .ok cs ∧ Writes fns cs S dst env.scratch (sop.apply a b) := by
  obtain ⟨saving, left, right, first, rest, huntangle, hfirst, hrest, hwrites⟩ :=
    untangle_writes fns hsop hdst hscratch hne hfilled hlne hl hr
  exact ⟨_, binaryOp_of_unshift hdst hslot hunshift hsop huntangle hfirst hrest, hwrites⟩

/-- Sums and differences need no score for a literal, and two literals are added here. -/
theorem sum_writes {n : Int64} (hop : op = .add ∨ op = .sub) (hn : evalInt op a b = some n)
    (hdst : dst.space = .score) (hscratch : env.scratch.space = .score) (hne : env.scratch ≠ dst)
    (hlne : l ≠ .slot env.scratch) (hl : l.Holds S a) (hr : r.Holds S b) :
    ∃ cs, binaryOp env dst op l r = .ok cs ∧ Writes fns cs S dst env.scratch n := by
  obtain ⟨sop, hsop, hunshift⟩ : ∃ sop, scoreOp? op = some sop ∧ unshift op r = .ok (op, r) := by
    rcases hop with rfl | rfl <;> exact ⟨_, rfl, rfl⟩
  by_cases hslot : l.literal? = none ∨ r.literal? = none
  · rw [← apply_of_evalInt hsop hn]
    exact binaryOp_applies fns hdst hscratch hne hslot hunshift hsop (.inl hop) hlne hl hr
  · cases l with
    | slot s => exact absurd (.inl rfl) hslot
    | literal x =>
        cases r with
        | slot s => exact absurd (.inr rfl) hslot
        | literal y =>
            subst hl hr
            refine ⟨[.setScore dst n], ?_, .single rfl⟩
            simp [binaryOp, evalBinary_int, hn, store, hdst, Literal.int?]

/-! ## Operations that have commands -/

theorem distance?_literal (k : Int64) :
    distance? (.literal (.int k)) = if 0 ≤ k ∧ k ≤ 30 then some k else none := by
  have hlast : k < 31 ↔ k ≤ 30 := by
    rw [Int64.lt_iff_toInt_lt, Int64.le_iff_toInt_le]
    exact Int.lt_add_one_iff (a := k.toInt) (b := 30)
  simp [distance?, Operand.literal?, Literal.int?, Option.filter, hlast]

/-- The operations without commands on scores: those on bits, the shifts by anything but a literal from 0
to 30, and what is no operation at all. -/
def Inexpressible (op : BinaryOperator) (r : Operand) : Prop :=
  op ∈ [.bitAnd, .bitOr, .bitXor, .undefined] ∨
    op ∈ [.shl, .shr] ∧ ∀ k, r = .literal (.int k) → k < 0 ∨ 30 < k

theorem worksOnScores_eq_false_iff (hr : r.Holds S b) :
    worksOnScores op r = false ↔ Inexpressible op r := by
  have hdistance : distance? r = none ↔ ∀ k, r = .literal (.int k) → k < 0 ∨ 30 < k := by
    cases r with
    | slot s => simp [distance?, Operand.literal?]
    | literal x =>
        subst hr
        have hrange : ¬(0 ≤ b ∧ b ≤ 30) ↔ b < 0 ∨ 30 < b := by
          rw [Decidable.not_and_iff_not_or_not, Int64.not_le, Int64.not_le]
        simp [distance?_literal, ← hrange]
  cases op <;> simp [worksOnScores, scoreOp?, Inexpressible, hdistance]

/-- What stands for an operation on scores computes what the evaluator computes. -/
theorem exists_unshift (hworks : worksOnScores op r = true) (hr : r.Holds S b) :
    ∃ op' r' sop c, unshift op r = .ok (op', r') ∧ scoreOp? op' = some sop ∧ r'.Holds S c ∧
      ∀ a n, evalInt op a b = some n → sop.apply a c = n := by
  have hshift : op = .shl ∨ op = .shr → distance? r = some b ∧ 0 ≤ b ∧ b < 63 := by
    intro hop
    have hsome : (distance? r).isSome = true := by
      rcases hop with rfl | rfl <;> exact hworks
    cases r with
    | slot s => simp [distance?, Operand.literal?] at hsome
    | literal x =>
        subst hr
        rw [distance?_literal] at hsome ⊢
        split at hsome
        · rename_i hb
          exact ⟨if_pos hb, hb.1, Int64.lt_of_le_of_lt hb.2 (by decide)⟩
        · simp at hsome
  cases op with
  | shl =>
      obtain ⟨hb, h0, hlt⟩ := hshift (.inl rfl)
      refine ⟨.mul, .literal (.int ((1 : Int64) <<< b)), .mul, _, by simp [unshift, hb], rfl, rfl, ?_⟩
      intro a n hn
      have hlt' : b < 64 := Int64.lt_trans hlt (by decide)
      calc a * ((1 : Int64) <<< b) = a <<< b := (shiftLeft_eq_mul h0 hlt').symm
        _ = n := by simpa [evalInt, shiftDistance?, Int64.not_lt.mpr h0, Int64.not_le.mpr hlt'] using hn
  | shr =>
      obtain ⟨hb, h0, hlt⟩ := hshift (.inr rfl)
      refine ⟨.div, .literal (.int ((1 : Int64) <<< b)), .div, _, by simp [unshift, hb], rfl, rfl, ?_⟩
      intro a n hn
      have hlt' : b < 64 := Int64.lt_trans hlt (by decide)
      calc ScoreOp.div.apply a ((1 : Int64) <<< b) = floorDiv a ((1 : Int64) <<< b) :=
            if_neg (one_shiftLeft_ne_zero h0 hlt)
        _ = a >>> b := (shiftRight_eq_floorDiv h0 hlt).symm
        _ = n := by simpa [evalInt, shiftDistance?, Int64.not_lt.mpr h0, Int64.not_le.mpr hlt'] using hn
  | undefined | bitAnd | bitOr | bitXor => exact absurd hworks (by simp [worksOnScores, scoreOp?])
  | _ => exact ⟨_, r, _, b, rfl, rfl, hr, fun a n hn => apply_of_evalInt rfl hn⟩

theorem Operand.Holds.isNumeric {o : Operand} {n : Int64} (h : o.Holds S n) : o.isNumeric = true := by
  cases o with
  | slot s => rfl
  | literal l =>
      subst h
      rfl

/-- An operation of which at least one operand is a score fails exactly if it is inexpressible.  Otherwise
its commands leave the value the evaluator gives to the operation, where it gives one, whichever of the
destination and the operands coincide. -/
theorem binaryOp_computes (hdst : dst.space = .score) (hscratch : env.scratch.space = .score)
    (hne : env.scratch ≠ dst) (hfilled : env.IsFilled S dst)
    (hslot : l.literal? = none ∨ r.literal? = none) (hlne : l ≠ .slot env.scratch)
    (hl : l.Holds S a) (hr : r.Holds S b) :
    ((∃ u, binaryOp env dst op l r = .error u) ↔ Inexpressible op r) ∧
    (¬Inexpressible op r → ∃ cs, binaryOp env dst op l r = .ok cs ∧
      ∀ v, evalBinary op (.int a) (.int b) (.data .int) = some v →
        ∃ n, v = .int n ∧ Writes fns cs S dst env.scratch n) := by
  have hisOk : (binaryOp env dst op l r).isOk = worksOnScores op r := by
    rw [isOk_binaryOp, computes_of_not_literals, hdst, hl.isNumeric, hr.isNumeric]
    · simp
    · rintro x y rfl rfl
      simp [Operand.literal?] at hslot
  constructor
  · rw [← worksOnScores_eq_false_iff hr, ← hisOk]
    cases binaryOp env dst op l r <;> simp [Except.isOk, Except.toBool]
  · intro hexpressible
    rw [← worksOnScores_eq_false_iff hr, Bool.not_eq_false] at hexpressible
    obtain ⟨op', r', sop, c, hunshift, hsop, hr', hvalue⟩ := exists_unshift hexpressible hr
    obtain ⟨cs, hcs, hwrites⟩ := binaryOp_applies fns hdst hscratch hne hslot hunshift hsop
      (.inr hfilled) hlne hl hr'
    refine ⟨cs, hcs, ?_⟩
    intro v hv
    rw [evalBinary_int, Option.map_eq_some_iff] at hv
    obtain ⟨n, hn, rfl⟩ := hv
    rw [hvalue a n hn] at hwrites
    exact ⟨n, rfl, hwrites⟩

/-- Two scores and the score of a constant, between which the examples below compute. -/
def exampleScores : Scores := fun s =>
  if s = .score "x" "ns" then some 2
  else if s = .score "y" "ns" then some (-7)
  else if s = .score "#10" "ns.const" then some 10
  else none

def exampleRegisters : Registers where
  constant n := if n = 10 then some (.score "#10" "ns.const") else none
  scratch := .score "$r0" "ns"
  buffer := .storage "ns:vars" "_mcfc.buffer"

theorem isFilled_example (s : Slot) (hs : s ≠ .score "#10" "ns.const") :
    exampleRegisters.IsFilled exampleScores s := by
  intro n t ht
  simp only [exampleRegisters, Option.ite_none_right_eq_some, Option.some.injEq] at ht
  obtain ⟨rfl, rfl⟩ := ht
  exact ⟨by decide, hs.symm, by decide⟩

/-- The quotient of two scores, rounded toward negative infinity, into the score of the divisor. -/
theorem binaryOp_computes_quotient :
    ∃ cs, binaryOp exampleRegisters (.score "x" "ns") .div (.slot (.score "y" "ns"))
        (.slot (.score "x" "ns")) = .ok cs ∧
      Writes (fun _ => none) cs exampleScores (.score "x" "ns") exampleRegisters.scratch (-4) := by
  have hy : Operand.Holds exampleScores (-7) (.slot (.score "y" "ns")) := ⟨rfl, by decide⟩
  have hx : Operand.Holds exampleScores 2 (.slot (.score "x" "ns")) := ⟨rfl, by decide⟩
  have hdiv : ¬Inexpressible .div (.slot (.score "x" "ns")) := by simp [Inexpressible]
  obtain ⟨cs, hcs, hvalue⟩ := (binaryOp_computes (fun _ => none) rfl rfl (by decide)
    (isFilled_example (.score "x" "ns") (by decide)) (.inl rfl) (by decide) hy hx).2 hdiv
  obtain ⟨n, hn, hwrites⟩ := hvalue (.int (-4)) (by decide)
  obtain rfl := Literal.int.inj hn
  exact ⟨cs, hcs, hwrites⟩

end Binary

/-! ## Unary operations -/

section Unary

variable {op : UnaryOperator} {s : Slot} {n : Int64}

/-- The word a unary operation leaves. -/
def differenceOf (op : UnaryOperator) (n : Int64) : Int64 :=
  (if op = .not then 1 else 0) - n - if op = .bitNot then 1 else 0

/-- Only the logical negation differs from what the evaluator gives, and only of a number that stands for
no truth value. -/
theorem differenceOf_eq_iff (hop : op ≠ .undefined) (n : Int64) :
    ∃ v m, evalUnary op (.int n) = some v ∧ v.int? = some m ∧
      (differenceOf op n = m ↔ (op = .not → n = 0 ∨ n = 1)) := by
  cases op with
  | undefined => exact absurd rfl hop
  | neg => exact ⟨_, _, rfl, rfl, by simp [differenceOf]⟩
  | bitNot => exact ⟨_, _, rfl, rfl, by simp [differenceOf, Int64.not_eq_neg_sub]⟩
  | not =>
      refine ⟨_, _, rfl, rfl, ?_⟩
      have hone : 1 - n = 0 ↔ n = 1 := by
        rw [Int64.sub_eq_iff_eq_add, Int64.zero_add]
        exact eq_comm
      by_cases hn : n = 0
      · simp [differenceOf, hn]
      · simp [differenceOf, hn, hone]

theorem subtraction_writes (op : UnaryOperator) (hs : S s = some n) (hne : s ≠ dst) :
    Writes fns ([.setScore dst (if op = .not then 1 else 0), .operate dst .sub s]
      ++ if op = .bitNot then [.removeScore dst 1] else []) S dst scratch (differenceOf op n) := by
  let base : Int64 := if op = .not then 1 else 0
  have hset : Steps fns [.setScore dst base] S (S.set dst base) := .single rfl
  have hsub : Steps fns [.operate dst .sub s] (S.set dst base) ((S.set dst base).set dst (base - n)) := by
    apply Steps.single
    have hget : (S.set dst base).get s = n := Scores.get_of_eq ((S.set_ne base hne).trans hs)
    have hbase : (S.set dst base).get dst = base := Scores.get_of_eq (S.set_self dst base)
    simp [effect, ScoreOp.apply, hget, hbase]
  have hkeep : ∀ t, t ≠ dst → (S.set dst base).set dst (base - n) t = S t :=
    fun t ht => (Scores.set_ne _ _ ht).trans (Scores.set_ne _ _ ht)
  apply Writes.after (hset.append hsub) (fun t ht _ => hkeep t ht)
  by_cases hop : op = .bitNot
  · rw [if_pos hop]
    apply Writes.single
    simp [effect, Scores.get, differenceOf, hop, base]
  · rw [if_neg hop]
    exact ⟨_, .nil, by simp [differenceOf, hop, base], fun _ _ _ => rfl⟩

theorem unaryOp_writes (hdst : dst.space = .score) (hscratch : env.scratch.space = .score)
    (halias : s = dst → env.scratch ≠ dst) (hs : Operand.Holds S n (.slot s)) :
    ∃ cs, unaryOp env dst op (.slot s) = .ok cs ∧
      Writes fns cs S dst env.scratch (differenceOf op n) := by
  obtain ⟨hspace, hval⟩ := hs
  by_cases heq : s = dst
  · -- The destination is overwritten before the operand is read, so the operand is saved.
    have hne := halias heq
    subst heq
    have hsave : Steps fns [.operate env.scratch .assign s] S (S.set env.scratch n) := by
      apply Steps.single
      simp [effect, ScoreOp.apply, Scores.get_of_eq hval]
    have hcopy : copy env.scratch s = [.operate env.scratch .assign s] := by
      simp [copy, hne, hscratch, hspace]
    have hwrites : Writes fns _ _ s env.scratch (differenceOf op n) :=
      subtraction_writes fns op (S.set_self env.scratch n) hne
    refine ⟨_, ?_, .after hsave (fun t _ ht => S.set_ne n ht) hwrites⟩
    simp [unaryOp, hspace, hcopy]
  · refine ⟨_, ?_, subtraction_writes fns op hval heq⟩
    simp [unaryOp, hdst, hspace, heq]

/-- The commands of a unary operation leave the integer view of what the evaluator gives, except for the
logical negation of a number other than zero and one.  Source and destination may be the same score, as
long as it is not the scratch register. -/
theorem unaryOp_computes_iff (hop : op ≠ .undefined) (hdst : dst.space = .score)
    (hscratch : env.scratch.space = .score) (halias : s = dst → env.scratch ≠ dst)
    (hs : Operand.Holds S n (.slot s)) :
    ∃ v m cs x, evalUnary op (.int n) = some v ∧ v.int? = some m ∧
      unaryOp env dst op (.slot s) = .ok cs ∧ Writes fns cs S dst env.scratch x ∧
      (x = m ↔ (op = .not → n = 0 ∨ n = 1)) := by
  obtain ⟨v, m, hv, hm, hiff⟩ := differenceOf_eq_iff hop n
  obtain ⟨cs, hcs, hwrites⟩ := unaryOp_writes fns hdst hscratch halias hs
  exact ⟨v, m, cs, differenceOf op n, hv, hm, hcs, hwrites, hiff⟩

/-- The complement of a score in place. -/
theorem unaryOp_computes_complement :
    ∃ cs, unaryOp exampleRegisters (.score "y" "ns") .bitNot (.slot (.score "y" "ns")) = .ok cs ∧
      Writes (fun _ => none) cs exampleScores (.score "y" "ns") exampleRegisters.scratch 6 := by
  have hop : UnaryOperator.bitNot ≠ .undefined := by decide
  have hscratch : exampleRegisters.scratch.space = .score := rfl
  have hne : exampleRegisters.scratch ≠ .score "y" "ns" := by decide
  have hy : Operand.Holds exampleScores (-7) (.slot (.score "y" "ns")) := ⟨rfl, by decide⟩
  obtain ⟨v, m, cs, x, hv, hm, hcs, hwrites, hiff⟩ :=
    unaryOp_computes_iff (fun _ => none) hop rfl hscratch (fun _ => hne) hy
  obtain rfl := Option.some.inj hv
  obtain rfl := Option.some.inj hm
  rw [hiff.mpr (by decide)] at hwrites
  exact ⟨cs, hcs, hwrites⟩

/-- The logical negation of two is minus one where it is computed, and false where it is evaluated. -/
theorem unaryOp_not_two :
    evalUnary .not (.int 2) = some (.bool false) ∧
      ∃ cs, unaryOp exampleRegisters (.score "z" "ns") .not (.slot (.score "x" "ns")) = .ok cs ∧
        Writes (fun _ => none) cs exampleScores (.score "z" "ns") exampleRegisters.scratch (-1) := by
  refine ⟨rfl, ?_⟩
  exact unaryOp_writes (fun _ => none) (n := 2) rfl rfl (by decide) ⟨rfl, by decide⟩

end Unary

end Datapack.Command
