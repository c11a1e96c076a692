import Datapack.Command.Template

/-!
# Commands that spare slots

Copying and computing runs no function and sets no score but the destination and the scratch register.
-/

namespace Datapack.Command

open Ir

/-- A command that runs no function by its name, guards nothing and gives no number to the slots of
`P`. -/
def Spares (P : Slot → Prop) : Command → Prop
  | .setScore s _ => ¬P s
  | .guarded _ _ _ _ => False
  | .call _ => False
  | _ => True

/-- Commands that all spare the slots of `P`. -/
def SparesAll (P : Slot → Prop) (cs : List Command) : Prop := ∀ c ∈ cs, c.Spares P

variable {P : Slot → Prop} {cs ds : List Command} {dst src : Slot} {env : Registers}

namespace SparesAll

theorem nil : SparesAll P [] := fun _ h => absurd h List.not_mem_nil

theorem cons {c : Command} (h : c.Spares P) (h' : SparesAll P cs) : SparesAll P (c :: cs) := by
  intro d hd
  rcases List.mem_cons.1 hd with rfl | hd
  · exact h
  · exact h' d hd

theorem single {c : Command} (h : c.Spares P) : SparesAll P [c] := cons h nil

theorem append (h : SparesAll P cs) (h' : SparesAll P ds) : SparesAll P (cs ++ ds) := by
  intro c hc
  rcases List.mem_append.1 hc with hc | hc
  · exact h c hc
  · exact h' c hc

theorem flatten {css : List (List Command)} (h : ∀ cs ∈ css, SparesAll P cs) :
    SparesAll P css.flatten := by
  intro c hc
  obtain ⟨cs, hcs, hc⟩ := List.mem_flatten.1 hc
  exact h cs hcs c hc

end SparesAll

/-- What lowering gives, if anything, spares the slots of `P`. -/
def Lowered.Spares (P : Slot → Prop) (cs : Lowered) : Prop := ∀ ds, cs = .ok ds → SparesAll P ds

theorem Lowered.Spares.ok (h : SparesAll P cs) : Lowered.Spares P (.ok cs) := by
  intro ds hds
  cases hds
  exact h

theorem Lowered.Spares.error (u : Unsupported) : Lowered.Spares P (.error u) := by
  intro ds hds
  cases hds

theorem Lowered.Spares.bind {α : Type} {m : Except Unsupported α} {f : α → Lowered}
    (h : ∀ a, m = .ok a → Lowered.Spares P (f a)) : Lowered.Spares P (m >>= f) := by
  cases m with
  | error u => exact .error u
  | ok a => exact h a rfl

theorem spares_copy (dst src : Slot) : SparesAll P (copy dst src) := by
  unfold copy
  split
  · exact .nil
  · split
    all_goals exact .single trivial

theorem spares_store (hdst : ¬P dst) (l : Literal) : Lowered.Spares P (store dst l) := by
  unfold store
  split
  · exact .ok (.single trivial)
  · split
    · exact .ok (.single hdst)
    · exact .error _

theorem spares_assign (hdst : ¬P dst) (o : Operand) : Lowered.Spares P (assign dst o) := by
  cases o with
  | literal l => exact spares_store hdst l
  | slot s => exact .ok (spares_copy dst s)

theorem spares_asScore (hscratch : ¬P env.scratch) (o : Operand) {s : Slot}
    (h : asScore env o = .ok (s, cs)) : SparesAll P cs := by
  unfold asScore at h
  split at h
  · split at h
    · cases h
    · split at h
      · cases h
        exact .nil
      · cases h
        exact .single hscratch
  · split at h
    · cases h
      exact .nil
    · cases h
      exact spares_copy _ _

theorem spares_applyTo (hscratch : ¬P env.scratch) (op : BinaryOperator) (sop : ScoreOp) (r : Operand) :
    Lowered.Spares P (applyTo env dst op sop r) := by
  have hadd : ∀ n, Lowered.Spares P (.ok [addNumber dst n]) := by
    intro n
    refine .ok (.single ?_)
    unfold addNumber
    split <;> trivial
  unfold applyTo
  split
  · split
    · exact hadd _
    · exact .error _
  · split
    · exact hadd _
    · exact .error _
  · refine .bind fun x hx => .ok (.append ?_ (.single trivial))
    exact spares_asScore hscratch r hx

theorem spares_binaryOp (hdst : ¬P dst) (hscratch : ¬P env.scratch) (op : BinaryOperator)
    (l r : Operand) : Lowered.Spares P (binaryOp env dst op l r) := by
  unfold binaryOp
  split
  · split
    · exact spares_store hdst _
    · exact .error _
  · split
    · exact .error _
    · refine .bind fun x _ => ?_
      obtain ⟨op, r⟩ := x
      dsimp only
      cases scoreOp? op with
      | none => exact .error _
      | some sop =>
          have hsaving : SparesAll P (untangle env dst op l r).1 := by
            unfold untangle
            split
            · split
              · exact .nil
              · exact spares_copy _ _
            · exact .nil
          refine .bind fun first hfirst => .bind fun rest hrest => .ok ?_
          exact (hsaving.append (spares_assign hdst _ _ hfirst)).append
            (spares_applyTo hscratch _ _ _ _ hrest)

theorem spares_compare (hdst : ¬P dst) (hscratch : ¬P env.scratch) (hbuffer : ¬P env.buffer)
    (op : CompareOperator) (l r : Operand) : Lowered.Spares P (compare env dst op l r) := by
  have hscore : ∀ op l r, Lowered.Spares P (compareScore env dst op l r) := by
    intro op l r
    refine .bind fun x hx => .ok (.append ?_ (.single trivial))
    exact spares_asScore hscratch l hx
  unfold compare
  split
  · split
    · exact spares_store hdst _
    · exact .error _
  · split
    · unfold compareStored
      split
      · have hnegation : SparesAll P
            (if op = .eq then [.storeTest dst .holds (.inRange dst (.exactly 0))] else []) := by
          split
          · exact .single trivial
          · exact .nil
        refine .bind fun first hfirst => .ok ?_
        have hchange : SparesAll P [.storeChange dst env.buffer r] := .single trivial
        exact ((spares_assign hbuffer l _ hfirst).append hchange).append hnegation
      · exact .error _
    · split
      · exact hscore _ _ _
      · exact hscore _ _ _

theorem spares_unaryOp (hdst : ¬P dst) (op : UnaryOperator) (x : Operand) :
    Lowered.Spares P (unaryOp env dst op x) := by
  unfold unaryOp
  split
  · split
    · exact spares_store hdst _
    · exact .error _
  · split
    · exact .error _
    · next s _ =>
      have hstaging : ∀ b : Bool, SparesAll P (if b then copy env.scratch s else []) := by
        intro b
        cases b
        · exact .nil
        · exact spares_copy _ _
      have hlast : SparesAll P (if op = .bitNot then [.removeScore dst 1] else []) := by
        split
        · exact .single trivial
        · exact .nil
      have hsub : ∀ n x, SparesAll P [.setScore dst n, .operate dst .sub x] :=
        fun n x => .cons hdst (.single trivial)
      exact .ok (((hstaging _).append (hsub _ _)).append hlast)

theorem spares_concat {io : Slot} (hleft : ¬P (io.child "left")) (hright : ¬P (io.child "right"))
    (l r : Operand) (function : String) : Lowered.Spares P (concat dst l r io function) := by
  have hcall : SparesAll P [.callWith function io] := .single trivial
  refine .bind fun left hl => .bind fun right hr => .ok ?_
  exact (((spares_assign hleft l _ hl).append (spares_assign hright r _ hr)).append hcall).append
    (spares_copy _ _)

theorem spares_render {r : Renderer} {id name : String} {args : List (String × TemplateArg)}
    {out : Rendering} (h : r.render id name args = .ok out) : SparesAll P out.commands := by
  have hmacro : ∀ t bound, SparesAll P (r.viaMacro t id bound).commands := by
    intro t bound
    refine .append (fun c hc => ?_) (.cons trivial (.single trivial))
    obtain ⟨⟨p, a⟩, -, hc⟩ := List.mem_flatMap.1 hc
    cases a with
    | known text =>
        obtain rfl := List.mem_singleton.1 hc
        trivial
    | runtime s => exact spares_copy _ _ c hc
  unfold Renderer.render at h
  split at h
  · cases h
  · split at h
    · cases h
    · next t _ _ _ =>
      cases hbind : Renderer.bind t args t.params with
      | error e =>
          rw [hbind] at h
          cases h
      | ok bound =>
          rw [hbind] at h
          simp only [Bind.bind, Except.bind] at h
          split at h
          · cases h
          · split at h
            · cases h
              exact .single trivial
            · cases h
              exact hmacro t bound

end Datapack.Command
