import Datapack.Command.Template

/-!
# Functions that commands call

Copying and computing calls no function, and computing, unlike copying, is never done by no command at
all.  Joining texts and rendering a template call at most the one function they are given.
-/

namespace Datapack.Command

open Ir

def callees : Command → List String
  | .call f => [f]
  | .callWith f _ => [f]
  | .guarded _ _ _ c => c.callees
  | .returnRun c => c.callees
  | _ => []

/-- Commands that call only functions of `F`. -/
def CallOnly (F : String → Prop) (cs : List Command) : Prop := ∀ c ∈ cs, ∀ f ∈ c.callees, F f

variable {F : String → Prop} {cs ds : List Command} {dst : Slot} {env : Registers}

namespace CallOnly

theorem nil : CallOnly F [] := fun _ h => absurd h List.not_mem_nil

theorem cons {c : Command} (h : ∀ f ∈ c.callees, F f) (h' : CallOnly F cs) : CallOnly F (c :: cs) :=
  List.forall_mem_cons.2 ⟨h, h'⟩

theorem silent {c : Command} (h : c.callees = []) (h' : CallOnly F cs) : CallOnly F (c :: cs) :=
  cons (by simp [h]) h'

theorem append (h : CallOnly F cs) (h' : CallOnly F ds) : CallOnly F (cs ++ ds) :=
  List.forall_mem_append.2 ⟨h, h'⟩

theorem flatten {css : List (List Command)} (h : ∀ cs ∈ css, CallOnly F cs) : CallOnly F css.flatten := by
  intro c hc
  obtain ⟨cs, hcs, hc⟩ := List.mem_flatten.1 hc
  exact h cs hcs c hc

end CallOnly

/-- What an operation comes to, if anything, is at least one command and calls only functions of `F`. -/
def Lowered.Acts (F : String → Prop) (cs : Lowered) : Prop := ∀ ds, cs = .ok ds → CallOnly F ds ∧ ds ≠ []

theorem Lowered.Acts.ok (h : CallOnly F cs) (hne : cs ≠ []) : Lowered.Acts F (.ok cs) := by
  intro ds hds
  cases hds
  exact ⟨h, hne⟩

theorem Lowered.Acts.error (u : Unsupported) : Lowered.Acts F (.error u) := by
  intro ds hds
  cases hds

theorem Lowered.Acts.bind {α : Type} {m : Except Unsupported α} {f : α → Lowered}
    (h : ∀ a, m = .ok a → Lowered.Acts F (f a)) : Lowered.Acts F (m >>= f) := by
  cases m with
  | error u => exact .error u
  | ok a => exact h a rfl

theorem callOnly_copy (dst src : Slot) : CallOnly F (copy dst src) := by
  unfold copy
  split
  · exact .nil
  · split
    all_goals exact .silent rfl .nil

theorem copy_ne_nil {src : Slot} (h : dst ≠ src) : copy dst src ≠ [] := by
  unfold copy
  rw [if_neg h]
  split
  all_goals exact List.cons_ne_nil _ _

theorem acts_store (dst : Slot) (l : Literal) : Lowered.Acts F (store dst l) := by
  unfold store
  split
  · exact .ok (.silent rfl .nil) (List.cons_ne_nil _ _)
  · split
    · exact .ok (.silent rfl .nil) (List.cons_ne_nil _ _)
    · exact .error _

theorem callOnly_assign {o : Operand} (h : assign dst o = .ok cs) : CallOnly F cs := by
  cases o with
  | literal l => exact (acts_store dst l cs h).1
  | slot s =>
      cases h
      exact callOnly_copy dst s

/-- An assignment is done by no command only if it gives a slot what it holds. -/
theorem acts_assign {o : Operand} (h : o ≠ .slot dst) : Lowered.Acts F (assign dst o) := by
  cases o with
  | literal l => exact acts_store dst l
  | slot s => exact .ok (callOnly_copy dst s) (copy_ne_nil fun heq => h (by rw [heq]))

theorem callOnly_asScore {o : Operand} {s : Slot} (h : asScore env o = .ok (s, cs)) : CallOnly F cs := by
  unfold asScore at h
  split at h
  · split at h
    · cases h
    · split at h
      · cases h
        exact .nil
      · cases h
        exact .silent rfl .nil
  · split at h
    · cases h
      exact .nil
    · cases h
      exact callOnly_copy _ _

theorem acts_applyTo (op : BinaryOperator) (sop : ScoreOp) (r : Operand) :
    Lowered.Acts F (applyTo env dst op sop r) := by
  have hadd : ∀ n, Lowered.Acts F (.ok [addNumber dst n]) := by
    intro n
    refine .ok (.silent ?_ .nil) (List.cons_ne_nil _ _)
    unfold addNumber
    split <;> rfl
  unfold applyTo
  split
  · split
    · exact hadd _
    · exact .error _
  · split
    · exact hadd _
    · exact .error _
  · exact .bind fun x hx => .ok (.append (callOnly_asScore hx) (.silent rfl .nil)) (by simp)

theorem acts_binaryOp (op : BinaryOperator) (l r : Operand) : Lowered.Acts F (binaryOp env dst op l r) := by
  unfold binaryOp
  split
  · split
    · exact acts_store dst _
    · exact .error _
  · split
    · exact .error _
    · refine .bind fun x _ => ?_
      obtain ⟨op, r⟩ := x
      dsimp only
      cases scoreOp? op with
      | none => exact .error _
      | some sop =>
          have hsaving : CallOnly F (untangle env dst op l r).1 := by
            unfold untangle
            split
            · split
              · exact .nil
              · exact callOnly_copy _ _
            · exact .nil
          refine .bind fun first hfirst => .bind fun rest hrest => ?_
          obtain ⟨hcalls, hne⟩ := acts_applyTo (F := F) _ _ _ _ hrest
          exact .ok ((hsaving.append (callOnly_assign hfirst)).append hcalls) (by simp [hne])

theorem acts_compare (op : CompareOperator) (l r : Operand) : Lowered.Acts F (compare env dst op l r) := by
  have hscore : ∀ op l r, Lowered.Acts F (compareScore env dst op l r) := by
    intro op l r
    exact .bind fun x hx => .ok (.append (callOnly_asScore hx) (.silent rfl .nil)) (by simp)
  unfold compare
  split
  · split
    · exact acts_store dst _
    · exact .error _
  · split
    · unfold compareStored
      split
      · have hnegation : CallOnly F
            (if op = .eq then [.storeTest dst .holds (.inRange dst (.exactly 0))] else []) := by
          split
          · exact .silent rfl .nil
          · exact .nil
        refine .bind fun first hfirst => .ok ?_ (by simp)
        have hchange : CallOnly F [.storeChange dst env.buffer r] := .silent rfl .nil
        exact ((callOnly_assign hfirst).append hchange).append hnegation
      · exact .error _
    · split
      · exact hscore _ _ _
      · exact hscore _ _ _

theorem acts_unaryOp (op : UnaryOperator) (x : Operand) : Lowered.Acts F (unaryOp env dst op x) := by
  unfold unaryOp
  split
  · split
    · exact acts_store dst _
    · exact .error _
  · split
    · exact .error _
    · next s _ =>
      have hstaging : ∀ b : Bool, CallOnly F (if b then copy env.scratch s else []) := by
        intro b
        cases b
        · exact .nil
        · exact callOnly_copy _ _
      have hlast : CallOnly F (if op = .bitNot then [.removeScore dst 1] else []) := by
        split
        · exact .silent rfl .nil
        · exact .nil
      have hsub : ∀ n x, CallOnly F [.setScore dst n, .operate dst .sub x] :=
        fun n x => .silent rfl (.silent rfl .nil)
      exact .ok (((hstaging _).append (hsub _ _)).append hlast) (by simp)

theorem acts_concat {io : Slot} {function : String} (h : F function) (l r : Operand) :
    Lowered.Acts F (concat dst l r io function) := by
  have hcall : CallOnly F [.callWith function io] := .cons (by simpa [callees] using h) .nil
  refine .bind fun left hl => .bind fun right hr => .ok ?_ (by simp)
  exact (((callOnly_assign hl).append (callOnly_assign hr)).append hcall).append (callOnly_copy _ _)

/-- A rendered template calls at most the function made for it, which calls none. -/
theorem render_spec {r : Renderer} {id name : String} {args : List (String × TemplateArg)}
    {out : Rendering} (h : r.render id name args = .ok out) :
    out.commands ≠ [] ∧ match out.helper with
      | none => CallOnly (fun _ => False) out.commands
      | some (path, body) => (∃ t ∈ r.templates, path = r.directory ++ "/" ++ t.name) ∧
          CallOnly (· = r.ns ++ ":" ++ path) out.commands ∧ CallOnly (fun _ => False) body := by
  have hstage : ∀ (F : String → Prop) root (arg : String × TemplateArg),
      CallOnly F (Renderer.stage root arg) := by
    rintro F root ⟨p, text | s⟩
    · exact .silent rfl .nil
    · exact callOnly_copy _ _
  have hfill : ∀ (F : String → Prop) root (bound : List (String × TemplateArg)),
      CallOnly F (bound.flatMap (Renderer.stage root)) := by
    intro F root bound c hc
    obtain ⟨arg, -, hc⟩ := List.mem_flatMap.1 hc
    exact hstage F root arg c hc
  unfold Renderer.render at h
  split at h
  · cases h
  · next t ht =>
    split at h
    · cases h
    · cases hbind : Renderer.bind t args t.params with
      | error e =>
          rw [hbind] at h
          cases h
      | ok bound =>
          rw [hbind] at h
          simp only [Bind.bind, Except.bind] at h
          split at h
          · cases h
          · split at h
            · cases h
              exact ⟨List.cons_ne_nil _ _, .silent rfl .nil⟩
            · cases h
              refine ⟨by simp [Renderer.viaMacro], ⟨t, List.mem_of_find?_eq_some ht, rfl⟩, ?_,
                .silent rfl .nil⟩
              exact (hfill _ _ _).append (.cons (by simp [callees]) (.silent rfl .nil))

end Datapack.Command
