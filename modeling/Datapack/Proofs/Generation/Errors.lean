import Datapack.Proofs.Generation.Closure

/-!
# Errors of a generation

A generation takes no finding back.  A computation is quiet if it succeeds and reports no error;
`Decides m g b Q` says that `m` is quiet from `g` exactly if `b` holds, fails otherwise, and that the value
it gives satisfies `Q`.  Its lemmas follow the way computations are put together.
-/

namespace Datapack.Generation

open Ir Command

/-! ## Findings stay -/

section Findings

variable {A : Nat → Prop} {g g' : Generation}

theorem Act.findings (h : Act A g g') : g.diagnostics <+: g'.diagnostics := by
  cases h with
  | edit hedit =>
      cases hedit with
      | note fresh ids ds => exact List.prefix_append _ _
      | helper _ _ =>
          obtain ⟨helpers, heq⟩ := addHelper_eq g _ _
          rw [heq]
      | _ => exact List.prefix_rfl
  | _ => exact List.prefix_rfl

theorem findings_of_acts (h : Reaches (Act A) g g') : g.diagnostics <+: g'.diagnostics := by
  induction h with
  | refl => exact List.prefix_rfl
  | tail _ hlast ih => exact ih.trans hlast.findings

theorem findings_lower (g : Generation) : g.diagnostics <+: (lower g).1.diagnostics := by
  have hgrown : g.diagnostics <+: (process processors g).1.diagnostics :=
    findings_of_acts (acts_processFrom 0 g g.program.code)
  unfold lower
  split
  · next g' hrun =>
    rw [hrun] at hgrown
    obtain ⟨helpers, tags, hfinish⟩ := finish_eq g'
    rw [hfinish]
    exact hgrown
  · next g' e hrun =>
    rw [hrun] at hgrown
    exact hgrown

end Findings

/-! ## Computations that succeed on a condition -/

def errors (g : Generation) : Nat := g.diagnostics.errorCount

/-- States in which the same has been reported, apart from warnings, and that differ at most in what is
generated. -/
structure Calm (g g' : Generation) : Prop where
  alike : Alike g g'
  errors : g'.errors = g.errors

namespace Calm

variable {g g' g'' : Generation}

theorem refl (g : Generation) : Calm g g := ⟨.refl g, rfl⟩

theorem trans (h : Calm g g') (h' : Calm g' g'') : Calm g g'' :=
  ⟨h.alike.trans h'.alike, h'.errors.trans h.errors⟩

theorem emit (g : Generation) (cs : List Command) : Calm g (g.emit cs) := ⟨.emit g cs, rfl⟩

theorem addHelper (g : Generation) (path : String) (body : List Command) : Calm g (g.addHelper path body) := by
  obtain ⟨helpers, heq⟩ := addHelper_eq g path body
  rw [heq]
  exact ⟨⟨rfl, rfl, rfl, rfl, rfl, rfl, rfl⟩, rfl⟩

theorem of_lowers (h : Reaches Lowers g g') : Calm g g' := by
  refine ⟨(adds_of_lowers h).alike, ?_⟩
  induction h with
  | refl => rfl
  | tail _ hlast ih =>
      cases hlast
      exact ih

theorem raised (g : Generation) (flag : String) (x : Exit) : Calm g (raised g flag x) := by
  refine ⟨alike_raised g flag x, ?_⟩
  unfold Generation.raised markFrames register
  split <;> rfl

end Calm

/-- A computation that succeeds exactly on a condition, reports no error and gives a value in `Q`. -/
structure Decides {α : Type} (m : Gen α) (g : Generation) (b : Bool) (Q : α → Prop) : Prop where
  succeeds : b = true → ∃ a g', Yields m g a g'
  ensures : ∀ a g', Yields m g a g' → b = true ∧ Calm g g' ∧ Q a

/-- A computation that succeeds and reports no error. -/
def Quiet {α : Type} (m : Gen α) (g : Generation) : Prop := ∃ a g', Yields m g a g' ∧ g'.errors = g.errors

theorem quiet_get_bind_iff {β : Type} {f : Generation → Gen β} {g : Generation} :
    Quiet (MonadState.get >>= f) g ↔ Quiet (f g) g := Iff.rfl

theorem quiet_of_yields {α : Type} {m : Gen α} {g g' : Generation} {a : α} (h : Yields m g a g')
    (herrors : g'.errors = g.errors) : Quiet m g := ⟨a, g', h, herrors⟩

theorem not_quiet_throw {α : Type} (e : GenError) (g : Generation) : ¬Quiet (throw e : Gen α) g := by
  rintro ⟨a, g', hyields, -⟩
  cases (Prod.mk.inj hyields).1

theorem not_quiet_report {g : Generation} {d : Diagnostic} (h : d.severity = .error) :
    ¬Quiet (Gen.change (·.report d)) g := by
  rintro ⟨_, g', hyields, herrors⟩
  obtain ⟨-, rfl⟩ := Prod.mk.inj hyields
  have hmore : (g.report d).errors = g.errors + 1 := by
    simp [errors, report, Bag.errorCount, Bag.count, h]
  exact absurd (hmore.symm.trans herrors) (Nat.succ_ne_self _)

namespace Decides

variable {α β : Type} {m : Gen α} {g : Generation} {b c : Bool} {Q : α → Prop} {T : β → Prop}

theorem quiet_iff (h : Decides m g b Q) : Quiet m g ↔ b = true := by
  constructor
  · rintro ⟨a, g', hyields, -⟩
    exact (h.ensures a g' hyields).1
  · intro hb
    obtain ⟨a, g', hyields⟩ := h.succeeds hb
    exact ⟨a, g', hyields, (h.ensures a g' hyields).2.1.errors⟩

theorem quiet_bind_iff {f : α → Gen β} (h : Decides m g b Q)
    (h' : ∀ a g', Calm g g' → Q a → (Quiet (f a) g' ↔ c = true)) :
    Quiet (m >>= f) g ↔ (b && c) = true := by
  rw [Bool.and_eq_true]
  constructor
  · rintro ⟨a', g₂, hyields, herrors⟩
    unfold Yields at hyields
    rw [Makes.run_bind] at hyields
    split at hyields
    · next a g₁ hfirst =>
      obtain ⟨hb, hcalm, ha⟩ := h.ensures a g₁ hfirst
      exact ⟨hb, (h' a g₁ hcalm ha).1 ⟨a', g₂, hyields, herrors.trans hcalm.errors.symm⟩⟩
    · next e g₁ _ => cases (Prod.mk.inj hyields).1
  · rintro ⟨hb, hc⟩
    obtain ⟨a, g₁, hfirst⟩ := h.succeeds hb
    obtain ⟨-, hcalm, ha⟩ := h.ensures a g₁ hfirst
    obtain ⟨a', g₂, hsecond, herrors⟩ := (h' a g₁ hcalm ha).2 hc
    exact ⟨a', g₂, hfirst.bind hsecond, herrors.trans hcalm.errors⟩

theorem congr (h : Decides m g b Q) (hb : b = c) : Decides m g c Q := hb ▸ h

theorem post {R : α → Prop} (h : Decides m g b Q) (hQ : ∀ a, Q a → R a) : Decides m g b R :=
  ⟨h.succeeds, fun a g' hyields =>
    let ⟨hb, hcalm, ha⟩ := h.ensures a g' hyields
    ⟨hb, hcalm, hQ a ha⟩⟩

theorem of_yields {a : α} {g' : Generation} (h : Yields m g a g') (hcalm : Calm g g') (ha : Q a) :
    Decides m g true Q := by
  refine ⟨fun _ => ⟨a, g', h⟩, fun a' g'' hyields => ?_⟩
  unfold Yields at h hyields
  obtain ⟨hvalue, rfl⟩ := Prod.mk.inj (h.symm.trans hyields)
  obtain rfl := Except.ok.inj hvalue
  exact ⟨rfl, hcalm, ha⟩

theorem pure {a : α} (ha : Q a) : Decides (Pure.pure a) g true Q := .of_yields (.pure a) (.refl g) ha

theorem throw (e : GenError) : Decides (MonadExcept.throw e : Gen α) g false Q :=
  ⟨fun h => absurd h Bool.false_ne_true, fun _ _ hyields => by cases (Prod.mk.inj hyields).1⟩

theorem bind {f : α → Gen β} (h : Decides m g b Q)
    (h' : ∀ a g', Calm g g' → Q a → Decides (f a) g' c T) : Decides (m >>= f) g (b && c) T := by
  constructor
  · intro hboth
    obtain ⟨hb, hc⟩ := Bool.and_eq_true_iff.1 hboth
    obtain ⟨a, g₁, hfirst⟩ := h.succeeds hb
    obtain ⟨-, hcalm, ha⟩ := h.ensures a g₁ hfirst
    obtain ⟨a', g₂, hsecond⟩ := (h' a g₁ hcalm ha).succeeds hc
    exact ⟨a', g₂, hfirst.bind hsecond⟩
  · intro a' g₂ hyields
    unfold Yields at hyields
    rw [Makes.run_bind] at hyields
    split at hyields
    · next a g₁ hfirst =>
      obtain ⟨hb, hcalm, ha⟩ := h.ensures a g₁ hfirst
      obtain ⟨hc, hcalm', ha'⟩ := (h' a g₁ hcalm ha).ensures a' g₂ hyields
      exact ⟨Bool.and_eq_true_iff.2 ⟨hb, hc⟩, hcalm.trans hcalm', ha'⟩
    · next e g₁ _ => cases (Prod.mk.inj hyields).1

/-- A first part that always succeeds. -/
theorem after {f : α → Gen β} (h : Decides m g true Q)
    (h' : ∀ a g', Calm g g' → Q a → Decides (f a) g' c T) : Decides (m >>= f) g c T := h.bind h'

/-- A last part that always succeeds. -/
theorem followed {f : α → Gen β} (h : Decides m g b Q)
    (h' : ∀ a g', Calm g g' → Q a → Decides (f a) g' true T) : Decides (m >>= f) g b T :=
  (h.bind h').congr (Bool.and_true b)

theorem get_bind {f : Generation → Gen β} (h : Decides (f g) g c T) :
    Decides (MonadState.get >>= f) g c T := ⟨h.succeeds, h.ensures⟩

theorem orFail {message : String} {o : Option α} (hQ : ∀ a, o = some a → Q a) :
    Decides (Gen.orFail message o) g o.isSome Q := by
  cases o with
  | none => exact .throw _
  | some a => exact .pure (hQ a rfl)

/-- A first part that succeeds if there is a value, and then gives it. -/
theorem any {o : Option α} {p : α → Bool} {f : α → Gen β} (h : Decides m g o.isSome fun a => o = some a)
    (h' : ∀ a g', Calm g g' → o = some a → Decides (f a) g' (p a) T) : Decides (m >>= f) g (o.any p) T := by
  cases o with
  | none => exact Decides.bind (c := true) h fun _ _ _ hnone => by cases hnone
  | some a =>
      refine h.after fun a' g' hcalm ha => ?_
      obtain rfl := Option.some.inj ha
      exact h' a g' hcalm rfl

theorem change {f : Generation → Generation} (h : Calm g (f g)) : Decides (Gen.change f) g true fun _ => True :=
  .of_yields (.change f) h trivial

theorem emit (cs : List Command) : Decides (Gen.emit cs) g true fun _ => True := .change (.emit g cs)

theorem emitLowered (cs : Lowered) : Decides (Gen.emitLowered cs) g cs.isOk fun _ => True := by
  cases cs with
  | error u => exact .throw _
  | ok ds => exact .emit ds

theorem mapM {xs : List α} {f : α → Gen β} {p : α → Bool}
    (h : ∀ x ∈ xs, ∀ g', Calm g g' → Decides (f x) g' (p x) fun _ => True) :
    Decides (xs.mapM f) g (xs.all p) fun _ => True := by
  induction xs generalizing g with
  | nil =>
      rw [List.mapM_nil]
      exact .pure trivial
  | cons x xs ih =>
      rw [List.mapM_cons, List.all_cons]
      refine (h x List.mem_cons_self g (.refl g)).bind fun _ g₁ hcalm _ => ?_
      exact (ih fun y hy g₂ hcalm' => h y (List.mem_cons_of_mem _ hy) g₂ (hcalm.trans hcalm')).followed
        fun _ _ _ _ => .pure trivial

theorem forM {xs : List α} {f : α → Gen PUnit} {p : α → Bool}
    (h : ∀ x ∈ xs, ∀ g', Calm g g' → Decides (f x) g' (p x) fun _ => True) :
    Decides (xs.forM f) g (xs.all p) fun _ => True := by
  induction xs generalizing g with
  | nil => exact .pure trivial
  | cons x xs ih =>
      change Decides (f x >>= fun _ => xs.forM f) g _ _
      rw [List.all_cons]
      exact (h x List.mem_cons_self g (.refl g)).bind fun _ g₁ hcalm _ =>
        ih fun y hy g₂ hcalm' => h y (List.mem_cons_of_mem _ hy) g₂ (hcalm.trans hcalm')

end Decides

end Datapack.Generation
