import Datapack.Proofs.Generation.Changes

/-!
# What control flow changes

Besides what data instructions do, control flow raises exits and calls regions.  Raising an exit is one
change, with the marks it leaves; so are the calls of an instruction together with the checks behind
them.
-/

namespace Datapack.Generation

open Ir Command

/-! ## Growing commands -/

/-- The innermost region is one of the regions and not inside itself. -/
structure Placed (g : Generation) : Prop where
  lt : g.current < g.regions.length
  apart : g.regions.parent? g.current ≠ some g.current

/-- The commands of the innermost region grow by a block; other regions at most lower flags first. -/
structure Extends (g g' : Generation) (block : List Command) : Prop where
  alike : Alike g g'
  own : g'.commandsAt g.current = g.commandsAt g.current ++ block
  other : ∀ m, m ≠ g.current → ∃ front, g'.commandsAt m = front ++ g.commandsAt m ∧
    ∀ c ∈ front, ∃ s, c = .setScore s 0

theorem Placed.of_alike {g g' : Generation} (h : Placed g) (halike : Alike g g') : Placed g' := by
  refine ⟨?_, ?_⟩
  · rw [halike.current, halike.length]
    exact h.lt
  · rw [halike.current, halike.parent?]
    exact h.apart

namespace Extends

variable {g g' g'' : Generation} {block block' : List Command}

theorem of_commands (halike : Alike g g') (h : ∀ m, g'.commandsAt m = g.commandsAt m) :
    Extends g g' [] := by
  refine ⟨halike, by rw [h, List.append_nil], fun m _ => ⟨[], h m, ?_⟩⟩
  exact fun _ hc => absurd hc List.not_mem_nil

theorem refl (g : Generation) : Extends g g [] := of_commands (.refl g) fun _ => rfl

theorem trans (h : Extends g g' block) (h' : Extends g' g'' block') :
    Extends g g'' (block ++ block') := by
  have hcurrent := h.alike.current
  refine ⟨h.alike.trans h'.alike, ?_, fun m hm => ?_⟩
  · have hown := h'.own
    rw [hcurrent] at hown
    rw [hown, h.own, List.append_assoc]
  · obtain ⟨front, hfront, hlowers⟩ := h.other m hm
    obtain ⟨front', hfront', hlowers'⟩ := h'.other m (by rwa [hcurrent])
    refine ⟨front' ++ front, by rw [hfront', hfront, List.append_assoc], fun c hc => ?_⟩
    rcases List.mem_append.1 hc with hc | hc
    · exact hlowers' c hc
    · exact hlowers c hc

theorem emit (h : Placed g) (cs : List Command) : Extends g (g.emit cs) cs := by
  refine ⟨.emit g cs, ?_, fun m hm => ⟨[], ?_, ?_⟩⟩
  · rw [commandsAt_emit h.lt, if_pos rfl]
  · rw [commandsAt_emit h.lt, if_neg hm, List.append_nil, List.nil_append]
  · exact fun _ hc => absurd hc List.not_mem_nil

end Extends

/-! ## Raising an exit -/

/-- The exit of a flag, given the one that a first use registers. -/
def exitOf (g : Generation) (flag : String) (x : Exit) : Exit := (g.exits.lookup flag).getD x

/-- The state in which a flag has its exit. -/
def register (g : Generation) (flag : String) (x : Exit) : Generation :=
  match g.exits.lookup flag with
  | some _ => g
  | none => { g with exits := g.exits ++ [(flag, x)] }

/-- The state behind raising an exit. -/
def raised (g : Generation) (flag : String) (x : Exit) : Generation :=
  markFrames flag ((g.regions.ancestors g.current).takeWhile (· ≠ (exitOf g flag x).consumer))
    ((register g flag x).emit [.setScore (Layout.flag g flag) 1, .ret 0])

variable {g g' : Generation}

theorem alike_register (g : Generation) (flag : String) (x : Exit) : Alike g (register g flag x) := by
  unfold register
  split <;> exact ⟨rfl, rfl, rfl, rfl, rfl, rfl, rfl⟩

theorem alike_markFrames (flag : String) (ms : List Nat) (g : Generation) : Alike g (markFrames flag ms g) :=
  ⟨rfl, rfl, rfl, rfl, rfl, rfl, sketch_markAll _ _ _⟩

theorem alike_raised (g : Generation) (flag : String) (x : Exit) : Alike g (raised g flag x) :=
  ((alike_register g flag x).trans (.emit _ _)).trans (alike_markFrames _ _ _)

theorem yields_register (g : Generation) (kind : ExitKind) (flag : String) (consumer : Nat) :
    Yields (exitFor kind flag consumer) g (exitOf g flag ⟨kind, consumer⟩)
      (register g flag ⟨kind, consumer⟩) := by
  unfold exitFor exitOf register
  refine .bind .get ?_
  cases g.exits.lookup flag with
  | some x => exact .pure _
  | none => exact .bind (.change _) (.pure _)

theorem yields_raised (g : Generation) (kind : ExitKind) (flag : String) (consumer : Nat) :
    Yields (raise kind flag consumer) g () (raised g flag ⟨kind, consumer⟩) := by
  have hregister := alike_register g flag ⟨kind, consumer⟩
  unfold raise
  refine .bind (yields_register g kind flag consumer) (.bind .get ?_)
  rw [hregister.flag]
  refine .bind (.emit _) ?_
  have halike := hregister.trans (.emit _ [.setScore (Layout.flag g flag) 1, .ret 0])
  unfold raised
  rw [← halike.ancestors, ← halike.current]
  exact .change _

/-! ## Checks behind calls -/

/-- The start of the check of a loop lowers a flag. -/
inductive Lowers : Generation → Generation → Prop
  | reset {g : Generation} (check : Nat) (slot : Slot) (h : g.regions.parent? g.current = some check) :
      Lowers g
        { g with
          regions := g.regions.update check (·.prepend [.setScore slot 0])
          resets := check :: g.resets }

/-- A command that tests or lowers a flag. -/
def Tests (slot : Slot) (c : Command) : Prop :=
  c = .setScore slot 0 ∨ c = ifRaised slot (.ret 0) ∨ ∃ d, c = ifRaised slot (.returnRun d)

theorem flags_update {f : Region → Region} (h : ∀ r, (f r).flags = r.flags) (rs : Regions) (n m : Nat) :
    ((rs.update n f).at? m).flags = (rs.at? m).flags := by
  by_cases hm : m = n
  · subst hm
    unfold Regions.update Regions.at?
    rw [List.getElem?_modify_eq]
    cases rs[m]? with
    | none => rfl
    | some r => exact h r
  · rw [Regions.at?_update_ne _ hm]

theorem Lowers.alike (h : Lowers g g') : Alike g g' := by
  cases h
  exact ⟨rfl, rfl, rfl, rfl, rfl, rfl, Regions.sketch_update (Region.bare_prepend _) _ _⟩

theorem Lowers.exits (h : Lowers g g') : g'.exits = g.exits := by
  cases h
  rfl

theorem Lowers.flagsAt (h : Lowers g g') (n : Nat) : g'.flagsAt n = g.flagsAt n := by
  cases h
  exact flags_update (f := (·.prepend _)) (fun _ => rfl) _ _ _

theorem Lowers.extends (h : Lowers g g') (hplaced : Placed g) : Extends g g' [] := by
  have halike := h.alike
  cases h with
  | reset check slot hcheck =>
      have hne : g.current ≠ check := by
        rintro rfl
        exact hplaced.apart hcheck
      refine ⟨halike, ?_, fun m hm => ?_⟩
      · rw [List.append_nil]
        exact congrArg Region.commands (Regions.at?_update_ne _ hne)
      · by_cases hlt : check < g.regions.length ∧ m = check
        · obtain ⟨hlt, rfl⟩ := hlt
          refine ⟨[.setScore slot 0], ?_, fun c hc => ⟨slot, List.mem_singleton.1 hc⟩⟩
          exact congrArg Region.commands (Regions.at?_update_self _ hlt)
        · refine ⟨[], ?_, fun _ hc => absurd hc List.not_mem_nil⟩
          by_cases hm' : m = check
          · have hge : g.regions.length ≤ check := Nat.le_of_not_lt fun hlt' => hlt ⟨hlt', hm'⟩
            unfold commandsAt Regions.update Regions.at?
            rw [List.getElem?_eq_none (by rwa [List.length_modify, hm']),
              List.getElem?_eq_none (by rwa [hm'])]
            rfl
          · exact congrArg Region.commands (Regions.at?_update_ne _ hm')

/-- States with the same exits and marks, apart from a block of commands. -/
structure Adds (g g' : Generation) (block : List Command) : Prop where
  alike : Alike g g'
  exits : g'.exits = g.exits
  flagsAt : ∀ n, g'.flagsAt n = g.flagsAt n
  grows : Placed g → Extends g g' block

namespace Adds

variable {g'' : Generation} {block block' : List Command}

theorem refl (g : Generation) : Adds g g [] := ⟨.refl g, rfl, fun _ => rfl, fun _ => .refl g⟩

theorem trans (h : Adds g g' block) (h' : Adds g' g'' block') : Adds g g'' (block ++ block') :=
  ⟨h.alike.trans h'.alike, h'.exits.trans h.exits, fun n => (h'.flagsAt n).trans (h.flagsAt n),
    fun hplaced => (h.grows hplaced).trans (h'.grows (hplaced.of_alike h.alike))⟩

theorem emit (g : Generation) (cs : List Command) : Adds g (g.emit cs) cs :=
  ⟨.emit g cs, rfl, fun _ => flags_update (f := (·.emit cs)) (fun _ => rfl) _ _ _,
    fun hplaced => .emit hplaced cs⟩

end Adds

theorem Lowers.adds (h : Lowers g g') : Adds g g' [] := ⟨h.alike, h.exits, h.flagsAt, h.extends⟩

theorem adds_of_lowers (h : Reaches Lowers g g') : Adds g g' [] := by
  induction h with
  | refl => exact .refl g
  | tail _ hlast ih => exact ih.trans hlast.adds

/-- An exit has a check that can answer it: only a loop body without a check around it has none. -/
def Answerable (g : Generation) (e : Exit) : Prop :=
  e.kind = .continueLoop → (g.regions.parent? e.consumer).isSome = true

theorem exists_checkFlag (g : Generation) (flag : String) (e : Exit) :
    ∃ checks g', Yields (checkFlag flag e) g checks g' ∧ Reaches Lowers g g' ∧
      (∀ c ∈ checks, Tests (Layout.flag g flag) c) ∧ (Answerable g e → checks ≠ []) := by
  have hone : ∀ {c}, Tests (Layout.flag g flag) c → ∀ d ∈ [c], Tests (Layout.flag g flag) d :=
    fun h => List.forall_mem_singleton.2 h
  unfold checkFlag
  by_cases hconsumer : e.consumer ≠ g.current
  · -- a region in between passes the exit on
    refine ⟨_, g, .bind .get ?_, .refl, hone (.inr (.inl rfl)), fun _ => List.cons_ne_nil _ _⟩
    simp only [if_pos hconsumer]
    exact .pure _
  · cases hkind : e.kind with
    | breakLoop =>
        refine ⟨_, g, .bind .get ?_, .refl, hone (.inl rfl), fun _ => List.cons_ne_nil _ _⟩
        simp only [if_neg hconsumer]
        exact .pure _
    | returnFunction =>
        have htests := hone (.inr (.inr ⟨.setScore (Layout.flag g flag) 0, rfl⟩))
        refine ⟨_, g, .bind .get ?_, .refl, htests, fun _ => List.cons_ne_nil _ _⟩
        simp only [if_neg hconsumer]
        exact .pure _
    | continueLoop =>
        cases hparent : g.regions.parent? g.current with
        | none =>
            -- nothing can be run again: the one case without a check
            refine ⟨[], g, .bind .get ?_, .refl, by simp, fun hanswer => ?_⟩
            · simp only [if_neg hconsumer, hparent]
              exact .pure _
            · have hsome := hanswer hkind
              rw [not_not.1 hconsumer, hparent] at hsome
              exact absurd hsome Bool.noConfusion
        | some check =>
            have htests := hone (.inr (.inr ⟨callRegion g check, rfl⟩))
            by_cases hreset : check ∉ g.resets
            · refine ⟨_, _, .bind .get ?_, .single (.reset check (Layout.flag g flag) hparent), htests,
                fun _ => List.cons_ne_nil _ _⟩
              simp only [if_neg hconsumer, hparent, if_pos hreset]
              exact .bind (.change _) (.pure _)
            · refine ⟨_, g, .bind .get ?_, .refl, htests, fun _ => List.cons_ne_nil _ _⟩
              simp only [if_neg hconsumer, hparent, if_neg hreset]
              exact .pure _

/-- The checks of several flags, in turn. -/
theorem exists_checkFlags (g : Generation) (flags : List (String × Exit)) :
    ∃ checks g', Yields (flags.mapM fun (flag, e) => checkFlag flag e) g checks g' ∧
      Reaches Lowers g g' ∧
      (∀ c ∈ checks.flatten, ∃ flag, Tests (Layout.flag g flag) c) ∧
      ∀ x ∈ flags, Answerable g x.2 → ∃ c ∈ checks.flatten, Tests (Layout.flag g x.1) c := by
  induction flags generalizing g with
  | nil => exact ⟨[], g, .pure _, .refl, by simp, by simp⟩
  | cons x flags ih =>
      obtain ⟨checks, g₁, hyields, hlowers, htests, hanswer⟩ := exists_checkFlag g x.1 x.2
      obtain ⟨rest, g₂, hyields', hlowers', htests', hanswer'⟩ := ih g₁
      -- lowering a flag elsewhere neither moves flags nor regions
      have halike := (adds_of_lowers hlowers).alike
      refine ⟨checks :: rest, g₂, ?_, hlowers.trans hlowers', ?_, ?_⟩
      · rw [List.mapM_cons]
        exact .bind hyields (.bind hyields' (.pure _))
      · intro c hc
        rw [List.flatten_cons] at hc
        rcases List.mem_append.1 hc with hc | hc
        · exact ⟨x.1, htests c hc⟩
        · obtain ⟨flag, hflag⟩ := htests' c hc
          rw [halike.flag] at hflag
          exact ⟨flag, hflag⟩
      · intro y hy hanswerable
        rw [List.flatten_cons]
        rcases List.mem_cons.1 hy with rfl | hy
        · obtain ⟨c, hc⟩ := List.exists_mem_of_ne_nil _ (hanswer hanswerable)
          exact ⟨c, List.mem_append_left _ hc, htests c hc⟩
        · obtain ⟨c, hc, hc'⟩ := hanswer' y hy fun hkind => by
            rw [halike.parent?]
            exact hanswerable hkind
          rw [halike.flag] at hc'
          exact ⟨c, List.mem_append_right _ hc, hc'⟩

/-- Behind the call of a region stands a check of every flag that the region may leave raised. -/
theorem exists_afterCall (g : Generation) (n : Nat) :
    ∃ checks g', Yields (afterCall n) g checks g' ∧ Reaches Lowers g g' ∧
      (∀ c ∈ checks, ∃ flag, Tests (Layout.flag g flag) c) ∧
      ∀ flag ∈ g.flagsAt n, ∀ e, g.exits.lookup flag = some e → Answerable g e →
        ∃ c ∈ checks, Tests (Layout.flag g flag) c := by
  obtain ⟨checks, g', hyields, hlowers, htests, hanswer⟩ := exists_checkFlags g (owedChecks g n)
  refine ⟨checks.flatten, g', .bind .get (.bind hyields (.pure _)), hlowers, htests, ?_⟩
  intro flag hflag e he hanswerable
  refine hanswer (flag, e) ?_ hanswerable
  refine List.mem_filterMap.2 ⟨flag, List.mem_mergeSort.2 hflag, ?_⟩
  rw [he]
  rfl

/-! ## Control flow -/

/-- The checks behind the calls of several regions. -/
def settle (ns : List Nat) : Gen Unit := ns.forM fun n => do Gen.emit (← afterCall n)

/-- A command that runs the function of a region and comes back, perhaps on a condition. -/
def Enters (g : Generation) (n : Nat) (c : Command) : Prop :=
  c = callRegion g n ∨ ∃ p s r, c = .guarded p s r (callRegion g n)

/-- A change by control flow that raises exits for the regions of `Ends` and calls those of `Leads`. -/
inductive Turn (Ends Leads : Nat → Prop) : Generation → Generation → Prop
  | change {g g' : Generation} (h : Change g g') : Turn Ends Leads g g'
  | raise {g : Generation} (kind : ExitKind) {consumer : Nat} (hends : Ends consumer)
      (hanswer : Answerable g ⟨kind, consumer⟩) :
      Turn Ends Leads g
        (raised g (Plan.stem kind ++ holder (g.regions.absolutePath consumer)) ⟨kind, consumer⟩)
  | calls {g g' : Generation} {cs : List Command} {ns : List Nat}
      (hcs : ∀ c ∈ cs, ∃ n ∈ ns, Enters g n c) (hleads : ∀ n ∈ ns, Leads n)
      (h : Yields (settle ns) (g.emit cs) () g') : Turn Ends Leads g g'

theorem emit_emit (g : Generation) (cs ds : List Command) : (g.emit cs).emit ds = g.emit (cs ++ ds) := by
  have hregions : (g.regions.update g.current (·.emit cs)).update g.current (·.emit ds)
      = g.regions.update g.current (·.emit (cs ++ ds)) := by
    unfold Regions.update
    rw [List.modify_modify_eq]
    congr 1
    funext r
    simp [Region.emit]
  simp only [Generation.emit, Generation.emitAt, hregions]

/-- Behind the calls of several regions stand checks of every flag that one of them may leave raised. -/
theorem exists_settle (g : Generation) (ns : List Nat) :
    ∃ checks g', Yields (settle ns) g () g' ∧ Adds g g' checks ∧
      (∀ c ∈ checks, ∃ flag, Tests (Layout.flag g flag) c) ∧
      ∀ n ∈ ns, ∀ flag ∈ g.flagsAt n, ∀ e, g.exits.lookup flag = some e → Answerable g e →
        ∃ c ∈ checks, Tests (Layout.flag g flag) c := by
  induction ns generalizing g with
  | nil => exact ⟨[], g, .pure _, .refl g, by simp, by simp⟩
  | cons n ns ih =>
      obtain ⟨checks, g₁, hyields, hlowers, htests, hanswer⟩ := exists_afterCall g n
      have hadds := (adds_of_lowers hlowers).trans (.emit g₁ checks)
      obtain ⟨rest, g₂, hyields', hadds', htests', hanswer'⟩ := ih (g₁.emit checks)
      refine ⟨checks ++ rest, g₂, ?_, hadds.trans hadds', ?_, ?_⟩
      · have hfirst : Yields (do Gen.emit (← afterCall n)) g () (g₁.emit checks) := .bind hyields (.emit _)
        exact .bind hfirst hyields'
      · intro c hc
        rcases List.mem_append.1 hc with hc | hc
        · exact htests c hc
        · obtain ⟨flag, hflag⟩ := htests' c hc
          rw [hadds.alike.flag] at hflag
          exact ⟨flag, hflag⟩
      · intro m hm flag hflag e he hanswerable
        rcases List.mem_cons.1 hm with rfl | hm
        · obtain ⟨c, hc, hc'⟩ := hanswer flag hflag e he hanswerable
          exact ⟨c, List.mem_append_left _ hc, hc'⟩
        · obtain ⟨c, hc, hc'⟩ := hanswer' m hm flag (by rwa [hadds.flagsAt]) e (by rwa [hadds.exits])
            fun hkind => by
              rw [hadds.alike.parent?]
              exact hanswerable hkind
          rw [hadds.alike.flag] at hc'
          exact ⟨c, List.mem_append_right _ hc, hc'⟩

theorem settle_singleton (n : Nat) : settle [n] = (do Gen.emit (← afterCall n)) := by
  simp [settle]

theorem emit_nil (g : Generation) : g.emit [] = g := by
  have hregions : g.regions.update g.current (·.emit []) = g.regions := by
    unfold Regions.update
    have hid : (fun r : Region => r.emit []) = id := by
      funext r
      simp [Region.emit]
    rw [hid, List.modify_id]
  simp only [Generation.emit, Generation.emitAt, hregions]

theorem Turn.alike {Ends Leads : Nat → Prop} (h : Turn Ends Leads g g') : Alike g g' := by
  cases h with
  | change h => exact h.alike
  | raise kind _ _ => exact alike_raised _ _ _
  | calls hcs _ h =>
      obtain ⟨checks, g₁, hyields, hadds, -⟩ := exists_settle (g.emit _) _
      obtain rfl : g₁ = g' := (Prod.mk.inj (hyields.symm.trans h)).2
      exact (Alike.emit _ _).trans hadds.alike

section Control

variable {Ends Leads : Nat → Prop} {g : Generation}

theorem Makes.turn {α : Type} {m : Gen α} {Q : α → Generation → Prop} (h : Makes Change g m Q) :
    Makes (Turn Ends Leads) g m Q :=
  h.mono fun _ _ => .change

theorem Makes.of_yields {α : Type} {C : Generation → Generation → Prop} {m : Gen α} {a : α}
    {g' : Generation} {Q : α → Generation → Prop} (h : Yields m g a g') (hreach : Reaches C g g')
    (hQ : Q a g') : Makes C g m Q := by
  unfold Makes
  unfold Yields at h
  rw [h]
  refine ⟨hreach, fun b hb => ?_⟩
  obtain rfl : a = b := Except.ok.inj hb
  exact hQ

theorem makes_regionNamed (name : String) {C : Generation → Generation → Prop} :
    Makes C g (regionNamed name) fun n g' => g' = g ∧ g.resolve name = some n := by
  unfold regionNamed
  exact .get_bind (.orFail fun n hn => ⟨rfl, hn⟩)

theorem makes_jumpTo (name : String)
    (hleads : ∀ n, g.resolve name = some n → g.regions.isAncestor n g.current = false → Leads n) :
    Makes (Turn Ends Leads) g (jumpTo name) fun _ _ => True := by
  unfold jumpTo
  refine (makes_regionNamed name).bind fun n g' _ ⟨hg, hn⟩ => .get_bind ?_
  subst hg
  split
  · exact .turn (makes_emit (.single trivial))
  · next hancestor =>
    have hlead := hleads n hn (Bool.eq_false_iff.2 hancestor)
    obtain ⟨checks, g₁, hyields, -⟩ := exists_settle (g'.emit [callRegion g' n]) [n]
    have hturn : Turn Ends Leads g' g₁ := by
      have henters : ∀ c ∈ [callRegion g' n], ∃ m ∈ [n], Enters g' m c :=
        fun c hc => ⟨n, List.mem_cons_self, .inl (List.mem_singleton.1 hc)⟩
      exact .calls henters (List.forall_mem_singleton.2 hlead) hyields
    rw [settle_singleton] at hyields
    exact .of_yields (.bind (.emit _) hyields) (.single hturn) trivial

theorem exists_branchTo (flag : Slot) (p : Polarity) (name : String)
    (hresolve : name ≠ "" → ∃ n, g.resolve name = some n ∧ Leads n) :
    ∃ cs ns, Yields (branchTo flag p name) g ns (g.emit cs) ∧ (∀ n ∈ ns, Leads n) ∧
      ∀ c ∈ cs, ∃ n ∈ ns, Enters g n c := by
  unfold branchTo
  split
  · refine ⟨[], [], ?_, by simp, by simp⟩
    rw [emit_nil]
    exact .pure _
  · next hname =>
    obtain ⟨n, hn, hlead⟩ := hresolve hname
    refine ⟨[.guarded p flag (.exactly 0) (callRegion g n)], [n], ?_, List.forall_mem_singleton.2 hlead,
      List.forall_mem_singleton.2 ⟨n, List.mem_cons_self, .inr ⟨_, _, _, rfl⟩⟩⟩
    unfold regionNamed
    exact .bind (.bind .get (.orFail hn)) (.bind .get (.bind (.emit _) (.pure _)))

theorem makes_branches (flag : Slot) (onTrue onFalse : String)
    (hresolve : ∀ x ∈ [onTrue, onFalse], x ≠ "" → ∃ n, g.resolve x = some n ∧ Leads n) :
    Makes (Turn Ends Leads) g
      (do
        let onTrue ← branchTo flag .fails onTrue
        let onFalse ← branchTo flag .holds onFalse
        settle (onTrue ++ onFalse))
      fun _ _ => True := by
  obtain ⟨cs, ns, hyields, hleads, henters⟩ :=
    exists_branchTo flag .fails onTrue (hresolve onTrue List.mem_cons_self)
  have halike : Alike g (g.emit cs) := .emit g cs
  obtain ⟨ds, ms, hyields', hleads', henters'⟩ :=
    exists_branchTo (g := g.emit cs) flag .holds onFalse (hresolve onFalse (by simp))
  obtain ⟨checks, g', hsettle, -⟩ := exists_settle ((g.emit cs).emit ds) (ns ++ ms)
  refine .of_yields (.bind hyields (.bind hyields' hsettle)) (.single ?_) trivial
  rw [emit_emit] at hsettle
  have hall : ∀ c ∈ cs ++ ds, ∃ n ∈ ns ++ ms, Enters g n c := by
    intro c hc
    rcases List.mem_append.1 hc with hc | hc
    · obtain ⟨n, hn, henter⟩ := henters c hc
      exact ⟨n, List.mem_append_left _ hn, henter⟩
    · obtain ⟨n, hn, henter⟩ := henters' c hc
      unfold Enters at henter
      rw [halike.callRegion] at henter
      exact ⟨n, List.mem_append_right _ hn, henter⟩
  refine .calls hall (fun n hn => ?_) hsettle
  rcases List.mem_append.1 hn with hn | hn
  · exact hleads n hn
  · exact hleads' n hn

theorem Alike.resolve {g g' : Generation} (h : Alike g g') (name : String) :
    g'.resolve name = g.resolve name := by
  simp only [Generation.resolve, h.tree, h.index]

theorem makes_condJump (ins : Instruction)
    (hresolve : ∀ x ∈ [ins.onTrue, ins.onFalse], x ≠ "" → ∃ n, g.resolve x = some n ∧ Leads n) :
    Makes (Turn Ends Leads) g (condJump ins) fun _ _ => True := by
  unfold condJump
  refine (makes_operand _).turn.bind fun o g' hreach _ => ?_
  have halike := hreach.alike fun _ _ => Turn.alike
  cases o with
  | literal l =>
      dsimp only
      have htarget : ∀ x ∈ [ins.onTrue, ins.onFalse],
          Makes (Turn Ends Leads) g' (if x = "" then Pure.pure () else jumpTo x) fun _ _ => True := by
        intro x hx
        split
        · exact .pure trivial
        · next hname =>
          refine makes_jumpTo x fun n hn _ => ?_
          obtain ⟨m, hm, hlead⟩ := hresolve x hx hname
          rw [halike.resolve, hm] at hn
          obtain rfl := Option.some.inj hn
          exact hlead
      split
      · exact htarget _ List.mem_cons_self
      · exact htarget _ (by simp)
  | slot s =>
      have hrest : ∀ flag g₁, Alike g g₁ → Makes (Turn Ends Leads) g₁
          (do
            let onTrue ← branchTo flag .fails ins.onTrue
            let onFalse ← branchTo flag .holds ins.onFalse
            settle (onTrue ++ onFalse)) fun _ _ => True := by
        intro flag g₁ halike₁
        refine makes_branches flag _ _ fun x hx hname => ?_
        rw [halike₁.resolve]
        exact hresolve x hx hname
      dsimp only
      split
      · refine (makes_freshName _).turn.bind fun name g₁ hreach₁ _ => .get_bind ?_
        refine (makes_emit (spares_copy _ _)).turn.bind fun _ g₂ hreach₂ _ => ?_
        have halike₁ := hreach₁.alike fun _ _ => Turn.alike
        have halike₂ := hreach₂.alike fun _ _ => Turn.alike
        exact hrest _ g₂ ((halike.trans halike₁).trans halike₂)
      · exact hrest s g' halike

theorem makes_loopOf (name : String) {C : Generation → Generation → Prop} :
    Makes C g (loopOf name) fun n g' => g' = g ∧ (g.regions.at? n).kind = .loop := by
  unfold loopOf
  refine .get_bind ?_
  extract_lets named
  cases hnamed : named with
  | some n =>
      refine .pure ⟨rfl, ?_⟩
      simpa using (Option.filter_eq_some_iff.1 hnamed).2
  | none =>
      refine .orFail fun n hn => ⟨rfl, ?_⟩
      simpa using List.find?_some hn

theorem makes_raise (kind : ExitKind) {consumer : Nat} (hends : Ends consumer)
    (hanswer : Answerable g ⟨kind, consumer⟩) :
    Makes (Turn Ends Leads) g
      (raise kind (Plan.stem kind ++ holder (g.regions.absolutePath consumer)) consumer) fun _ _ => True :=
  .of_yields (yields_raised g _ _ _) (.single (.raise kind hends hanswer)) trivial

theorem makes_breakLoop (ins : Instruction) (hends : ∀ n, (g.regions.at? n).kind = .loop → Ends n) :
    Makes (Turn Ends Leads) g (breakLoop ins) fun _ _ => True := by
  unfold breakLoop
  refine (makes_loopOf _).bind fun loop g' _ ⟨hg, hloop⟩ => .get_bind ?_
  subst hg
  exact makes_raise .breakLoop (hends loop hloop) fun hkind => ExitKind.noConfusion hkind

theorem lt_of_kind {rs : Regions} {n : Nat} (h : (rs.at? n).kind ≠ .global) : n < rs.length := by
  by_contra hge
  refine h ?_
  rw [Regions.at?, List.getElem?_eq_none (Nat.le_of_not_lt hge)]
  rfl

theorem makes_continueLoop (ins : Instruction)
    (hends : ∀ n, n ≠ g.current → n < g.regions.length → Ends n) :
    Makes (Turn Ends Leads) g (continueLoop ins) fun _ _ => True := by
  unfold continueLoop
  refine (makes_loopOf _).bind fun loop g' _ ⟨hg, hloop⟩ => .get_bind ?_
  subst hg
  extract_lets missing
  refine (Makes.orFail (Q := fun body g => g = g' ∧ (g'.regions.at? body).kind ≠ .global)
    fun body hbody => ⟨rfl, ?_⟩).bind fun body g hreach ⟨hg, hkind⟩ => ?_
  · have hfound := List.find?_some hbody
    simp only [Bool.and_eq_true, decide_eq_true_eq] at hfound
    simp [hfound.1]
  subst hg
  refine (Makes.orFail (Q := fun check g' => g' = g ∧ g.regions.parent? body = some check)
    fun _ h => ⟨rfl, h⟩).bind fun check g' _ ⟨hg, hcheck⟩ => ?_
  subst hg
  split
  · exact .turn (makes_emit (.single trivial))
  · next hbody =>
    refine makes_raise .continueLoop (hends body (Ne.symm hbody) (lt_of_kind hkind)) fun _ => ?_
    rw [hcheck]
    rfl

theorem makes_storeReturn (body : Nat) (value : Option Reference) :
    Makes Change g (storeReturn body value) fun _ _ => True := by
  unfold storeReturn
  split
  · exact .pure trivial
  · refine .get_bind ((Makes.orFail (Q := fun _ _ => True) fun _ _ => trivial).bind fun f _ _ _ => ?_)
    refine (makes_operand _).bind fun src _ _ _ => makes_emitLowered ?_
    exact spares_assign (not_isFlag_place _ _ _) src

theorem makes_ret (ins : Instruction) (hends : ∀ n, n ≠ g.current → n < g.regions.length → Ends n) :
    Makes (Turn Ends Leads) g (ret ins) fun _ _ => True := by
  unfold ret
  refine .get_bind ?_
  split
  · exact .turn (makes_emit (.single trivial))
  · next body henclosing =>
    have hkind : (g.regions.at? body).kind ≠ .global := by
      have hfound := List.find?_some henclosing
      simp only [List.contains_cons, List.contains_nil, Bool.or_false, beq_iff_eq] at hfound
      simp [hfound]
    refine (makes_storeReturn body _).turn.bind fun _ g' hreach _ => ?_
    split
    · exact .turn (makes_emit (.single trivial))
    · next hbody =>
      rw [← (hreach.alike fun _ _ => Turn.alike).absolutePath]
      exact makes_raise .returnFunction (hends body (Ne.symm hbody) (lt_of_kind hkind)) fun h =>
        ExitKind.noConfusion h

end Control

end Datapack.Generation
