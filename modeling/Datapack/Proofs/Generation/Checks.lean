import Datapack.Proofs.Generation.Growth

/-!
# Tests behind calls

The commands behind the call of a region test every flag that the region may leave raised, each as the
frame of the call asks for it.  A flag of `next` that is tested is lowered at the start of the check.
-/

namespace Datapack.Generation

open Ir Ir.Structured Command

variable {W : Plan} {f : Frame} {n : Nat} {g : Generation}

/-- The test of a flag in the innermost region of a frame. -/
def Frame.answer (W : Plan) : Frame → Escape → Command
  | .loop l _ _, e => W.target.landing l e
  | f, e => W.target.check (f.role false) e

/-- A `next` that ends in the innermost region is settled by the check of its loop. -/
def Frame.Settled (f : Frame) (e : Escape) (g : Generation) : Prop :=
  ∀ l m up, f = .body l m up → e = .next l → m + 1 ∈ g.resets

/-- An exit that ends elsewhere makes the region return. -/
theorem answer_other (W : Plan) {e : Escape} (h : f.end? ≠ some e) :
    f.answer W e = ifRaised (W.target.flag e) (.ret 0) := by
  have hinner : ∀ role : Role, role.consumes e = false →
      W.target.check role e = ifRaised (W.target.flag e) (.ret 0) := by
    intro role hrole
    unfold Target.check Target.onRaised
    rw [if_neg (by simp [hrole])]
  cases f with
  | loop l m up =>
      have hne : e ≠ .leave l := by
        rintro rfl
        exact h rfl
      simp [Frame.answer, Target.landing, hne]
  | function =>
      refine hinner _ ?_
      cases e <;> simp_all [Frame.role, Role.consumes, Frame.end?]
  | body l m up =>
      refine hinner _ ?_
      cases e with
      | next k =>
          have hne : k ≠ l := by
            rintro rfl
            exact h rfl
          simp [Frame.role, Role.consumes, hne]
      | leave k => rfl
      | ret => rfl
  | side m up => exact hinner _ rfl
  | check l m up => exact hinner _ rfl

/-- Lowering the flag of `next` at the start of the check of the innermost loop. -/
theorem advances_reset {l : String} {m : Nat} {up : Frame} (hready : Ready W (.body l m up) g)
    (hshape : W.Shape (.body l m up)) (hpristine : Pristine n g) (hle : m + 1 ≤ n)
    (hnew : m + 1 ∉ g.resets) :
    Advances W (.body l m up) n n g
      { g with
        regions := g.regions.update (m + 1)
          (·.prepend [.setScore (Layout.flag g (W.flagName (.next l))) 0])
        resets := (m + 1) :: g.resets } [] := by
  have hlt : m + 1 < g.regions.length := by
    rw [hready.length]
    exact hshape.1.check.lt
  have hreset : Command.setScore (Layout.flag g (W.flagName (.next l))) 0 = W.reset (m + 1) := by
    rw [hready.flag, Plan.reset]
    simp only [Plan.target, Plan.flagName, Plan.exit, hshape.1.place]
  have hflags : ∀ k, ((g.regions.update (m + 1) (·.prepend [W.reset (m + 1)])).at? k).flags
      = g.flagsAt k := by
    intro k
    by_cases hk : k = m + 1
    · rw [hk, Regions.at?_update_self _ hlt]
      rfl
    · rw [Regions.at?_update_ne _ hk]
      rfl
  rw [hreset]
  refine ⟨⟨hready.stack, hready.config, hready.tree, ?_, hready.exits, ?_⟩,
    ⟨?_, ?_, ?_, ?_, Nat.le_refl _⟩, ?_⟩
  · rw [← hready.regions]
    exact Regions.sketch_update (Region.bare_prepend _) _ _
  · intro k flag hflag
    exact hready.flags k flag (hflags k ▸ hflag)
  · intro k _
    by_cases hk : k = m + 1
    · subst hk
      have hmem : m + 1 ∈ (m + 1) :: g.resets ∧ m + 1 ∉ g.resets := ⟨by simp, hnew⟩
      rw [if_pos hmem]
      simp only [commandsAt, Regions.at?_update_self _ hlt, Region.prepend]
      simp
    · have hold : ¬(k ∈ (m + 1) :: g.resets ∧ k ∉ g.resets) := by
        rintro ⟨hmem, hk'⟩
        rcases List.mem_cons.mp hmem with h | h
        · exact hk h
        · exact hk' h
      rw [if_neg hold]
      simp only [commandsAt, Regions.at?_update_ne _ hk]
      simp
  · intro k flag hflag
    unfold flagsAt
    rw [hflags k]
    exact hflag
  · intro k hk
    exact List.mem_cons_of_mem _ hk
  · intro k hk
    rcases List.mem_cons.mp hk with rfl | hk
    · exact .inr (.inr rfl)
    · exact .inl hk
  · intro k hk
    have hne : k ≠ m + 1 := by omega
    obtain ⟨hcommands, hresets⟩ := hpristine k hk
    refine ⟨?_, ?_⟩
    · simp only [commandsAt, Regions.at?_update_ne _ hne]
      exact hcommands
    · simp [hne, hresets]

theorem yields_checkFlag (hready : Ready W f g) (hshape : W.Shape f) (hpristine : Pristine n g)
    (hbelow : ∀ m ∈ f.stack, m ≤ n) {e : Escape} (he : W.valid e) :
    ∃ g', Yields (checkFlag (W.flagName e) (W.exit e)) g [f.answer W e] g' ∧
      Advances W f n n g g' [] ∧ f.Settled e g' := by
  have hiff := hshape.consumer_iff he
  rw [← hready.current] at hiff
  by_cases hend : f.end? = some e
  · have hcurrent : ¬(W.exit e).consumer ≠ g.current := not_not_intro (hiff.mpr hend)
    cases f with
    | side m up => exact absurd hend (by simp [Frame.end?])
    | check l m up => exact absurd hend (by simp [Frame.end?])
    | function =>
        obtain rfl := Option.some.inj hend
        refine ⟨g, ?_, .refl hready hpristine, by rintro l m up ⟨⟩⟩
        unfold checkFlag
        refine .bind .get ?_
        simp only [if_neg hcurrent, hready.flag]
        exact .pure _
    | loop l m up =>
        obtain rfl := Option.some.inj hend
        refine ⟨g, ?_, .refl hready hpristine, by rintro l m up ⟨⟩⟩
        unfold checkFlag
        refine .bind .get ?_
        simp only [if_neg hcurrent, hready.flag, Frame.answer, Target.landing, if_true]
        exact .pure _
    | body l m up =>
        obtain rfl := Option.some.inj hend
        have hparent : g.regions.parent? g.current = some (m + 1) := by
          rw [hready.parent?, hready.current, Regions.parent?]
          have houter : (W.base.at? (Frame.body l m up).current).outer = (m + 1) :: m :: up.stack :=
            hshape.1.body.outer
          rw [houter]
          rfl
        have hanswer : [Frame.answer W (.body l m up) (.next l)] = [ifRaised
            (Layout.flag g (W.flagName (.next l))) (.returnRun (Generation.callRegion g (m + 1)))] := by
          rw [hready.flag, hready.callRegion]
          simp [Frame.answer, Target.check, Target.onRaised, Frame.role, Role.consumes, Plan.target,
            hshape.1.place]
        rw [hanswer]
        have hkind : (W.exit (.next l)).kind = .continueLoop := rfl
        have hsettled : ∀ g' : Generation, m + 1 ∈ g'.resets →
            (Frame.body l m up).Settled (.next l) g' := by
          rintro g' hmem l' m' up' ⟨⟩ -
          exact hmem
        by_cases hresets : m + 1 ∈ g.resets
        · refine ⟨g, ?_, .refl hready hpristine, hsettled g hresets⟩
          unfold checkFlag
          refine .bind .get ?_
          simp only [if_neg hcurrent, hkind, hparent]
          rw [if_neg (not_not_intro hresets)]
          exact .pure _
        · refine ⟨_, ?_, advances_reset hready hshape hpristine (hbelow _ (by simp [Frame.stack])) hresets,
            hsettled _ (by simp)⟩
          unfold checkFlag
          refine .bind .get ?_
          simp only [if_neg hcurrent, hkind, hparent]
          rw [if_pos hresets]
          exact .bind (.change _) (.pure _)
  · have hcurrent : (W.exit e).consumer ≠ g.current := fun heq => hend (hiff.mp heq)
    refine ⟨g, ?_, .refl hready hpristine, ?_⟩
    · unfold checkFlag
      refine .bind .get ?_
      simp only [if_pos hcurrent, hready.flag, answer_other W hend]
      exact .pure _
    · rintro l m up rfl rfl
      exact absurd rfl hend

theorem Frame.Settled.mono {e : Escape} {g' : Generation} (h : f.Settled e g)
    (hresets : ∀ m ∈ g.resets, m ∈ g'.resets) : f.Settled e g' :=
  fun l m up hf he => hresets _ (h l m up hf he)

theorem yields_checkFlags (hready : Ready W f g) (hshape : W.Shape f) (hpristine : Pristine n g)
    (hbelow : ∀ m ∈ f.stack, m ≤ n) (flags : List Escape) (hvalid : ∀ e ∈ flags, W.valid e) :
    ∃ g', Yields ((flags.map fun e => (W.flagName e, W.exit e)).mapM fun (flag, e) => checkFlag flag e) g
        (flags.map fun e => [f.answer W e]) g' ∧
      Advances W f n n g g' [] ∧ ∀ e ∈ flags, f.Settled e g' := by
  induction flags generalizing g with
  | nil => exact ⟨g, .pure _, .refl hready hpristine, by simp⟩
  | cons e flags ih =>
      obtain ⟨g₁, hyields₁, hadvances₁, hsettled₁⟩ :=
        yields_checkFlag hready hshape hpristine hbelow (hvalid e (by simp))
      obtain ⟨g₂, hyields₂, hadvances₂, hsettled₂⟩ :=
        ih hadvances₁.ready hadvances₁.pristine (fun x hx => hvalid x (by simp [hx]))
      refine ⟨g₂, ?_, hadvances₁.trans hadvances₂ (Nat.le_refl n), ?_⟩
      · rw [List.map_cons, List.mapM_cons]
        exact .bind hyields₁ (.bind hyields₂ (.pure _))
      · intro x hx
        rcases List.mem_cons.mp hx with rfl | hx
        · exact hsettled₁.mono hadvances₂.grown.resets
        · exact hsettled₂ x hx

theorem exists_map_eq {α β : Type} {P : α → Prop} {h : α → β} {bs : List β}
    (hbs : ∀ b ∈ bs, ∃ a, P a ∧ b = h a) : ∃ as : List α, bs = as.map h ∧ ∀ a ∈ as, P a := by
  induction bs with
  | nil => exact ⟨[], rfl, by simp⟩
  | cons b bs ih =>
      obtain ⟨a, ha, rfl⟩ := hbs b (by simp)
      obtain ⟨as, rfl, has⟩ := ih fun x hx => hbs x (by simp [hx])
      refine ⟨a :: as, rfl, ?_⟩
      intro x hx
      rcases List.mem_cons.mp hx with rfl | hx
      · exact ha
      · exact has x hx

/-- The tests owed behind the call of a region. -/
theorem yields_afterCall (hready : Ready W f g) (hshape : W.Shape f) (hpristine : Pristine n g)
    (hbelow : ∀ m ∈ f.stack, m ≤ n) (callee : Nat) :
    ∃ (flags : List Escape) (g' : Generation), Yields (afterCall callee) g (flags.map (f.answer W)) g' ∧
      Advances W f n n g g' [] ∧ (∀ e ∈ flags, W.valid e ∧ f.Settled e g') ∧
      ∀ e, W.valid e → W.flagName e ∈ g.flagsAt callee → e ∈ flags := by
  obtain ⟨flags, hflags, hregistered⟩ :=
    @exists_map_eq _ _ (fun e => W.valid e ∧ g.exits.lookup (W.flagName e) = some (W.exit e)) W.flagName
      ((g.flagsAt callee).mergeSort textLe) (by
        intro flag hflag
        obtain ⟨e, he, rfl, hlookup⟩ := hready.of_mem_flags (List.mem_mergeSort.mp hflag)
        exact ⟨e, ⟨he, hlookup⟩, rfl⟩)
  have howed : owedChecks g callee = flags.map fun e => (W.flagName e, W.exit e) := by
    unfold owedChecks
    have hsorted : (g.regions.at? callee).flags.mergeSort textLe = flags.map W.flagName := hflags
    rw [hsorted, List.filterMap_map]
    rw [List.filterMap_congr (g := fun e => some (W.flagName e, W.exit e))]
    · exact congrFun List.filterMap_eq_map flags
    · intro e he
      simp [(hregistered e he).2]
  obtain ⟨g', hyields, hadvances, hsettled⟩ := yields_checkFlags hready hshape hpristine hbelow flags
    fun e he => (hregistered e he).1
  refine ⟨flags, g', ?_, hadvances, fun e he => ⟨(hregistered e he).1, hsettled e he⟩, ?_⟩
  · unfold afterCall
    refine .bind .get ?_
    rw [howed]
    refine .bind hyields ?_
    have hflatten : (flags.map fun e => [f.answer W e]).flatten = flags.map (f.answer W) := by
      rw [← List.flatMap_def, ← List.map_eq_flatMap]
    rw [← hflatten]
    exact .pure _
  · intro e he hmem
    have hmem' : W.flagName e ∈ flags.map W.flagName := by
      rw [← hflags]
      exact List.mem_mergeSort.mpr hmem
    obtain ⟨e', he', hname⟩ := List.mem_map.mp hmem'
    rw [← W.flag_inj (hregistered e' he').1 he hname]
    exact he'

end Datapack.Generation
