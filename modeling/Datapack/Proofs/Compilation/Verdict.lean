import Datapack.Compilation.Compile
import Datapack.Proofs.Generation.Errors

/-!
# The verdict of a compilation

A compilation that comes to a verdict reports a success exactly when every phase went through.  Errors
travel on two ways: a phase may end the compilation, or leave a finding and go on.  No phase takes a finding
back, so that what is in the bag at the end accounts for both.  The stages say how far the phases came: a
program is valid from the stage on at which it is optimized, and writers run behind the stage at which it is
generated.  A compilation that aborts comes to no verdict; `Aborts` says where that happens.
-/

namespace Datapack

/-! ## Writers -/

namespace Output

variable {κ : Type} [Dependency.Bucket κ]

/-- A writer takes no finding back. -/
def Writer.Reports (w : Writer κ) : Prop :=
  ∀ s : Site κ, s.generation.diagnostics <+: (w.write s).1.generation.diagnostics

section

-- What one write does to the disk plays no part here.
attribute [local irreducible] Disk.writeText

theorem Site.writeFiles_cons (s : Site κ) (path text : String) (files : List (String × String)) :
    s.writeFiles ((path, text) :: files) =
      let (disk, fault) := s.depot.disk.writeText path text
      let s := { s with depot := { s.depot with disk } }
      match fault with
      | some fault => (s, some (.disk fault))
      | none => s.writeFiles files := rfl

theorem Site.generation_writeFiles (s : Site κ) (files : List (String × String)) :
    (s.writeFiles files).1.generation = s.generation := by
  induction files generalizing s with
  | nil => rfl
  | cons file files ih =>
      obtain ⟨path, text⟩ := file
      rw [Site.writeFiles_cons]
      dsimp only
      split
      · rfl
      · rw [ih]

theorem Site.writeChecked_cons (s : Site κ) (file : String × String) (files : List (String × String)) :
    s.writeChecked (file :: files) =
      if s.isCancelled then (s, some .cancelled)
      else
        match s.checked.writeFiles [file] with
        | (s, none) => s.writeChecked files
        | failed => failed := rfl

theorem Site.generation_writeChecked (s : Site κ) (files : List (String × String)) :
    (s.writeChecked files).1.generation = s.generation := by
  induction files generalizing s with
  | nil => rfl
  | cons file files ih =>
      have hfirst : (s.checked.writeFiles [file]).1.generation = s.generation :=
        s.checked.generation_writeFiles [file]
      rw [Site.writeChecked_cons]
      generalize s.checked.writeFiles [file] = r at hfirst ⊢
      obtain ⟨s', e⟩ := r
      split
      · rfl
      · cases e with
        | none => exact (ih s').trans hfirst
        | some fault => exact hfirst

end

theorem Site.generation_tell (s : Site κ) (line : ProgressLine) : (s.tell line).generation = s.generation := by
  unfold Site.tell
  split <;> rfl

theorem reports_ofFiles (name : String) (files : Generation → List (String × String)) :
    (Writer.ofFiles name files : Writer κ).Reports := by
  intro s
  change _ <+: (s.writeFiles _).1.generation.diagnostics
  rw [s.generation_writeFiles]

theorem reports_commandWriter (time : String) : (commandWriter time : Writer κ).Reports := by
  intro s
  change _ <+: (s.writeChecked _).1.generation.diagnostics
  rw [s.generation_writeChecked]

theorem findings_addDependency (s : Site κ) (dep : Config.Dependency) :
    s.generation.diagnostics <+: (addDependency s dep).1.generation.diagnostics := by
  unfold addDependency
  split
  · dsimp only
    split
    · exact List.prefix_rfl
    · exact List.prefix_append _ _
  · dsimp only
    rw [Site.generation_tell]

theorem findings_addDependencies (deps : List Config.Dependency) (s : Site κ) :
    s.generation.diagnostics <+: (addDependencies deps s).1.generation.diagnostics := by
  induction deps generalizing s with
  | nil => exact List.prefix_rfl
  | cons dep deps ih =>
      have hfirst := findings_addDependency s dep
      unfold addDependencies
      split
      · next s' h =>
        rw [h] at hfirst
        exact hfirst.trans (ih s')
      · exact hfirst

theorem reports_dependencyWriter (installs : Bool) : (dependencyWriter installs : Writer κ).Reports := by
  intro s
  unfold dependencyWriter
  dsimp only
  split
  · exact List.prefix_rfl
  · split
    · exact findings_addDependencies _ s
    · exact List.prefix_rfl

theorem reports_programWriter (dump : Ir.Program → String) : (programWriter dump : Writer κ).Reports := by
  intro s
  have hlisting := s.generation_writeFiles
  have hkept : ((programWriter dump).write s).1.generation = s.generation := by
    unfold programWriter
    dsimp only
    split
    · split
      · next s' h =>
        have hs' : s'.generation = s.generation := by rw [← hlisting, h]
        split
        · rw [Site.generation_writeFiles, hs']
        · exact hs'
      · exact hlisting _
    · rfl
  rw [hkept]

theorem reports_standardWriters (time : String) (installs : Bool) (dump : Ir.Program → String) :
    ∀ w ∈ (standardWriters time installs dump : List (Writer κ)), w.Reports := by
  unfold standardWriters
  simp only [List.forall_mem_cons]
  exact ⟨reports_commandWriter time, reports_ofFiles _ _, reports_dependencyWriter installs,
    reports_ofFiles _ _, reports_ofFiles _ _, reports_programWriter dump, nofun⟩

theorem findings_runWriters {ws : List (Writer κ)} (hws : ∀ w ∈ ws, w.Reports) (s : Site κ) :
    s.generation.diagnostics <+: (runWriters ws s).1.generation.diagnostics := by
  induction ws generalizing s with
  | nil => exact List.prefix_rfl
  | cons w ws ih =>
      obtain ⟨hw, hws⟩ := List.forall_mem_cons.1 hws
      have hfirst := hw s.checked
      unfold runWriters
      split
      · exact List.prefix_rfl
      · split
        · next s' h =>
          rw [h] at hfirst
          have hrest := ih hws (s'.tell (.wrote w.name))
          rw [Site.generation_tell] at hrest
          exact hfirst.trans hrest
        · next s' h =>
          rw [h] at hfirst
          exact hfirst
        · next s' fault _ h =>
          rw [h] at hfirst
          split
          · exact hfirst
          · have hreported := List.prefix_append s'.generation.diagnostics
              [Diagnostic.writerFailed w.name fault.message]
            exact (hfirst.trans hreported).trans (ih hws (s'.report _))

theorem aborted_runWriters {ws : List (Writer κ)} {s : Site κ} {name : String}
    (h : (runWriters ws s).2 = some (.writer name .aborted)) :
    ∃ w ∈ ws, ∃ site, (w.write site).2 = some .aborted := by
  induction ws generalizing s with
  | nil => cases h
  | cons w ws ih =>
      have hrest : ∀ {s : Site κ}, (runWriters ws s).2 = some (.writer name .aborted) →
          ∃ w' ∈ w :: ws, ∃ site, (w'.write site).2 = some .aborted := fun h =>
        (ih h).imp fun _ hw => ⟨List.mem_cons_of_mem _ hw.1, hw.2⟩
      unfold runWriters at h
      split at h
      · cases h
      · split at h
        · exact hrest h
        · next s' hw => exact ⟨w, List.mem_cons_self, s.checked, congrArg Prod.snd hw⟩
        · next s' fault hfault hw =>
          split at h
          · exact absurd (by injection h with h; injection h) hfault
          · exact hrest h

end Output

namespace Compilation

open Output

variable {σ κ : Type} [Dependency.Bucket κ] {s : Setup σ κ} {c c' : Compilation σ κ} {e : Option Fault}

/-! ## Phases -/

@[simp] theorem program_tell (c : Compilation σ κ) (line : ProgressLine) :
    (c.tell line).program = c.program := by
  unfold tell
  split <;> rfl

@[simp] theorem diagnostics_tell (c : Compilation σ κ) (line : ProgressLine) :
    (c.tell line).diagnostics = c.diagnostics := by
  unfold tell
  split <;> rfl

@[simp] theorem generation_tell (c : Compilation σ κ) (line : ProgressLine) :
    (c.tell line).generation = c.generation := by
  unfold tell
  split <;> rfl

/-- A compilation that has come to the stage `reached` and has taken back no finding of `c₀`. -/
structure Stands (reached : Stage) (c₀ c : Compilation σ κ) : Prop where
  stage : c.stage = reached
  findings : c₀.diagnostics <+: c.diagnostics
  valid : reached ∈ [Stage.optimized, .generated, .written] → c.program.problems = []
  depot : reached ∈ [Stage.notStarted, .validated, .optimized] → c.depot = c₀.depot
  generation : reached = .generated → ∃ g, c.generation = some g ∧ g.diagnostics = c.diagnostics

theorem Stands.refl {reached : Stage} {c₀ c : Compilation σ κ} (h : Stands reached c₀ c) :
    Stands reached c c :=
  ⟨h.stage, List.prefix_rfl, h.valid, fun _ => rfl, h.generation⟩

theorem Stands.tell {reached : Stage} {c₀ c : Compilation σ κ} (h : Stands reached c₀ c)
    (line : ProgressLine) : Stands reached c₀ (c.tell line) := by
  unfold Compilation.tell
  split
  · exact ⟨h.stage, h.findings, h.valid, h.depot, h.generation⟩
  · exact h

/-- Where a compilation aborts: before the generation of a program that opens the body of a function without
defining one, and at a writer that aborts. -/
inductive Aborts (s : Setup σ κ) (c : Compilation σ κ) : Prop where
  | unnamed {t : Ir.ScopeTree} {n : Nat} (hstage : c.stage = .optimized)
      (ht : Ir.ScopeTree.ofStream c.program.code = .ok t) (hn : (n, none) ∈ Ir.functionScopes c.program.code t)
  | writer {w : Writer κ} {site : Site κ} (hstage : c.stage = .generated) (hw : w ∈ s.writers)
      (habort : (w.write site).2 = some .aborted)

/-- A result that reaches the stage `after`, or ends at the stage `before`. -/
structure Comes (s : Setup σ κ) (before after : Stage) (c₀ : Compilation σ κ) (r : Result σ κ) :
    Prop where
  stands : Stands (if r.2 = none then after else before) c₀ r.1
  aborts : ∀ e, r.2 = some e → e.isAbort = true → Aborts s r.1

namespace Stands

variable {before after : Stage} {c₀ : Compilation σ κ}

theorem comes (h : Stands after c₀ c) : Comes s before after c₀ (c, none) :=
  ⟨h, fun _ he _ => nomatch he⟩

theorem comes_fail (h : Stands before c₀ c) {e : Fault} (he : e.isAbort = true → Aborts s c) :
    Comes s before after c₀ (c.fail e) :=
  ⟨h, fun _ heq habort => he (Option.some.inj heq ▸ habort)⟩

theorem reported (h : Stands before c₀ c) (hbefore : before ≠ .generated) (ds : Bag) :
    Stands before c₀ { c with diagnostics := c.diagnostics ++ ds } :=
  ⟨h.stage, h.findings.trans (List.prefix_append _ _), h.valid, h.depot, fun heq => absurd heq hbefore⟩

theorem check (h : Stands before c₀ c) (hbefore : before ≠ .generated) :
    Comes s before before c₀ c.check ∧ (c.check.2 = none → c.check.1.program.problems = []) := by
  unfold Compilation.check
  split
  · next hvalid => exact ⟨h.comes, fun _ => hvalid⟩
  · exact ⟨(h.reported hbefore _).comes_fail nofun, nofun⟩

theorem advance (h : Stands before c₀ c) (hnext : before.canAdvance after = true)
    (hafter : Stands after c₀ { c with stage := after }) : Comes s before after c₀ (c.advance after) := by
  rw [Compilation.advance, h.stage, if_pos hnext]
  exact hafter.comes

end Stands

theorem Comes.andThen {before between after : Stage} {c₀ : Compilation σ κ} {r : Result σ κ}
    {next : Compilation σ κ → Result σ κ} (h : Comes s before between c₀ r)
    (hnext : r.2 = none → Stands between c₀ r.1 → Comes s before after c₀ (next r.1)) :
    Comes s before after c₀ (r.andThen next) := by
  rcases r with ⟨c, _ | e⟩
  · exact hnext rfl h.stands
  · exact ⟨h.stands, h.aborts⟩

/-- A phase leads from a stage to the next or stays behind. -/
def Leads (s : Setup σ κ) (before after : Stage) (phase : Compilation σ κ → Result σ κ) : Prop :=
  ∀ ⦃c₀ c⦄, Stands before c₀ c → Comes s before after c₀ (phase c)

theorem leads_validate (s : Setup σ κ) : Leads s .notStarted .validated validate := by
  intro c₀ c h
  have htold := h.tell (.phase 1 "Validate IR")
  refine (htold.check nofun).1.andThen fun _ hchecked => ?_
  have hchecked := hchecked.tell (.checked (c.tell (.phase 1 "Validate IR")).check.1.program.code.length)
  exact hchecked.advance rfl ⟨rfl, hchecked.findings, nofun, fun _ => hchecked.depot (by simp), nofun⟩

theorem Stands.runPasses {c₀ : Compilation σ κ} (h : Stands .validated c₀ c) (s : Setup σ κ)
    (schedule : Optimize.Schedule σ) : Comes s .validated .validated c₀ (c.runPasses s schedule) := by
  constructor
  · rw [ite_self]
    exact ⟨h.stage, h.findings.trans (List.prefix_append _ _), nofun, h.depot, nofun⟩
  · intro e he habort
    obtain ⟨_, -, rfl⟩ := Option.map_eq_some_iff.1 he
    cases habort

theorem leads_optimize (s : Setup σ κ) : Leads s .validated .optimized (·.optimize s) := by
  intro c₀ c h
  dsimp only [optimize]
  have htold := h.tell (.phase 2 ("Optimize (" ++ c.config.level.text ++ ")"))
  split
  · exact (htold.reported nofun _).comes_fail nofun
  · next schedule _ =>
    refine (htold.runPasses s schedule).andThen fun _ hran => ?_
    obtain ⟨hcheck, hvalid⟩ := hran.check nofun
    refine hcheck.andThen fun hok hchecked => ?_
    refine (hchecked.tell _).advance rfl
      ⟨rfl, (hchecked.tell _).findings, fun _ => ?_, fun _ => (hchecked.tell _).depot (by simp), nofun⟩
    rw [program_tell]
    exact hvalid hok

theorem mem_of_select {cfg : Config} {generator : Generation.Generator}
    (h : Generation.select cfg = .ok generator) : generator ∈ Generation.generators := by
  unfold Generation.select at h
  split at h <;> split at h <;> cases h
  · exact List.mem_of_find?_eq_some ‹_›
  · exact List.mem_of_find?_eq_some ‹_›

theorem findings_generate {cfg : Config} {generator : Generation.Generator}
    (h : Generation.select cfg = .ok generator) (g : Generation) :
    g.diagnostics <+: (generator.generate g).1.diagnostics := by
  obtain rfl : generator = Generation.javaEdition := List.mem_singleton.1 (mem_of_select h)
  exact g.findings_lower

theorem diagnostics_of_start {cfg : Config} {p : Ir.Program} {ds : Bag} {newId : Nat → String}
    {g : Generation} (h : Generation.start cfg p ds newId = .ok g) : g.diagnostics = ds := by
  unfold Generation.start at h
  split at h
  · cases h
  · split at h
    · cases h
    · cases h
      rfl

theorem unnamed_of_start {cfg : Config} {p : Ir.Program} {ds : Bag} {newId : Nat → String}
    (h : Generation.start cfg p ds newId = .error .undefinedFunction) :
    ∃ t, Ir.ScopeTree.ofStream p.code = .ok t ∧ ∃ n, (n, none) ∈ Ir.functionScopes p.code t := by
  have hbodies : ∀ scopes, Generation.bodies scopes = none → ∃ n, (n, none) ∈ scopes := by
    intro scopes hnone
    induction scopes with
    | nil => cases hnone
    | cons scope scopes ih =>
        obtain ⟨n, _ | f⟩ := scope
        · exact ⟨n, List.mem_cons_self⟩
        · obtain ⟨m, hm⟩ := ih (Option.map_eq_none_iff.1 hnone)
          exact ⟨m, List.mem_cons_of_mem _ hm⟩
  unfold Generation.start at h
  split at h
  · cases h
  · next t ht =>
    split at h
    · next hnone => exact ⟨t, ht, hbodies _ hnone⟩
    · cases h

theorem leads_generate (s : Setup σ κ) : Leads s .optimized .generated (·.generate s) := by
  intro c₀ c h
  dsimp only [generate]
  have htold := h.tell (.phase 3 "Generate")
  split
  · exact (htold.reported nofun _).comes_fail nofun
  · next generator hgenerator =>
    split
    · next e hstart =>
      have hended : Stands .optimized c₀ { c.tell (.phase 3 "Generate") with generator := generator.name } :=
        ⟨htold.stage, htold.findings, htold.valid, htold.depot, nofun⟩
      refine hended.comes_fail fun habort => ?_
      cases e with
      | unbalanced fault => cases habort
      | undefinedFunction =>
          obtain ⟨t, ht, n, hn⟩ := unnamed_of_start hstart
          exact .unnamed hended.stage ht hn
    · next g hstart =>
      have hgrown := findings_generate hgenerator g
      rw [diagnostics_of_start hstart] at hgrown
      split
      · next g' e hrun =>
        rw [hrun] at hgrown
        have hended : Stands .optimized c₀ { c.tell (.phase 3 "Generate") with
            generator := generator.name, diagnostics := g'.diagnostics } :=
          ⟨htold.stage, htold.findings.trans hgrown, htold.valid, htold.depot, nofun⟩
        exact hended.comes_fail nofun
      · next g' hrun =>
        rw [hrun] at hgrown
        have hmade : Stands .optimized c₀ { c.tell (.phase 3 "Generate") with
            generator := generator.name, diagnostics := g'.diagnostics, generation := some g' } :=
          ⟨htold.stage, htold.findings.trans hgrown, htold.valid, htold.depot, nofun⟩
        refine (hmade.tell _).advance rfl ⟨rfl, (hmade.tell _).findings,
          fun _ => (hmade.tell _).valid (by simp), nofun, fun _ => ⟨g', ?_, ?_⟩⟩
        · rw [generation_tell]
        · rw [diagnostics_tell]

theorem eq_aborted_of_isAbort {e : OutputFault} (h : (Fault.output e).isAbort = true) :
    ∃ name, e = .writer name .aborted := by
  unfold Fault.isAbort at h
  split at h
  · next heq => cases heq
  · next name heq => exact ⟨name, Fault.output.inj heq⟩
  · cases h

theorem leads_write {s : Setup σ κ} (hreports : ∀ w ∈ s.writers, w.Reports) :
    Leads s .generated .written (·.write s) := by
  intro c₀ c h
  have htold := h.tell (.phase 4 "Write pack")
  obtain ⟨g, hg, hsame⟩ := htold.generation rfl
  dsimp only [write]
  rw [hg]
  dsimp only
  generalize hstart : (c.tell (.phase 4 "Write pack")).site s g = start
  have hfirst : start.generation = g := by rw [← hstart]; rfl
  have hgrown := findings_runWriters hreports start
  have haborted := @aborted_runWriters κ _ s.writers start
  rw [hfirst, hsame] at hgrown
  generalize runWriters s.writers start = ran at hgrown haborted ⊢
  obtain ⟨site, e⟩ := ran
  have hdone : Stands .generated c₀ { c.tell (.phase 4 "Write pack") with
      generation := some site.generation, depot := site.depot
      diagnostics := site.generation.diagnostics
      progress := (c.tell (.phase 4 "Write pack")).progress ++ site.progress
      checks := (c.tell (.phase 4 "Write pack")).checks + site.checks } :=
    ⟨htold.stage, htold.findings.trans hgrown, htold.valid, nofun, fun _ => ⟨site.generation, rfl, rfl⟩⟩
  cases e with
  | none => exact hdone.advance rfl ⟨rfl, hdone.findings, fun _ => hdone.valid (by simp), nofun, nofun⟩
  | some e =>
      refine hdone.comes_fail fun habort => ?_
      obtain ⟨name, rfl⟩ := eq_aborted_of_isAbort habort
      obtain ⟨w, hw, site', hsite'⟩ := haborted rfl
      exact .writer hdone.stage hw hsite'

theorem leads_conclude (s : Setup σ κ) : Leads s .written .written conclude := by
  intro c₀ c h
  unfold conclude
  split
  · exact h.comes_fail nofun
  · exact (h.tell _).comes

/-! ## Runs -/

/-- A phase with the stage it leads to. -/
structure Phase (σ κ : Type) [Dependency.Bucket κ] where
  goal : Stage
  act : Compilation σ κ → Result σ κ

def phases (s : Setup σ κ) : List (Phase σ κ) :=
  [⟨.validated, validate⟩, ⟨.optimized, (·.optimize s)⟩, ⟨.generated, (·.generate s)⟩,
    ⟨.written, (·.write s)⟩, ⟨.written, conclude⟩]

def runPhases : List (Phase σ κ) → Compilation σ κ → Result σ κ
  | [], c => (c, none)
  | phase :: rest, c => Result.andThen (phase.act c) (runPhases rest)

/-- The results of phases in a row one by one, up to the one that ends the compilation. -/
def trail : List (Phase σ κ) → Compilation σ κ → List (Result σ κ)
  | [], _ => []
  | phase :: rest, c => phase.act c :: if (phase.act c).2 = none then trail rest (phase.act c).1 else []

/-- Each phase begins where the one before it leads to. -/
def Linked (s : Setup σ κ) : Stage → List (Phase σ κ) → Prop
  | _, [] => True
  | stage, phase :: rest => Leads s stage phase.goal phase.act ∧ Linked s phase.goal rest

theorem Result.andThen_ok (r : Result σ κ) : r.andThen (·, none) = r := by
  rcases r with ⟨c, _ | e⟩ <;> rfl

theorem runPhases_single (phase : Phase σ κ) : runPhases [phase] = phase.act :=
  funext fun c => (phase.act c).andThen_ok

theorem run_eq (s : Setup σ κ) : run s = runPhases (phases s) := by
  have hconclude : runPhases [(⟨.written, conclude⟩ : Phase σ κ)] = conclude := runPhases_single _
  funext c
  unfold run
  rw [← hconclude]
  rfl

theorem linked_phases {s : Setup σ κ} (hreports : ∀ w ∈ s.writers, w.Reports) :
    Linked s .notStarted (phases s) :=
  ⟨leads_validate s, leads_optimize s, leads_generate s, leads_write hreports, leads_conclude s, trivial⟩

variable {stage : Stage} {ps : List (Phase σ κ)} {c₀ : Compilation σ κ}

/-- Phases in a row come as far as one of their goals, and as far as the last if none ends the compilation. -/
theorem Linked.stands (hlinked : Linked s stage ps) (h : Stands stage c₀ c) :
    ∃ reached ∈ stage :: ps.map (·.goal), Stands reached c₀ (runPhases ps c).1 ∧
      ((runPhases ps c).2 = none → reached = (ps.map (·.goal)).getLastD stage) ∧
      ∀ e, (runPhases ps c).2 = some e → e.isAbort = true → Aborts s (runPhases ps c).1 := by
  induction ps generalizing stage c with
  | nil => exact ⟨stage, List.mem_singleton_self _, h, fun _ => rfl, fun _ he _ => nomatch he⟩
  | cons phase rest ih =>
      obtain ⟨hleads, hrest⟩ := hlinked
      have hcomes := hleads h
      unfold runPhases
      generalize phase.act c = r at hcomes ⊢
      rcases r with ⟨c', _ | e⟩
      · obtain ⟨reached, hmem, hstands, hlast, haborts⟩ := ih hrest hcomes.stands
        refine ⟨reached, List.mem_cons_of_mem _ hmem, hstands, fun hnone => ?_, haborts⟩
        rw [hlast hnone, List.map_cons, List.getLastD_cons]
      · exact ⟨stage, List.mem_cons_self, hcomes.stands, nofun, hcomes.aborts⟩

/-- Every result on the way stands at some stage, and what was found up to it stays. -/
theorem Linked.results (hlinked : Linked s stage ps) (h : Stands stage c₀ c) :
    ∀ r ∈ trail ps c, r.1.diagnostics <+: (runPhases ps c).1.diagnostics ∧
      ∃ reached, Stands reached c₀ r.1 := by
  induction ps generalizing stage c with
  | nil => exact List.forall_mem_nil _
  | cons phase rest ih =>
      obtain ⟨hleads, hrest⟩ := hlinked
      have hcomes := hleads h
      unfold trail runPhases
      generalize phase.act c = r at hcomes ⊢
      rcases r with ⟨c', _ | e⟩
      · obtain ⟨_, _, hfinal, _⟩ := hrest.stands hcomes.stands.refl
        rintro r (_ | ⟨_, hr⟩)
        · exact ⟨hfinal.findings, _, hcomes.stands⟩
        · exact ih hrest hcomes.stands r hr
      · rintro r (_ | ⟨_, hr⟩)
        · exact ⟨List.prefix_rfl, _, hcomes.stands⟩
        · cases hr

theorem runPhases_append (ps qs : List (Phase σ κ)) (c : Compilation σ κ) :
    runPhases (ps ++ qs) c = Result.andThen (runPhases ps c) (runPhases qs) := by
  induction ps generalizing c with
  | nil => rfl
  | cons phase rest ih =>
      simp only [List.cons_append, runPhases]
      rcases phase.act c with ⟨c', _ | e⟩
      · exact ih c'
      · rfl

theorem no_errors_of_run {s : Setup σ κ} (h : (run s c).2 = none) :
    (run s c).1.diagnostics.hasErrors = false := by
  have hrun : run s = runPhases ((phases s).dropLast ++ [⟨.written, conclude⟩]) := run_eq s
  rw [hrun, runPhases_append, runPhases_single] at h ⊢
  generalize runPhases (phases s).dropLast c = r at h ⊢
  rcases r with ⟨c', _ | e⟩
  · unfold Result.andThen conclude at h ⊢
    dsimp only at h ⊢
    split at h
    · cases h
    · next hclean =>
      rw [if_neg hclean, diagnostics_tell]
      exact Bool.eq_false_iff.2 hclean
  · cases h

/-- A compilation that ends before its pack is generated does not depend on its writers. -/
theorem run_of_ungenerated {s : Setup σ κ} (hreports : ∀ w ∈ s.writers, w.Reports)
    (h : Stands .notStarted c c)
    (hstage : (run s c).1.stage ∈ [Stage.notStarted, .validated, .optimized]) (ws : List (Writer κ)) :
    run { s with writers := ws } c = run s c := by
  have hrun (ws : List (Writer κ)) : run { s with writers := ws } = runPhases ((phases s).take 3 ++
      (phases { s with writers := ws }).drop 3) := run_eq _
  have hlinked : Linked s .notStarted ((phases s).take 3) :=
    ⟨leads_validate s, leads_optimize s, leads_generate s, trivial⟩
  rw [show s = { s with writers := s.writers } from rfl, hrun, runPhases_append] at hstage
  rw [hrun, show run s = _ from hrun s.writers, runPhases_append, runPhases_append]
  obtain ⟨reached, _, hstands, hlast, -⟩ := hlinked.stands h
  generalize runPhases ((phases s).take 3) c = r at hstands hlast hstage ⊢
  rcases r with ⟨c', _ | e⟩
  · obtain rfl := hlast rfl
    have hrest : Linked s .generated ((phases s).drop 3) :=
      ⟨leads_write hreports, leads_conclude s, trivial⟩
    obtain ⟨reached, hmem, hfinal, -⟩ := hrest.stands hstands
    have hlate : ∀ late ∈ [Stage.generated, .written, .written],
        late ∉ [Stage.notStarted, .validated, .optimized] := by decide
    change (runPhases ((phases s).drop 3) c').1.stage ∈ _ at hstage
    rw [hfinal.stage] at hstage
    exact absurd hstage (hlate reached hmem)
  · rfl

/-! ## Requests -/

theorem prepare_eq_ok_iff {d : Disk} {q : Request} {p : Ir.Program} :
    prepare d q = .ok p ↔ load d q.input = .ok p ∧ q.config.problems = [] := by
  unfold prepare
  rcases load d q.input with e | p'
  · exact ⟨nofun, nofun⟩
  · rcases q.config.problems with _ | ⟨problem, problems⟩
    · exact ⟨fun h => ⟨h, rfl⟩, And.left⟩
    · exact ⟨nofun, nofun⟩

/-- The compilation of a program before its first phase. -/
def initial (world : σ) (depot : Dependency.Depot κ) (q : Request) (p : Ir.Program) : Compilation σ κ :=
  { config := q.config, program := p, world, depot }

theorem stands_initial (world : σ) (depot : Dependency.Depot κ) (q : Request) (p : Ir.Program) :
    Stands .notStarted (initial world depot q p) (initial world depot q p) :=
  ⟨rfl, List.prefix_rfl, nofun, fun _ => rfl, nofun⟩

/-- A request has its input loaded, its configuration accepted, and its program taken through the phases. -/
def Runs (s : Setup σ κ) (world : σ) (depot : Dependency.Depot κ) (q : Request) (p : Ir.Program)
    (r : Result σ κ) : Prop :=
  load depot.disk q.input = .ok p ∧ q.config.problems = [] ∧ run s (initial world depot q p) = r

theorem findings?_eq_none_iff {c : Compilation σ κ} {e : Option Fault} :
    findings? c e = none ↔ ∃ f, e = some f ∧ f.isAbort = true := by
  rcases e with _ | f
  · exact ⟨fun h => (nomatch h), fun ⟨_, h, _⟩ => nomatch h⟩
  · unfold findings?
    dsimp only
    split
    · next habort => exact ⟨fun _ => ⟨f, rfl, habort⟩, fun _ => rfl⟩
    · next hends =>
      refine ⟨fun h => (nomatch h), ?_⟩
      rintro ⟨_, ⟨⟩, habort⟩
      exact absurd habort hends

/-- What was found stays, and an early end comes with an error. -/
theorem prefix_of_findings? {c : Compilation σ κ} {e : Option Fault} {b : Bag} (h : findings? c e = some b) :
    c.diagnostics <+: b ∧ (e ≠ none → b.hasErrors = true) := by
  rcases e with _ | e
  · obtain rfl := Option.some.inj h
    exact ⟨List.prefix_rfl, fun hnone => absurd rfl hnone⟩
  · unfold findings? at h
    dsimp only at h
    split at h
    · cases h
    · obtain rfl := Option.some.inj h
      split
      · exact ⟨List.prefix_rfl, fun _ => ‹_›⟩
      · exact ⟨List.prefix_append _ _,
          fun _ => by simp [Bag.hasErrors, Bag.errorCount, Bag.count, unexplained]⟩

theorem hasErrors_findings?_iff {s : Setup σ κ} {b : Bag} (h : findings? (run s c).1 (run s c).2 = some b) :
    b.hasErrors = false ↔ (run s c).2 = none := by
  constructor
  · intro hclean
    by_contra hended
    rw [(prefix_of_findings? h).2 hended] at hclean
    cases hclean
  · intro hdone
    have hclean := no_errors_of_run hdone
    rw [hdone] at h
    exact Option.some.inj h ▸ hclean

theorem LoadFault.hasErrors_diagnostic (e : LoadFault) : Bag.hasErrors [e.diagnostic] = true := by
  cases e <;> rfl

def outcome (q : Request) (r : Result σ κ) : Outcome κ :=
  { verdict := (findings? r.1 r.2).map (q.verdict r.1.stage)
    printed :=
      progressText q.colours r.1.progress ++ if r.2.isNone && q.summary then r.1.summary q.colours else ""
    depot := r.1.depot }

theorem compile_of_prepare {world : σ} {depot : Dependency.Depot κ} {q : Request} {p : Ir.Program}
    (h : prepare depot.disk q = .ok p) (s : Setup σ κ) :
    compile s world depot q = outcome q (run s (initial world depot q p)) := by
  unfold compile
  rw [h]
  rfl

theorem runs_iff {s : Setup σ κ} {world : σ} {depot : Dependency.Depot κ} {q : Request} {p p' : Ir.Program}
    {r : Result σ κ} (h : prepare depot.disk q = .ok p) :
    Runs s world depot q p' r ↔ p' = p ∧ run s (initial world depot q p) = r := by
  constructor
  · rintro ⟨hload, hconfig, hrun⟩
    rw [prepare_eq_ok_iff.2 ⟨hload, hconfig⟩] at h
    cases h
    exact ⟨rfl, hrun⟩
  · rintro ⟨rfl, hrun⟩
    obtain ⟨hload, hconfig⟩ := prepare_eq_ok_iff.1 h
    exact ⟨hload, hconfig, hrun⟩

theorem compile_of_refused {world : σ} {depot : Dependency.Depot κ} {q : Request} {e : LoadFault}
    (h : prepare depot.disk q = .error e) (s : Setup σ κ) : compile s world depot q =
      { verdict := some (q.verdict .notStarted [e.diagnostic]), depot } := by
  unfold compile
  rw [h]

theorem not_runs_of_refused {s : Setup σ κ} {world : σ} {depot : Dependency.Depot κ} {q : Request}
    {e : LoadFault} (h : prepare depot.disk q = .error e) (p : Ir.Program) (r : Result σ κ) :
    ¬ Runs s world depot q p r := by
  rintro ⟨hload, hconfig, -⟩
  rw [prepare_eq_ok_iff.2 ⟨hload, hconfig⟩] at h
  cases h

theorem hasErrors_mono {b b' : Bag} (h : b <+: b') (hb : b.hasErrors = true) :
    b'.hasErrors = true := by
  unfold Bag.hasErrors Bag.errorCount Bag.count at hb ⊢
  exact decide_eq_true ((of_decide_eq_true hb).trans_le (h.sublist.countP_le))

/-- A verdict accounts for what was done on a request.  A success is reported exactly for a request that is
loaded and accepted and whose program goes through all phases.  The pack is written then, and no phase has
left an error; on any other request there is an error among the findings.  A program that got as far as to
be optimized is valid, and short of a generated pack no writer has run: nothing depends on the writers, and
the depot is as before. -/
structure Verdict.Accounts (s : Setup σ κ) (world : σ) (depot : Dependency.Depot κ) (q : Request)
    (v : Verdict) : Prop where
  success : v.success = true ↔ ∃ p c, Runs s world depot q p (c, none)
  clean : v.success = true → v.stage = .written ∧ ∀ p r, Runs s world depot q p r →
    ∀ r' ∈ trail (phases s) (initial world depot q p), r'.1.diagnostics.hasErrors = false
  failure : v.success = false → v.findings.hasErrors = true
  findings : ∀ p r, Runs s world depot q p r → r.1.diagnostics <+: v.findings
  report : v.report = q.reportText v.findings
  stage : v.stage ≠ .notStarted → ∃ p r, Runs s world depot q p r ∧ r.1.stage = v.stage
  valid : ∀ p r, Runs s world depot q p r → ∀ r' ∈ r :: trail (phases s) (initial world depot q p),
    r'.1.stage ∈ [Stage.optimized, .generated, .written] → r'.1.program.problems = []
  untouched : v.stage ∈ [Stage.notStarted, .validated, .optimized] →
    (compile s world depot q).depot = depot ∧
      ∀ ws, compile { s with writers := ws } world depot q = compile s world depot q

theorem accounts_of_refused {world : σ} {depot : Dependency.Depot κ} {q : Request} {e : LoadFault}
    (h : prepare depot.disk q = .error e) (s : Setup σ κ) :
    (q.verdict .notStarted [e.diagnostic]).Accounts s world depot q := by
  have hnone : ∀ p r, ¬ Runs s world depot q p r := not_runs_of_refused h
  have herror : Bag.hasErrors [e.diagnostic] = true := e.hasErrors_diagnostic
  have hfails : (q.verdict .notStarted [e.diagnostic]).success = false := by
    change (!Bag.hasErrors _) = false
    rw [herror]
    rfl
  refine ⟨?_, ?_, fun _ => herror, fun p r hr => absurd hr (hnone p r), rfl, fun h => absurd rfl h,
    fun p r hr => absurd hr (hnone p r), fun _ => ?_⟩
  · rw [hfails]
    exact ⟨nofun, fun ⟨p, c, hr⟩ => absurd hr (hnone p _)⟩
  · rw [hfails]
    nofun
  · rw [compile_of_refused h]
    exact ⟨rfl, fun ws => compile_of_refused h { s with writers := ws }⟩

theorem accounts_of_prepare {s : Setup σ κ} (hreports : ∀ w ∈ s.writers, w.Reports) {world : σ}
    {depot : Dependency.Depot κ} {q : Request} {p : Ir.Program} (h : prepare depot.disk q = .ok p) {b : Bag}
    (hb : findings? (run s (initial world depot q p)).1 (run s (initial world depot q p)).2 = some b) :
    (q.verdict (run s (initial world depot q p)).1.stage b).Accounts s world depot q := by
  have hstart := stands_initial world depot q p
  have hlinked := linked_phases hreports
  obtain ⟨reached, -, hstands, hlast, -⟩ := hlinked.stands hstart
  have hresults := hlinked.results hstart
  rw [← run_eq] at hstands hlast hresults
  have hcompile (ws : List (Writer κ)) := @compile_of_prepare σ κ _ world depot q p h { s with writers := ws }
  have hsuccess : (q.verdict (run s (initial world depot q p)).1.stage b).success = true ↔
      (run s (initial world depot q p)).2 = none := by
    change (!b.hasErrors) = true ↔ _
    rw [Bool.not_eq_true', hasErrors_findings?_iff hb]
  refine ⟨?_, fun hsucceeds => ⟨?_, ?_⟩, ?_, ?_, rfl, ?_, ?_, fun hearly => ?_⟩
  · rw [hsuccess]
    simp only [runs_iff h]
    exact ⟨fun hdone => ⟨p, _, rfl, Prod.ext rfl hdone⟩, fun ⟨_, _, _, hrun⟩ => by rw [hrun]⟩
  · exact hstands.stage.trans (hlast (hsuccess.1 hsucceeds))
  · intro p' r hr r' hr'
    obtain ⟨rfl, -⟩ := (runs_iff h).1 hr
    have hclean := no_errors_of_run (hsuccess.1 hsucceeds)
    rw [Bool.eq_false_iff] at hclean ⊢
    exact fun herror => hclean (hasErrors_mono (hresults r' hr').1 herror)
  · change (!b.hasErrors) = false → b.hasErrors = true
    rw [Bool.not_eq_false']
    exact id
  · intro p' r hr
    obtain ⟨-, rfl⟩ := (runs_iff h).1 hr
    exact (prefix_of_findings? hb).1
  · exact fun _ => ⟨p, _, (runs_iff h).2 ⟨rfl, rfl⟩, rfl⟩
  · intro p' r hr r' hr'
    obtain ⟨rfl, rfl⟩ := (runs_iff h).1 hr
    obtain ⟨stage, hstage⟩ : ∃ stage, Stands stage (initial world depot q p') r'.1 := by
      rcases List.mem_cons.1 hr' with rfl | hr'
      · exact ⟨reached, hstands⟩
      · exact (hresults r' hr').2
    rw [hstage.stage]
    exact hstage.valid
  · rw [compile_of_prepare h]
    refine ⟨hstands.depot (hstands.stage ▸ hearly), fun ws => ?_⟩
    rw [hcompile, run_of_ungenerated hreports hstart hearly]

/-- A request comes to a verdict that accounts for it, unless the compilation aborts.  Whatever is validated,
passed, generated, written or cancelled, it aborts only where the body of a function has none or a writer
aborts. -/
theorem compile_verdict (s : Setup σ κ) (time : String) (installs : Bool) (dump : Ir.Program → String)
    (hwriters : ∀ w ∈ s.writers, w ∈ standardWriters time installs dump ∨ w.Reports) (world : σ)
    (depot : Dependency.Depot κ) (q : Request) :
    ((compile s world depot q).verdict = none ↔
      ∃ p c e, Runs s world depot q p (c, some e) ∧ e.isAbort = true) ∧
    (∀ p c e, Runs s world depot q p (c, some e) → e.isAbort = true → Aborts s c) ∧
    ∀ v, (compile s world depot q).verdict = some v → v.Accounts s world depot q := by
  have hreports : ∀ w ∈ s.writers, w.Reports := fun w hw =>
    (hwriters w hw).elim (reports_standardWriters time installs dump w) id
  rcases hprepare : prepare depot.disk q with e | p
  · have hnone : ∀ p r, ¬ Runs s world depot q p r := not_runs_of_refused hprepare
    rw [compile_of_refused hprepare s]
    refine ⟨⟨nofun, fun ⟨_, _, _, hr, _⟩ => absurd hr (hnone _ _)⟩, fun p c e hr => absurd hr (hnone _ _), ?_⟩
    rintro v ⟨⟩
    exact accounts_of_refused hprepare s
  · obtain ⟨-, -, -, -, haborts⟩ := (linked_phases hreports).stands (stands_initial world depot q p)
    rw [← run_eq] at haborts
    rw [compile_of_prepare hprepare s]
    refine ⟨?_, ?_, ?_⟩
    · change Option.map _ (findings? _ _) = none ↔ _
      rw [Option.map_eq_none_iff, findings?_eq_none_iff]
      simp only [runs_iff hprepare]
      constructor
      · rintro ⟨f, hended, habort⟩
        exact ⟨p, _, f, ⟨rfl, Prod.ext rfl hended⟩, habort⟩
      · rintro ⟨_, c, f, ⟨-, hrun⟩, habort⟩
        exact ⟨f, congrArg Prod.snd hrun, habort⟩
    · intro p' c e hr habort
      obtain ⟨rfl, hrun⟩ := (runs_iff hprepare).1 hr
      rw [hrun] at haborts
      exact haborts e rfl habort
    · intro v hv
      obtain ⟨b, hb, rfl⟩ := Option.map_eq_some_iff.1 hv
      exact accounts_of_prepare hreports hprepare hb

/-- Folding and the writer of function files, cancelled from the `n`-th check on. -/
def interrupted (n : Nat) : Setup Unit :=
  { passes := [Optimize.Builtin.scopeAnalysis, Optimize.Builtin.constantFolding]
    writers := [commandWriter ""], newId := fun _ => "", cancelled := ⟨fun k => n ≤ k⟩ }

def sum : Request :=
  let x : Ir.Variable := { id := "1", name := "x", type := .data .int, retain := true }
  { input := .program { code := [.declare (some (.var x)),
      .binaryOp (some (.var x)) .add (some (.literal (.int 1))) (some (.literal (.int 2)))] } }

def emptyDepot : Dependency.Depot := { line := .scripted [] }

/-- A run makes two checks before its passes, one before the writer and one before the file.  If none finds a
cancellation, the sum is on the disk; the last one keeps the success away, and the one before also the stage. -/
theorem compile_verdict_sum :
    (∀ n, ∀ w ∈ (interrupted n).writers, w ∈ standardWriters "" true ∨ w.Reports) ∧
    (∃ v, (compile (interrupted 4) () emptyDepot sum).verdict = some v ∧
      v.Accounts (interrupted 4) () emptyDepot sum ∧ v.success = true ∧
      (compile (interrupted 4) () emptyDepot sum).depot.disk.find?
        (emptyDepot.disk.resolve "/out/mcfc/data/mcfc/function/mcfc.mcfunction") =
          some (.file (Text.bytes "scoreboard players set mcfc.x mcfc 3\n"))) ∧
    (∃ v, (compile (interrupted 3) () emptyDepot sum).verdict = some v ∧
      v.Accounts (interrupted 3) () emptyDepot sum ∧ v.success = false ∧ v.stage = .written) ∧
    (∃ v, (compile (interrupted 2) () emptyDepot sum).verdict = some v ∧
      v.Accounts (interrupted 2) () emptyDepot sum ∧ v.success = false ∧ v.stage = .generated) := by
  have hwriters (n : Nat) : ∀ w ∈ (interrupted n).writers, w ∈ standardWriters "" true ∨ w.Reports :=
    List.forall_mem_singleton.2 (.inl List.mem_cons_self)
  have hverdict (n : Nat) :=
    (compile_verdict (interrupted n) "" true _ (hwriters n) () emptyDepot sum).2.2
  have hdone : (compile (interrupted 4) () emptyDepot sum).verdict.map (·.success) = some true ∧
      (compile (interrupted 4) () emptyDepot sum).depot.disk.find?
        (emptyDepot.disk.resolve "/out/mcfc/data/mcfc/function/mcfc.mcfunction") =
          some (.file (Text.bytes "scoreboard players set mcfc.x mcfc 3\n")) := by decide +kernel
  have hlate : (compile (interrupted 3) () emptyDepot sum).verdict.map (fun v => (v.success, v.stage)) =
      some (false, .written) := by decide +kernel
  have hearly : (compile (interrupted 2) () emptyDepot sum).verdict.map (fun v => (v.success, v.stage)) =
      some (false, .generated) := by decide +kernel
  obtain ⟨v₁, hv₁, hsuccess₁⟩ := Option.map_eq_some_iff.1 hdone.1
  obtain ⟨v₂, hv₂, heq₂⟩ := Option.map_eq_some_iff.1 hlate
  obtain ⟨v₃, hv₃, heq₃⟩ := Option.map_eq_some_iff.1 hearly
  obtain ⟨hsuccess₂, hstage₂⟩ := Prod.mk.inj heq₂
  obtain ⟨hsuccess₃, hstage₃⟩ := Prod.mk.inj heq₃
  exact ⟨hwriters, ⟨v₁, hv₁, hverdict 4 v₁ hv₁, hsuccess₁, hdone.2⟩,
    ⟨v₂, hv₂, hverdict 3 v₂ hv₂, hsuccess₂, hstage₂⟩, ⟨v₃, hv₃, hverdict 2 v₃ hv₃, hsuccess₃, hstage₃⟩⟩

/-- A request to keep the program of a function that returns nothing. -/
def keptReturn : Request :=
  let f : Ir.Function :=
    { id := "main", name := "main", params := [], returnType := .data .null, kind := .function }
  { input := .program { code := [.function f, .scopeBegin "main" .function, .ret none,
      .scopeEnd "main" .function] }
    config := { level := .o0, keepIr := true } }

/-- A request to compile a body behind a definition that names no function. -/
def unnamedBody : Request :=
  { input := .program { code := [⟨.function, [.reference none], none⟩, .scopeBegin "main" .function,
      .scopeEnd "main" .function] }
    config := { level := .o0 } }

/-- Both requests are loaded, accepted and valid.  One aborts when the program is kept and the other before the
pack is generated: there is no verdict, neither a success nor a failure with an error. -/
theorem compile_without_verdict :
    let s : Setup Unit :=
      { passes := Optimize.builtins, writers := [programWriter fun _ => ""], newId := fun _ => "" }
    (∀ q ∈ [keptReturn, unnamedBody], ∃ p, load emptyDepot.disk q.input = .ok p ∧ q.config.problems = [] ∧
      p.problems = [] ∧ (compile s () emptyDepot q).verdict = none ∧
      (run s (initial () emptyDepot q p)).1.diagnostics.hasErrors = false) ∧
    (∃ p, load emptyDepot.disk keptReturn.input = .ok p ∧
      (run s (initial () emptyDepot keptReturn p)).1.stage = .generated) := by
  intro s
  obtain ⟨kept, hkept⟩ : ∃ p, load emptyDepot.disk keptReturn.input = .ok p := ⟨_, rfl⟩
  obtain ⟨unnamed, hunnamed⟩ : ∃ p, load emptyDepot.disk unnamedBody.input = .ok p := ⟨_, rfl⟩
  obtain ⟨hkeptChecks, hstage⟩ : (keptReturn.config.problems = [] ∧ kept.problems = [] ∧
      (compile s () emptyDepot keptReturn).verdict = none ∧
      (run s (initial () emptyDepot keptReturn kept)).1.diagnostics.hasErrors = false) ∧
        (run s (initial () emptyDepot keptReturn kept)).1.stage = .generated := by
    obtain rfl := Except.ok.inj hkept
    decide +kernel
  have hunnamedChecks : unnamedBody.config.problems = [] ∧ unnamed.problems = [] ∧
      (compile s () emptyDepot unnamedBody).verdict = none ∧
      (run s (initial () emptyDepot unnamedBody unnamed)).1.diagnostics.hasErrors = false := by
    obtain rfl := Except.ok.inj hunnamed
    decide +kernel
  refine ⟨fun q hq => ?_, kept, hkept, hstage⟩
  rcases List.mem_pair.1 hq with rfl | rfl
  · exact ⟨kept, hkept, hkeptChecks⟩
  · exact ⟨unnamed, hunnamed, hunnamedChecks⟩

end Compilation

end Datapack
