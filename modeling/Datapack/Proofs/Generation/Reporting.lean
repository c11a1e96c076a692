import Datapack.Proofs.Generation.Acceptance

/-!
# What a generation reports

The generator moves through a program whether or not it can express the instructions it meets, so it
reports no error exactly if every instruction is accepted where it stands.
-/

namespace Datapack.Generation

open Ir Command

variable {g : Generation}

/-! ## Views -/

/-- States from which an instruction sees the same: jumps lead to the same regions, which stand the same
way around it. -/
structure Views (g g' : Generation) : Prop where
  resolve : ∀ x, g'.resolve x = g.resolve x
  like : Like g.regions g'.regions
  current : g'.current = g.current

namespace Views

variable {g' : Generation}

theorem enclosing (h : Views g g') (n : Nat) (kinds : List ScopeKind) :
    g'.regions.enclosing n kinds = g.regions.enclosing n kinds := by
  simp only [Regions.enclosing, h.like.ancestors, h.like.kind]

theorem loopAt? (h : Views g g') (name : String) : Generation.loopAt? g' name = Generation.loopAt? g name := by
  simp only [Generation.loopAt?, h.resolve, h.like.kind, h.enclosing, h.current]

theorem bodyOfLoop? (h : Views g g') (loop : Nat) :
    Generation.bodyOfLoop? g' loop = Generation.bodyOfLoop? g loop := by
  simp only [Generation.bodyOfLoop?, h.like.ancestors, h.current, h.like.kind, h.like.parent?, h.enclosing]

theorem accepts (h : Views g g') (hfunctions : g'.functions = g.functions) (ins : Instruction) :
    Generation.accepts g' ins = Generation.accepts g ins := by
  simp only [Generation.accepts, h.resolve, h.loopAt?, h.bodyOfLoop?, h.enclosing, h.current, returns,
    ownerOf?, callsFunction, callsBody, bodyOf?, hfunctions]

end Views

/-! ## Programs -/

section Program

variable {config : Config} {p : Program} {diagnostics : Bag} {newId : Nat → String} {g₀ g' : Generation}
  {t : ScopeTree} {pre post : Stream} {ins : Instruction}

theorem errors_mono {A : Nat → Prop} (h : Reaches (Act A) g g') : g.errors ≤ g'.errors :=
  (findings_of_acts h).sublist.countP_le

/-- Processing an instruction reports an error unless it is quiet. -/
theorem StepsTo.errors_iff {i : Nat} (h : StepsTo i ins g g') :
    g.errors ≤ g'.errors ∧
      (g'.errors = g.errors ↔ Quiet (processors.find ins.op ins) { g with index := i }) := by
  have hmono := errors_mono (acts_find (A := fun _ => True) (g := { g with index := i }) ins
    (fun _ _ _ _ _ => trivial) fun _ _ => trivial).1
  rcases h with hyields | ⟨e, g₁, hrun, rfl⟩
  · rw [hyields] at hmono
    refine ⟨hmono, fun herrors => ⟨(), g', hyields, herrors⟩, ?_⟩
    rintro ⟨_, g₂, hyields', herrors⟩
    obtain rfl := (Prod.mk.inj (hyields.symm.trans hyields')).2
    exact herrors
  · rw [hrun] at hmono
    have hmore : (g₁.report (failureReport ins e)).errors = g₁.errors + 1 := by
      simp [errors, report, Bag.errorCount, Bag.count, severity_failureReport]
    have hlt : g.errors < (g₁.report (failureReport ins e)).errors := hmore ▸ Nat.lt_succ_of_le hmono
    refine ⟨hlt.le, iff_of_false hlt.ne' ?_⟩
    rintro ⟨_, g₂, hyields, -⟩
    cases (Prod.mk.inj (hrun.symm.trans hyields)).1

theorem StandsAt.alike (h : StandsAt g₀ pre g) (hplain : isDelimiter ins = false)
    (halike : Alike { g with index := pre.length } g') : StandsAt g₀ (pre ++ [ins]) g' := by
  refine ⟨halike.config.trans h.config, halike.tree.trans h.tree, halike.functions.trans h.functions, ?_,
    h.like.trans halike.like⟩
  rw [halike.current, halike.stack, Position.after_append, Position.after_cons, Position.after_nil,
    Position.advance_plain _ hplain]
  exact h.position

/-- The generator moves through a program with its delimiters, whether it is valid or not. -/
theorem StandsAt.step (h : StandsAt g₀ pre g) (ht : ScopeTree.ofStream p.code = .ok t) (htree : g₀.tree = t)
    (hs : p.code = pre ++ ins :: post) (hstep : StepsTo pre.length ins g g') :
    StandsAt g₀ (pre ++ [ins]) g' := by
  cases hplain : isDelimiter ins with
  | true =>
      have hdeclare : ins.op ≠ .declare := by
        rintro hop
        simp [isDelimiter, hop] at hplain
      have hmoves : Moves (fun _ => True) (fun _ => True) pre.length ins g g' :=
        hstep.moves (fun hfalse => absurd hfalse (by simp [hplain])) (h.stack_ne_nil ht hs) fun hop =>
          absurd hop hdeclare
      exact h.advance ht htree hs hmoves
  | false =>
      by_cases hop : ins.op = .declare
      · cases hv : varOf (ins.refAt 0) with
        | some v =>
            have hbounded : Bounded (fun _ => True) (fun _ => True) { g with index := pre.length } ins := by
              refine ⟨fun _ _ _ _ => trivial, fun hjump => ?_, fun _ _ _ => trivial, fun _ _ _ => trivial⟩
              rw [hop] at hjump
              cases hjump
            have hmoves : Moves (fun _ => True) (fun _ => True) pre.length ins g g' :=
              hstep.moves (fun _ => hbounded) (h.stack_ne_nil ht hs) fun _ => ⟨v, hv⟩
            exact h.advance ht htree hs hmoves
        | none =>
            -- a declaration of no variable fails
            have hrun : (processors.find ins.op ins).run { g with index := pre.length }
                = (.error (.failed "DECLARE of a non-variable"), { g with index := pre.length }) := by
              rw [hop]
              change (declare ins).run _ = _
              rw [declare, hv]
              rfl
            rcases hstep with hyields | ⟨e, g₁, hrun', rfl⟩
            · cases (Prod.mk.inj (hrun.symm.trans hyields)).1
            · obtain ⟨-, rfl⟩ := Prod.mk.inj (hrun.symm.trans hrun')
              exact h.alike hplain ⟨rfl, rfl, rfl, rfl, rfl, rfl, rfl⟩
      · have hmakes := edits_find (A := fun _ => True) (g := { g with index := pre.length }) hplain hop
          (fun _ _ _ _ _ => trivial) fun _ _ => trivial
        exact h.alike hplain (alike_of_edits (hstep.reaches hmakes fun g d => .note g g.fresh g.ids [d]))

theorem StandsAt.views (h : StandsAt g₀ pre g) (ht : ScopeTree.ofStream p.code = .ok t) (htree : g₀.tree = t)
    (hs : p.code = pre ++ ins :: post) (hplain : isDelimiter ins = false) :
    Views (g₀.seenFrom pre.length) { g with index := pre.length } := by
  refine ⟨fun x => ?_, h.like, ?_⟩
  · simp only [Generation.resolve, seenFrom, h.tree]
    rfl
  · exact (h.current_eq ht hs hplain).trans (by rw [seenFrom, htree])

theorem accepts_delimiter (h : isDelimiter ins = true) : accepts g ins = true := by
  unfold isDelimiter at h
  unfold accepts
  cases hop : ins.op <;> simp [hop] at h ⊢

/-- What holds of the errors behind a part of a program. -/
structure Counted (g₀ : Generation) (pre : Stream) (g : Generation) : Prop where
  stands : StandsAt g₀ pre g
  mono : g₀.errors ≤ g.errors
  errors_iff : g.errors = g₀.errors ↔
    ∀ (i : Nat) (ins : Instruction), pre[i]? = some ins → accepts (g₀.seenFrom i) ins = true

theorem Counted.step (h : Counted g₀ pre g) (ht : ScopeTree.ofStream p.code = .ok t) (htree : g₀.tree = t)
    (hns : g₀.ns ≠ "") (hs : p.code = pre ++ ins :: post) (hstep : StepsTo pre.length ins g g') :
    Counted g₀ (pre ++ [ins]) g' := by
  obtain ⟨hmono, hquiet⟩ := hstep.errors_iff
  have haccepts : g'.errors = g.errors ↔ accepts (g₀.seenFrom pre.length) ins = true := by
    have hns' : Generation.ns { g with index := pre.length } ≠ "" := by rwa [← h.stands.ns] at hns
    rw [hquiet]
    refine (quiet_find_iff hns' (h.stands.stack_ne_nil ht hs)).trans ?_
    cases hplain : isDelimiter ins with
    | true => exact iff_of_true (accepts_delimiter hplain) (accepts_delimiter hplain)
    | false => rw [(h.stands.views ht htree hs hplain).accepts h.stands.functions]
  refine ⟨h.stands.step ht htree hs hstep, h.mono.trans hmono, ?_⟩
  have hsplit : g'.errors = g₀.errors ↔ g.errors = g₀.errors ∧ g'.errors = g.errors := by
    have hfirst := h.mono
    omega
  rw [hsplit, h.errors_iff, haccepts]
  constructor
  · rintro ⟨hpre, hlast⟩ i ins' hi
    by_cases hlt : i < pre.length
    · rw [List.getElem?_append_left hlt] at hi
      exact hpre i ins' hi
    · have hi' := (List.getElem?_eq_some_iff.1 hi).1
      rw [List.length_append, List.length_singleton] at hi'
      obtain rfl : i = pre.length := by omega
      rw [List.getElem?_concat_length] at hi
      obtain rfl := Option.some.inj hi
      exact hlast
  · intro hall
    refine ⟨fun i ins' hi => hall i ins' ?_, hall pre.length ins (by simp)⟩
    rw [List.getElem?_append_left (List.getElem?_eq_some_iff.1 hi).1, hi]

/-- Without debugging the whole program is processed. -/
theorem exists_processFrom (hdebug : g.config.debug = false) (i : Nat) (s : Stream) :
    ∃ g', processFrom processors i g s = (g', none) := by
  induction s generalizing i g with
  | nil => exact ⟨g, rfl⟩
  | cons ins s ih =>
      have hacts := (acts_find (A := fun _ => True) (g := { g with index := i }) ins
        (fun _ _ _ _ _ => trivial) fun _ _ => trivial).1
      unfold processFrom
      rcases hrun : (processors.find ins.op ins).run { g with index := i } with ⟨e | a, g'⟩
      all_goals
        rw [hrun] at hacts
        have hdebug' : g'.config.debug = false := by rw [(acts_kept hacts).1, hdebug]
      · dsimp only
        rw [if_neg (by simp [hdebug'])]
        exact ih (g := g'.report (failureReport ins e)) hdebug' _
      · exact ih hdebug' _

/-- A generation reports no error exactly if none was there before and every instruction is accepted where
it stands. -/
theorem hasErrors_lower_iff (hstart : start config p diagnostics newId = .ok g₀)
    (hdebug : config.debug = false) (hns : config.ns ≠ "") :
    (lower g₀).1.diagnostics.hasErrors = false ↔ g₀.diagnostics.hasErrors = false ∧
      ∀ (i : Nat) (ins : Instruction), p.code[i]? = some ins → accepts (g₀.seenFrom i) ins = true := by
  obtain ⟨t, ht⟩ := exists_tree hstart
  obtain ⟨hstarts, hconfig, hprogram, -⟩ := starts_of_start hstart ht
  obtain ⟨g₁, hwalk⟩ := exists_processFrom (hconfig ▸ hdebug) 0 p.code
  have hcounted : Counted g₀ p.code g₁ := by
    have hbegin : processFrom processors 0 g₀ [] = (g₀, none) := rfl
    have hempty : Counted g₀ [] g₀ := ⟨hstarts.standsAt, Nat.le_refl _, by simp⟩
    refine walk_induction (P := Counted g₀) hbegin hempty
      (fun pre ins post g g' hs _ _ hstep h => h.step ht hstarts.tree ?_ hs hstep)
      (List.append_nil _).symm hwalk
    rwa [Generation.ns, hconfig]
  have hlower : (lower g₀).1.diagnostics = g₁.diagnostics := by
    obtain ⟨helpers, tags, hfinish⟩ := finish_eq g₁
    have hprocess : process processors g₀ = (g₁, none) := by rw [← hwalk, ← hprogram]; rfl
    rw [lower, hprocess]
    change (finish g₁).diagnostics = _
    rw [hfinish]
  have hnone : ∀ g : Generation, g.diagnostics.hasErrors = false ↔ g.errors = 0 := by
    intro g
    simp [Bag.hasErrors, errors]
  rw [hlower, hnone, hnone, ← hcounted.errors_iff]
  have hmono := hcounted.mono
  omega

/-! ### Programs with the same regions -/

theorem exists_start (ht : ScopeTree.ofStream p.code = .ok t)
    (hdefined : ∀ x ∈ functionScopes p.code t, x.2.isSome = true) :
    ∃ g, start config p diagnostics newId = .ok g := by
  have hbodies : ∀ callees : List (Nat × Option Function), (∀ x ∈ callees, x.2.isSome = true) →
      ∃ functions, bodies callees = some functions := by
    intro callees hcallees
    induction callees with
    | nil => exact ⟨[], rfl⟩
    | cons x callees ih =>
        obtain ⟨functions, hfunctions⟩ := ih fun y hy => hcallees y (List.mem_cons_of_mem x hy)
        obtain ⟨n, _ | f⟩ := x
        · cases hcallees _ List.mem_cons_self
        · exact ⟨(n, f) :: functions, by rw [bodies, hfunctions, Option.map_some]⟩
  obtain ⟨functions, hfunctions⟩ := hbodies _ hdefined
  unfold start
  rw [ht]
  dsimp only
  rw [hfunctions]
  exact ⟨_, rfl⟩

theorem diagnostics_of_start (h : start config p diagnostics newId = .ok g) : g.diagnostics = diagnostics := by
  unfold start at h
  split at h
  · cases h
  · split at h
    · cases h
    · cases h
      rfl

theorem regionsOf_alike {u : ScopeTree} (h : u.Alike t) (ns : String) : regionsOf ns u = regionsOf ns t := by
  simp only [regionsOf, h.inner, ScopeNode.parent?, h.outer, h.name, h.kind]

theorem like_of_alike {p' : Program} {u : ScopeTree} (halike : u.Alike t)
    (hstart : start config p diagnostics newId = .ok g) (ht : ScopeTree.ofStream p.code = .ok t)
    (hstart' : start config p' diagnostics newId = .ok g') (hu : ScopeTree.ofStream p'.code = .ok u) :
    Like g.regions g'.regions := by
  obtain ⟨-, -, -, -, hregions⟩ := starts_of_start hstart ht
  obtain ⟨-, -, -, -, hregions'⟩ := starts_of_start hstart' hu
  rw [hregions, hregions', regionsOf_alike halike]
  exact (declareParams_rest _ _).1.symm.trans (declareParams_rest _ _).1

/-- Instructions at corresponding places of programs with the same regions see the same. -/
theorem Views.of_alike (halike : g'.tree.Alike g.tree) (hlike : Like g.regions g'.regions) {i j : Nat}
    (hnode : g'.tree.nodeAt j = g.tree.nodeAt i) (henclosing : g'.tree.enclosingAt j = g.tree.enclosingAt i) :
    Views (g.seenFrom i) (g'.seenFrom j) := by
  refine ⟨fun x => ?_, hlike, henclosing⟩
  simp only [Generation.resolve, seenFrom, hnode, halike.resolve, halike.inner, halike.name]
  rfl

end Program

end Datapack.Generation
