import Datapack.Proofs.Generation.Frames

/-!
# Growing regions

What holds of the state of the generator between two instructions of a structured body, and all that
generating a part of the body changes.
-/

namespace Datapack.Generation

open Ir Ir.Structured Command

def commandsAt (g : Generation) (n : Nat) : List Command := (g.regions.at? n).commands

def flagsAt (g : Generation) (n : Nat) : List String := (g.regions.at? n).flags

/-- The state between two instructions of the body. -/
structure Ready (W : Plan) (f : Frame) (g : Generation) : Prop where
  stack : g.current :: g.stack = f.stack
  config : g.config = W.config
  tree : g.tree = W.tree
  regions : g.regions.sketch = W.base
  exits : ∀ flag x, g.exits.lookup flag = some x → ∃ e, W.valid e ∧ flag = W.flagName e ∧ x = W.exit e
  flags : ∀ n, ∀ flag ∈ g.flagsAt n, (g.exits.lookup flag).isSome = true

namespace Ready

variable {W : Plan} {f : Frame} {g : Generation}

theorem current (h : Ready W f g) : g.current = f.current := by
  rw [Frame.current, ← h.stack]
  rfl

theorem ns (h : Ready W f g) : g.ns = W.ns := by
  rw [Generation.ns, h.config, Plan.ns]

theorem length (h : Ready W f g) : g.regions.length = W.base.length := by
  rw [← h.regions, Regions.length_sketch]

theorem at? (h : Ready W f g) (n : Nat) : (g.regions.at? n).bare = W.base.at? n := by
  rw [← h.regions, Regions.at?_sketch]

theorem kind (h : Ready W f g) (n : Nat) : (g.regions.at? n).kind = (W.base.at? n).kind := by
  rw [← h.at? n]
  rfl

theorem parent? (h : Ready W f g) (n : Nat) : g.regions.parent? n = W.base.parent? n := by
  rw [← h.regions, Regions.parent?_sketch]

theorem absolutePath (h : Ready W f g) (n : Nat) :
    g.regions.absolutePath n = W.base.absolutePath n := by
  rw [← h.regions, Regions.absolutePath_sketch]

theorem enclosing (h : Ready W f g) (n : Nat) (kinds : List ScopeKind) :
    g.regions.enclosing n kinds = W.base.enclosing n kinds := by
  rw [← h.regions, Regions.enclosing_sketch]

theorem ancestors (h : Ready W f g) (hshape : W.Shape f) : g.regions.ancestors g.current = f.stack := by
  rw [h.current, ← hshape.ancestors, ← h.regions, Regions.ancestors_sketch]

theorem callRegion (h : Ready W f g) (n : Nat) :
    Generation.callRegion g n = .call (W.base.functionRef W.ns n) := by
  rw [Generation.callRegion, h.ns, ← h.regions, Regions.functionRef_sketch]

theorem flag (h : Ready W f g) (e : Escape) :
    Layout.flag g (W.flagName e) = W.target.flag e := by
  rw [Layout.flag, h.ns]
  rfl

theorem slot (h : Ready W f g) (hshape : W.Shape f) {v : Variable} (hv : v ∈ W.vars) :
    Layout.slot g v = W.target.slot v := by
  have hpath : g.regions.symbolPath g.current v.name = W.base.absolutePath 1 ++ "." ++ v.name := by
    rw [← hshape.symbolPath hv, h.current, ← h.regions, Regions.symbolPath_sketch]
  unfold Layout.slot
  rw [if_neg (W.common v hv), hpath, place, W.integral v hv, h.ns]
  rfl

theorem of_mem_flags (h : Ready W f g) {n : Nat} {flag : String} (hflag : flag ∈ g.flagsAt n) :
    ∃ e, W.valid e ∧ flag = W.flagName e ∧ g.exits.lookup flag = some (W.exit e) := by
  obtain ⟨x, hx⟩ := Option.isSome_iff_exists.mp (h.flags n flag hflag)
  obtain ⟨e, he, hname, rfl⟩ := h.exits flag x hx
  exact ⟨e, he, hname, hx⟩

end Ready

/-- The command that lowers the flag of `next` at the start of a check. -/
def Plan.reset (W : Plan) (n : Nat) : Command :=
  .setScore (.score (Plan.stem .continueLoop ++ holder (W.base.absolutePath (n + 1))) W.ns) 0

/-- What generating a part of the body in the innermost region changes. The regions up to `n` are those
opened before. -/
structure Grown (W : Plan) (f : Frame) (n : Nat) (g g' : Generation) (cs : List Command) : Prop where
  commands : ∀ m, m ≤ n → g'.commandsAt m =
    (if m ∈ g'.resets ∧ m ∉ g.resets then [W.reset m] else [])
      ++ (g.commandsAt m ++ if m = f.current then cs else [])
  marks : ∀ m, ∀ flag ∈ g.flagsAt m, flag ∈ g'.flagsAt m
  resets : ∀ m ∈ g.resets, m ∈ g'.resets
  added : ∀ m ∈ g'.resets, m ∈ g.resets ∨ n < m ∨ f.check? = some m
  fresh : g.fresh ≤ g'.fresh

/-- Nothing has been generated for the regions behind the first `n`. -/
def Pristine (n : Nat) (g : Generation) : Prop :=
  ∀ m, n < m → g.commandsAt m = [] ∧ m ∉ g.resets

/-- Generating a part of the body takes `g` to `g'` and adds `cs` to the innermost region; `n` regions
were open or closed before, and `n'` are behind it. -/
structure Advances (W : Plan) (f : Frame) (n n' : Nat) (g g' : Generation) (cs : List Command) :
    Prop where
  ready : Ready W f g'
  grown : Grown W f n g g' cs
  pristine : Pristine n' g'

variable {W : Plan} {f : Frame} {n n' n'' : Nat} {g g' g'' : Generation} {cs ds : List Command}

namespace Grown

theorem commands_closed (h : Grown W f n g g' cs) {m : Nat} (hm : m ≤ n) (hclosed : m ∉ f.stack) :
    g'.commandsAt m = g.commandsAt m := by
  have hreset : ¬(m ∈ g'.resets ∧ m ∉ g.resets) := by
    rintro ⟨hmem, hnew⟩
    rcases h.added m hmem with hold | hlt | hcheck
    · exact hnew hold
    · omega
    · exact hclosed (Frame.check?_mem hcheck)
  have hcurrent : m ≠ f.current := by
    rintro rfl
    exact hclosed f.current_mem
  rw [h.commands m hm, if_neg hreset, if_neg hcurrent]
  simp

theorem refl : Grown W f n g g [] := by
  refine ⟨?_, ?_, ?_, ?_, Nat.le_refl _⟩
  · intro m _
    simp
  · intro m flag hflag
    exact hflag
  · intro m hm
    exact hm
  · intro m hm
    exact .inl hm

theorem trans (h : Grown W f n g g' cs) (h' : Grown W f n' g' g'' ds) (hle : n ≤ n') :
    Grown W f n g g'' (cs ++ ds) := by
  refine ⟨?_, ?_, ?_, ?_, Nat.le_trans h.fresh h'.fresh⟩
  · intro m hm
    have hown : ((if m = f.current then cs else []) ++ if m = f.current then ds else [])
        = if m = f.current then cs ++ ds else [] := by
      split <;> simp
    rw [h'.commands m (by omega), h.commands m hm, ← hown]
    have hmono := h.resets m
    have hmono' := h'.resets m
    by_cases hg : m ∈ g.resets
    · simp [hg, hmono hg, hmono' (hmono hg)]
    · by_cases hg' : m ∈ g'.resets
      · simp [hg, hg', hmono' hg']
      · simp [hg, hg']
  · intro m flag hflag
    exact h'.marks m flag (h.marks m flag hflag)
  · intro m hm
    exact h'.resets m (h.resets m hm)
  · intro m hm
    rcases h'.added m hm with hold | hlt | hcheck
    · exact h.added m hold
    · exact .inr (.inl (by omega))
    · exact .inr (.inr hcheck)

end Grown

theorem Advances.trans (h : Advances W f n n' g g' cs) (h' : Advances W f n' n'' g' g'' ds)
    (hle : n ≤ n') : Advances W f n n'' g g'' (cs ++ ds) :=
  ⟨h'.ready, h.grown.trans h'.grown hle, h'.pristine⟩

theorem Advances.refl (hready : Ready W f g) (hpristine : Pristine n g) : Advances W f n n g g [] :=
  ⟨hready, .refl, hpristine⟩

/-! ## The index of the instruction -/

theorem Ready.index (h : Ready W f g) (i : Nat) : Ready W f { g with index := i } :=
  ⟨h.stack, h.config, h.tree, h.regions, h.exits, h.flags⟩

theorem Advances.of_index {i : Nat} (h : Advances W f n n' { g with index := i } g' cs) :
    Advances W f n n' g g' cs :=
  ⟨h.ready, ⟨h.grown.commands, h.grown.marks, h.grown.resets, h.grown.added, h.grown.fresh⟩,
    h.pristine⟩

/-! ## Emitting commands -/

theorem commandsAt_emit (hlt : g.current < g.regions.length) (cs : List Command) (m : Nat) :
    (g.emit cs).commandsAt m = g.commandsAt m ++ if m = g.current then cs else [] := by
  unfold commandsAt Generation.emit Generation.emitAt
  by_cases hm : m = g.current
  · rw [if_pos hm, hm, Regions.at?_update_self _ hlt]
    rfl
  · rw [if_neg hm, Regions.at?_update_ne _ hm, List.append_nil]

theorem flagsAt_emit (hlt : g.current < g.regions.length) (cs : List Command) (m : Nat) :
    (g.emit cs).flagsAt m = g.flagsAt m := by
  unfold flagsAt Generation.emit Generation.emitAt
  by_cases hm : m = g.current
  · rw [hm, Regions.at?_update_self _ hlt]
    rfl
  · rw [Regions.at?_update_ne _ hm]

theorem advances_emit (hready : Ready W f g) (hshape : W.Shape f) (hpristine : Pristine n g)
    (hle : f.current ≤ n) (cs : List Command) : Advances W f n n g (g.emit cs) cs := by
  have hlt : g.current < g.regions.length := by
    rw [hready.current, hready.length]
    exact hshape.lt
  refine ⟨⟨hready.stack, hready.config, hready.tree, ?_, hready.exits, ?_⟩,
    ⟨?_, ?_, fun m hm => hm, fun m hm => .inl hm, Nat.le_refl _⟩, ?_⟩
  · rw [← hready.regions]
    exact Regions.sketch_update (Region.bare_emit cs) _ _
  · intro m flag hflag
    rw [flagsAt_emit hlt] at hflag
    exact hready.flags m flag hflag
  · intro m _
    have hold : ¬(m ∈ (g.emit cs).resets ∧ m ∉ g.resets) := fun h => h.2 h.1
    rw [commandsAt_emit hlt, hready.current, if_neg hold, List.nil_append]
  · intro m flag hflag
    rw [flagsAt_emit hlt]
    exact hflag
  · intro m hm
    obtain ⟨hcommands, hresets⟩ := hpristine m hm
    have hne : m ≠ g.current := by
      rw [hready.current]
      omega
    rw [commandsAt_emit hlt, if_neg hne, hcommands]
    exact ⟨rfl, hresets⟩

theorem advances_fresh (hready : Ready W f g) (hpristine : Pristine n g) :
    Advances W f n n g { g with fresh := g.fresh + 1 } [] := by
  have hrefl : Grown W f n g g [] := .refl
  exact ⟨⟨hready.stack, hready.config, hready.tree, hready.regions, hready.exits, hready.flags⟩,
    ⟨hrefl.commands, hrefl.marks, hrefl.resets, hrefl.added, Nat.le_succ _⟩, hpristine⟩

/-! ## Raising flags -/

def markAll (flag : String) (ms : List Nat) (rs : Regions) : Regions :=
  ms.foldl (fun rs n => rs.update n (·.mark flag)) rs

def markFrames (flag : String) (ms : List Nat) (g : Generation) : Generation :=
  { g with regions := markAll flag ms g.regions }

theorem mem_mark {flag flag' : String} {r : Region} :
    flag' ∈ (r.mark flag).flags ↔ flag' ∈ r.flags ∨ flag' = flag := by
  unfold Region.mark
  split
  · constructor
    · exact .inl
    · rintro (h | rfl)
      · exact h
      · assumption
  · simp

theorem commands_mark (flag : String) (r : Region) : (r.mark flag).commands = r.commands := by
  unfold Region.mark
  split <;> rfl

theorem sketch_markAll (flag : String) (ms : List Nat) (rs : Regions) :
    (markAll flag ms rs).sketch = rs.sketch := by
  induction ms generalizing rs with
  | nil => rfl
  | cons n ms ih =>
      have hstep := Regions.sketch_update (Region.bare_mark flag) rs n
      exact (ih _).trans hstep

theorem commands_markAll (flag : String) (ms : List Nat) (rs : Regions) (m : Nat) :
    ((markAll flag ms rs).at? m).commands = (rs.at? m).commands := by
  induction ms generalizing rs with
  | nil => rfl
  | cons n ms ih =>
      exact (ih _).trans (Regions.commands_update (commands_mark flag) rs n m)

theorem mem_flags_markAll {flag flag' : String} {ms : List Nat} {rs : Regions} {m : Nat}
    (hms : ∀ n ∈ ms, n < rs.length) :
    flag' ∈ ((markAll flag ms rs).at? m).flags ↔ flag' ∈ (rs.at? m).flags ∨ flag' = flag ∧ m ∈ ms := by
  induction ms generalizing rs with
  | nil => simp [markAll]
  | cons n ms ih =>
      have hn := hms n (by simp)
      have hrest := @ih (rs.update n (·.mark flag)) (fun k hk => by
        rw [Regions.length_update]
        exact hms k (by simp [hk]))
      refine hrest.trans ?_
      by_cases hm : m = n
      · subst hm
        rw [Regions.at?_update_self _ hn, mem_mark]
        simp only [List.mem_cons, true_or, and_true]
        constructor
        · rintro ((h | h) | ⟨h, -⟩)
          · exact .inl h
          · exact .inr h
          · exact .inr h
        · rintro (h | h)
          · exact .inl (.inl h)
          · exact .inl (.inr h)
      · rw [Regions.at?_update_ne _ hm]
        simp [hm]

/-- Registering an exit that is not registered yet. -/
theorem lookup_append_exit {exits : List (String × Exit)} {flag flag' : String} {x : Exit}
    (h : exits.lookup flag = none) :
    (exits ++ [(flag, x)]).lookup flag' = if flag' = flag then some x else exits.lookup flag' := by
  have hlast : [(flag, x)].lookup flag' = if flag' = flag then some x else none := by
    by_cases heq : flag' = flag
    · simp [heq]
    · rw [if_neg heq, List.lookup_cons, beq_false_of_ne heq]
      rfl
  rw [List.lookup_append, hlast]
  by_cases heq : flag' = flag
  · simp [heq, h]
  · rw [if_neg heq, if_neg heq, Option.or_none]

/-- The exit behind a flag, registered now or before. -/
theorem yields_exitFor (hready : Ready W f g) {e : Escape} (he : W.valid e) :
    ∃ exits, Yields (exitFor (W.exit e).kind (W.flagName e) (W.exit e).consumer) g (W.exit e)
        { g with exits } ∧
      (∀ flag x, exits.lookup flag = some x →
        ∃ e, W.valid e ∧ flag = W.flagName e ∧ x = W.exit e) ∧
      (∀ flag, (g.exits.lookup flag).isSome = true → (exits.lookup flag).isSome = true) ∧
      (exits.lookup (W.flagName e)).isSome = true := by
  cases hlookup : g.exits.lookup (W.flagName e) with
  | some x =>
      obtain ⟨e', he', hname, rfl⟩ := hready.exits _ _ hlookup
      obtain rfl := W.flag_inj he he' hname
      refine ⟨g.exits, ?_, hready.exits, fun _ h => h, by simp [hlookup]⟩
      unfold exitFor
      refine .bind .get ?_
      simp only [hlookup]
      exact .pure _
  | none =>
      refine ⟨g.exits ++ [(W.flagName e, W.exit e)], ?_, ?_, ?_, ?_⟩
      · unfold exitFor
        refine .bind .get ?_
        simp only [hlookup]
        exact .bind (.change _) (.pure _)
      · intro flag x hx
        rw [lookup_append_exit hlookup] at hx
        split at hx
        · rename_i heq
          exact ⟨e, he, heq, (Option.some.inj hx).symm⟩
        · exact hready.exits flag x hx
      · intro flag hflag
        rw [lookup_append_exit hlookup]
        split
        · rfl
        · exact hflag
      · rw [lookup_append_exit hlookup, if_pos rfl]
        rfl

/-- Raising the flag of an exit marks the regions up to where it ends. -/
theorem yields_raise (hready : Ready W f g) (hshape : W.Shape f) (hpristine : Pristine n g)
    (hle : f.current ≤ n) {e : Escape} (he : W.valid e) :
    ∃ g', Yields (raise (W.exit e).kind (W.flagName e) (W.exit e).consumer) g () g' ∧
      Advances W f n n g g' [.setScore (W.target.flag e) 1, .ret 0] ∧
      ∀ m ∈ f.stack.takeWhile (· ≠ (W.exit e).consumer), W.flagName e ∈ g'.flagsAt m := by
  obtain ⟨exits, hyields, hexits, hmono, hregistered⟩ := yields_exitFor hready he
  let g₁ : Generation := { g with exits }
  have hready₁ : Ready W f g₁ :=
    ⟨hready.stack, hready.config, hready.tree, hready.regions, hexits,
      fun m flag hflag => hmono flag (hready.flags m flag hflag)⟩
  let cs : List Command := [.setScore (W.target.flag e) 1, .ret 0]
  have hemit : Advances W f n n g₁ (g₁.emit cs) cs := advances_emit hready₁ hshape hpristine hle cs
  let frames := f.stack.takeWhile (· ≠ (W.exit e).consumer)
  let g₂ : Generation := markFrames (W.flagName e) frames (g₁.emit cs)
  have hframes : ∀ m ∈ frames, m < (g₁.emit cs).regions.length := by
    intro m hm
    rw [hemit.ready.length]
    exact hshape.stack_lt m (List.takeWhile_subset _ hm)
  have hcommands : ∀ m, g₂.commandsAt m = (g₁.emit cs).commandsAt m :=
    fun m => commands_markAll _ _ _ m
  have hflags : ∀ m flag, flag ∈ g₂.flagsAt m ↔
      flag ∈ (g₁.emit cs).flagsAt m ∨ flag = W.flagName e ∧ m ∈ frames :=
    fun m flag => mem_flags_markAll hframes
  refine ⟨g₂, ?_, ⟨⟨?_, ?_, ?_, ?_, ?_, ?_⟩, ⟨?_, ?_, ?_, ?_, ?_⟩, ?_⟩, ?_⟩
  · unfold raise
    refine .bind hyields ?_
    refine .bind .get ?_
    have hflag : Layout.flag g₁ (W.flagName e) = W.target.flag e := hready₁.flag e
    rw [show Layout.flag { g with exits } (W.flagName e) = W.target.flag e from hflag]
    refine .bind (.emit _) ?_
    have hanc : (g₁.emit cs).regions.ancestors (g₁.emit cs).current = f.stack :=
      hemit.ready.ancestors hshape
    have hmarked : markFrames (W.flagName e)
        (((g₁.emit cs).regions.ancestors (g₁.emit cs).current).takeWhile (· ≠ (W.exit e).consumer))
        (g₁.emit cs) = g₂ := by
      rw [hanc]
    rw [← hmarked]
    exact .change _
  · exact hemit.ready.stack
  · exact hemit.ready.config
  · exact hemit.ready.tree
  · exact (sketch_markAll _ _ _).trans hemit.ready.regions
  · exact hemit.ready.exits
  · intro m flag hflag
    rcases (hflags m flag).mp hflag with hold | ⟨rfl, -⟩
    · exact hemit.ready.flags m flag hold
    · exact hregistered
  · intro m hm
    rw [hcommands m]
    exact hemit.grown.commands m hm
  · intro m flag hflag
    exact (hflags m flag).mpr (.inl (hemit.grown.marks m flag hflag))
  · exact hemit.grown.resets
  · exact hemit.grown.added
  · exact hemit.grown.fresh
  · intro m hm
    rw [hcommands m]
    exact hemit.pristine m hm
  · intro m hm
    exact (hflags m _).mpr (.inr ⟨rfl, hm⟩)

end Datapack.Generation
