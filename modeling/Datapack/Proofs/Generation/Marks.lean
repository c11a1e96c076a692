import Datapack.Proofs.Generation.Walk

/-!
# Marks of regions

A region is marked with the flags it may leave raised.  The marks agree with the commands and with one
another: who raises a flag is marked, and so is everyone around a marked region up to where the exit
ends.  Every instruction keeps this, and the calls it makes are checked for all marks of the called
region.
-/

namespace Datapack.Ir.ScopeTree

variable {s : Stream} {t : ScopeTree}

/-- Behind a node among the nodes around another come the nodes around it. -/
theorem outer_of_split (h : ofStream s = .ok t) {k n : Nat} {front rest : List Nat}
    (hk : k < t.nodes.length) (hsplit : t.ancestors k = front ++ n :: rest) :
    rest = (t.node n).outer := by
  induction k using Nat.strongRecOn generalizing front with
  | ind k ih =>
      cases front with
      | nil =>
          obtain ⟨rfl, rfl⟩ := List.cons.inj hsplit
          rfl
      | cons m front =>
          obtain ⟨-, houter⟩ := List.cons.inj hsplit
          have hroot : k ≠ root := by
            rintro rfl
            rw [outer_root h] at houter
            simp at houter
          obtain ⟨q, hq, hnode⟩ := outer_node h hroot hk
          exact ih q hq (Nat.lt_trans hq hk) (hnode.symm.trans houter)

end Datapack.Ir.ScopeTree

namespace Datapack.Generation

open Ir Command

/-! ## Regions inside regions -/

namespace Regions

variable {rs rs' : Regions}

/-- Regions that stand one inside the other. -/
structure Nested (rs : Regions) : Prop where
  lt : ∀ k < rs.length, ∀ n ∈ rs.ancestors k, n < rs.length
  apart : ∀ k < rs.length, rs.parent? k ≠ some k
  next : ∀ k < rs.length, ∀ c n q, n ∈ (rs.ancestors k).takeWhile (· ≠ c) → rs.parent? n = some q →
    q = c ∨ q ∈ (rs.ancestors k).takeWhile (· ≠ c)

/-- No two regions share a function or the holder of a flag. -/
structure Separate (rs : Regions) : Prop where
  paths : ∀ m n, m < rs.length → n < rs.length → rs.functionPath m = rs.functionPath n → m = n
  holders : ∀ m n, m < rs.length → n < rs.length →
    holder (rs.absolutePath m) = holder (rs.absolutePath n) → m = n

theorem Nested.of_like (h : rs.Nested) (hlike : Like rs rs') : rs'.Nested := by
  refine ⟨?_, ?_, ?_⟩
  all_goals simp only [hlike.ancestors, hlike.parent?, hlike.length]
  · exact h.lt
  · exact h.apart
  · exact h.next

theorem Separate.of_like (h : rs.Separate) (hlike : Like rs rs') : rs'.Separate := by
  refine ⟨?_, ?_⟩
  all_goals simp only [functionPath, hlike.segments, hlike.absolutePath, hlike.length]
  · exact h.paths
  · exact h.holders

theorem lt_of_parent? {n q : Nat} (h : rs.parent? n = some q) : n < rs.length := by
  by_contra hge
  rw [parent?, at?, List.getElem?_eq_none (Nat.le_of_not_lt hge)] at h
  cases h

end Regions

theorem Starts.nested {s : Stream} {t : ScopeTree} {g : Generation} (h : Starts t g)
    (ht : ScopeTree.ofStream s = .ok t) : g.regions.Nested := by
  have hancestors : ∀ k < g.regions.length, g.regions.ancestors k = t.ancestors k := by
    intro k hk
    rw [Regions.ancestors, h.outer k (h.length ▸ hk), ScopeTree.ancestors]
  have hlt : ∀ k < g.regions.length, ∀ n ∈ g.regions.ancestors k, n < g.regions.length := by
    intro k hk n hn
    rw [hancestors k hk] at hn
    exact Nat.lt_of_le_of_lt (le_of_mem_ancestors ht (h.length ▸ hk) hn) hk
  have hparent : ∀ n < g.regions.length, g.regions.parent? n = (t.node n).outer.head? := by
    intro n hn
    rw [Regions.parent?, h.outer n (h.length ▸ hn)]
  refine ⟨hlt, fun k hk hself => ?_, fun k hk c n q hn hq => ?_⟩
  · rw [hparent k hk] at hself
    exact ScopeTree.mem_outer_self ht (List.mem_of_mem_head? hself)
  · rw [hparent n (hlt k hk n (List.takeWhile_subset _ hn))] at hq
    rw [hancestors k hk] at hn ⊢
    obtain ⟨front, back, hsplit⟩ := List.append_of_mem hn
    have hwhole := @List.takeWhile_append_dropWhile _ (fun m => decide (m ≠ c)) (t.ancestors k)
    rw [hsplit, List.append_assoc, List.cons_append] at hwhole
    have houter := ScopeTree.outer_of_split ht (h.length ▸ hk) hwhole.symm
    rw [← houter] at hq
    cases back with
    | nil =>
        rw [List.nil_append] at hq
        have hnot := List.head?_dropWhile_not (fun m => decide (m ≠ c)) (t.ancestors k)
        rw [hq] at hnot
        exact .inl (by simpa using hnot)
    | cons m back =>
        obtain rfl : m = q := Option.some.inj hq
        rw [hsplit]
        simp

/-! ## Consistent marks -/

/-- What an unfolding of a generation never changes. -/
structure Layered (g : Generation) : Prop where
  nested : g.regions.Nested
  separate : g.regions.Separate
  bodies : ∀ n ∈ g.functions.map Prod.fst, (g.regions.at? n).kind = .function

/-- Marks that agree with commands, exits and one another. -/
structure Consistent (g : Generation) : Prop where
  /-- Every mark has its exit. -/
  registered : ∀ n, ∀ flag ∈ g.flagsAt n, ∃ e, g.exits.lookup flag = some e
  named : ∀ flag e, g.exits.lookup flag = some e →
    flag = Plan.stem e.kind ++ holder (g.regions.absolutePath e.consumer) ∧
      e.consumer < g.regions.length ∧ Answerable g e
  /-- A mark goes on to the region around, up to where its exit ends. -/
  passed : ∀ n q flag e, flag ∈ g.flagsAt n → g.regions.parent? n = some q →
    g.exits.lookup flag = some e → q = e.consumer ∨ flag ∈ g.flagsAt q
  /-- Who raises a flag is marked. -/
  marked : ∀ n flag, IsFlag (Layout.flag g flag) → .setScore (Layout.flag g flag) 1 ∈ g.commandsAt n →
    flag ∈ g.flagsAt n
  /-- Calls lead into functions and into the regions directly inside. -/
  leads : ∀ n, ∀ c ∈ g.commandsAt n, ∀ m < g.regions.length, Enters g m c →
    (g.regions.at? m).kind = .function ∨ g.regions.parent? m = some n

variable {g g' : Generation}

theorem Layered.of_like (h : Layered g) (hlike : Like g.regions g'.regions)
    (hfunctions : g'.functions = g.functions) : Layered g' := by
  refine ⟨h.nested.of_like hlike, h.separate.of_like hlike, fun n hn => ?_⟩
  rw [hlike.kind]
  exact h.bodies n (hfunctions ▸ hn)

theorem Layered.of_alike (h : Layered g) (halike : Alike g g') : Layered g' :=
  h.of_like halike.like halike.functions

theorem flag_of_config (h : g'.config = g.config) (flag : String) :
    Layout.flag g' flag = Layout.flag g flag := by
  rw [Layout.flag, Generation.ns, h, ← Generation.ns, ← Layout.flag]

theorem enters_iff_of_like (hlike : Like g.regions g'.regions) (hconfig : g'.config = g.config) {n : Nat}
    {c : Command} : Enters g' n c ↔ Enters g n c := by
  have hcall : callRegion g' n = callRegion g n := by
    rw [callRegion, callRegion, hlike.functionRef, Generation.ns, hconfig, ← Generation.ns]
  rw [Enters, hcall, Enters]

theorem Alike.enters_iff (h : Alike g g') {n : Nat} {c : Command} : Enters g' n c ↔ Enters g n c :=
  enters_iff_of_like h.like h.config

theorem Layered.eq_of_enters (h : Layered g) {m n : Nat} {c : Command} (hm : m < g.regions.length)
    (hn : n < g.regions.length) (hcm : Enters g m c) (hcn : Enters g n c) : m = n := by
  have hcall : callRegion g m = callRegion g n := by
    rcases hcm with rfl | ⟨p, s, r, rfl⟩
    · rcases hcn with hcn | ⟨p, s, r, hcn⟩
      · exact hcn
      · cases hcn
    · rcases hcn with hcn | ⟨p', s', r', hcn⟩
      · cases hcn
      · exact (Command.guarded.inj hcn).2.2.2
  have hpath := Command.call.inj hcall
  rw [Regions.functionRef, Regions.functionRef, String.append_right_inj] at hpath
  exact h.separate.paths m n hm hn hpath

/-- A command that raises no flag, and that leads at most into a function or a region directly inside. -/
structure Harmless (g : Generation) (n : Nat) (c : Command) : Prop where
  raises : ∀ s, IsFlag s → c ≠ .setScore s 1
  leads : ∀ m < g.regions.length, Enters g m c →
    (g.regions.at? m).kind = .function ∨ g.regions.parent? m = some n

theorem Harmless.of_not_enters {n : Nat} {c : Command} (hraises : ∀ s, IsFlag s → c ≠ .setScore s 1)
    (henters : ∀ m, ¬Enters g m c) : Harmless g n c :=
  ⟨hraises, fun m _ h => absurd h (henters m)⟩

theorem not_enters_of_spares {P : Slot → Prop} {c : Command} (h : c.Spares P) (m : Nat) :
    ¬Enters g m c := by
  rintro (rfl | ⟨p, s, r, rfl⟩)
  · exact h
  · exact h

theorem harmless_of_spares {n : Nat} {c : Command} (h : c.Spares IsFlag) : Harmless g n c := by
  refine .of_not_enters ?_ (not_enters_of_spares h)
  rintro s hs rfl
  exact h hs

theorem not_enters_of_tests {s : Slot} {c : Command} (h : Tests s c) (m : Nat) : ¬Enters g m c := by
  rcases h with rfl | rfl | ⟨d, rfl⟩
  all_goals
    rintro (h | ⟨p, s, r, h⟩)
    · cases h
    · cases h

theorem harmless_of_tests {n : Nat} {s : Slot} {c : Command} (h : Tests s c) : Harmless g n c := by
  refine .of_not_enters ?_ (not_enters_of_tests h)
  rintro s' - rfl
  rcases h with h | h | ⟨d, h⟩
  · exact absurd (Command.setScore.inj h).2 (by decide)
  · cases h
  · cases h

theorem harmless_of_enters (hl : Layered g) {m n : Nat} {c : Command} (hm : m < g.regions.length)
    (h : Enters g m c) (hleads : (g.regions.at? m).kind = .function ∨ g.regions.parent? m = some n) :
    Harmless g n c := by
  refine ⟨?_, fun m' hm' h' => ?_⟩
  · rintro s - rfl
    rcases h with h | ⟨p, s', r, h⟩
    · cases h
    · cases h
  · rw [hl.eq_of_enters hm' hm h' h]
    exact hleads

theorem Consistent.of_commands (h : Consistent g) (hlike : Like g.regions g'.regions)
    (hconfig : g'.config = g.config) (hexits : g'.exits = g.exits)
    (hflags : ∀ n, g'.flagsAt n = g.flagsAt n)
    (hcommands : ∀ n, ∀ c ∈ g'.commandsAt n, c ∈ g.commandsAt n ∨ Harmless g n c) : Consistent g' := by
  refine ⟨?_, ?_, ?_, ?_, ?_⟩
  · simpa only [hflags, hexits] using h.registered
  · simpa only [Answerable, hexits, hlike.absolutePath, hlike.length, hlike.parent?] using h.named
  · simpa only [hflags, hexits, hlike.parent?] using h.passed
  · intro n flag hflag hset
    rw [flag_of_config hconfig] at hflag hset
    rw [hflags]
    rcases hcommands n _ hset with hold | hnew
    · exact h.marked n flag hflag hold
    · exact absurd rfl (hnew.raises _ hflag)
  · intro n c hc m hm henters
    rw [hlike.length] at hm
    rw [enters_iff_of_like hlike hconfig] at henters
    rw [hlike.kind, hlike.parent?]
    rcases hcommands n c hc with hold | hnew
    · exact h.leads n c hold m hm henters
    · exact hnew.leads m hm henters

theorem Consistent.of_eq (h : Consistent g) (hregions : g'.regions = g.regions)
    (hconfig : g'.config = g.config) (hexits : g'.exits = g.exits) : Consistent g' := by
  refine h.of_commands ?_ hconfig hexits (fun n => ?_) fun n c hc => .inl ?_
  · rw [hregions]
    exact .refl _
  · rw [flagsAt, hregions, flagsAt]
  · rwa [commandsAt, hregions] at hc

/-! ## Effects -/

/-- What a change of the innermost region does: it adds a block of commands there and leaves the marks
consistent; only the regions around get new marks. -/
structure Effect (g g' : Generation) (block : List Command) : Prop where
  alike : Alike g g'
  consistent : Consistent g'
  own : g'.commandsAt g.current = g.commandsAt g.current ++ block
  others : ∀ n, g.commandsAt n <:+: g'.commandsAt n
  flags : ∀ n, ∀ flag ∈ g.flagsAt n, flag ∈ g'.flagsAt n
  outside : ∀ n ∉ g.regions.ancestors g.current, ∀ flag ∈ g'.flagsAt n, flag ∈ g.flagsAt n

namespace Effect

variable {g'' : Generation} {block block' : List Command}

theorem refl (h : Consistent g) : Effect g g [] :=
  ⟨.refl g, h, (List.append_nil _).symm, fun _ => List.infix_rfl, fun _ _ h => h, fun _ _ _ h => h⟩

theorem trans (h : Effect g g' block) (h' : Effect g' g'' block') : Effect g g'' (block ++ block') := by
  have hcurrent := h.alike.current
  refine ⟨h.alike.trans h'.alike, h'.consistent, ?_, fun n => (h.others n).trans (h'.others n),
    fun n flag hflag => h'.flags n flag (h.flags n flag hflag), fun n hn flag hflag => ?_⟩
  · have hown := h'.own
    rw [hcurrent] at hown
    rw [hown, h.own, List.append_assoc]
  · refine h.outside n hn flag (h'.outside n ?_ flag hflag)
    rwa [h.alike.ancestors, hcurrent]

theorem of_adds (hc : Consistent g) (hplaced : Placed g) (hadds : Adds g g' block)
    (hblock : ∀ c ∈ block, Harmless g g.current c) : Effect g g' block := by
  have hgrows := hadds.grows hplaced
  have hflags := hadds.flagsAt
  refine ⟨hadds.alike, hc.of_commands hadds.alike.like hadds.alike.config hadds.exits hflags
    fun n c hmem => ?_, hgrows.own, fun n => ?_, fun n flag hflag => ?_, fun n _ flag hflag => ?_⟩
  · by_cases hn : n = g.current
    · subst hn
      rw [hgrows.own, List.mem_append] at hmem
      exact hmem.imp_right (hblock c)
    · obtain ⟨front, hfront, hlowers⟩ := hgrows.other n hn
      rw [hfront, List.mem_append] at hmem
      rcases hmem with hmem | hmem
      · obtain ⟨slot, rfl⟩ := hlowers c hmem
        exact .inr (harmless_of_tests (.inl rfl))
      · exact .inl hmem
  · by_cases hn : n = g.current
    · subst hn
      exact ⟨[], block, hgrows.own.symm⟩
    · obtain ⟨front, hfront, -⟩ := hgrows.other n hn
      exact ⟨front, [], by rw [hfront, List.append_nil]⟩
  · rwa [hflags]
  · rwa [hflags] at hflag

end Effect

theorem Change.exists_adds (h : Change g g') : ∃ cs, Adds g g' cs ∧ SparesAll IsFlag cs := by
  have halike := h.alike
  cases h with
  | emit hspares => exact ⟨_, .emit _ _, hspares⟩
  | note => exact ⟨[], ⟨halike, rfl, fun _ => rfl, fun _ => .of_commands halike fun _ => rfl⟩, .nil⟩

/-! ## Raising an exit -/

/-- What raising the exit `x` by its flag does. -/
structure Raises (g g' : Generation) (flag : String) (x : Exit) : Prop where
  alike : Alike g g'
  exits : ∀ flag', g'.exits.lookup flag' = if flag' = flag then some x else g.exits.lookup flag'
  flags : ∀ n flag', flag' ∈ g'.flagsAt n ↔ flag' ∈ g.flagsAt n ∨
    flag' = flag ∧ n ∈ (g.regions.ancestors g.current).takeWhile (· ≠ x.consumer)
  commands : ∀ n, g'.commandsAt n =
    g.commandsAt n ++ if n = g.current then [.setScore (Layout.flag g flag) 1, .ret 0] else []

theorem raises_raised (hn : g.regions.Nested) (hlt : g.current < g.regions.length) {flag : String} {x : Exit}
    (hx : ∀ e, g.exits.lookup flag = some e → e = x) : Raises g (raised g flag x) flag x := by
  have hexit : exitOf g flag x = x := by
    unfold exitOf
    cases hlookup : g.exits.lookup flag with
    | none => rfl
    | some e => exact hx e hlookup
  have hregister : ∀ flag', (register g flag x).exits.lookup flag' =
      if flag' = flag then some x else g.exits.lookup flag' := by
    intro flag'
    unfold register
    cases hlookup : g.exits.lookup flag with
    | none => exact lookup_append_exit hlookup
    | some e =>
        by_cases hflag : flag' = flag
        · rw [if_pos hflag, hflag, ← hx e hlookup]
          exact hlookup
        · rw [if_neg hflag]
  have hregions : (register g flag x).regions = g.regions := by
    unfold register
    split <;> rfl
  have hcurrent := (alike_register g flag x).current
  have hlt' : (register g flag x).current < (register g flag x).regions.length := by
    rwa [hregions, hcurrent]
  refine ⟨alike_raised g flag x, hregister, fun n flag' => ?_, fun n => ?_⟩
  · have hframes : ∀ m ∈ (g.regions.ancestors g.current).takeWhile (· ≠ x.consumer),
        m < ((register g flag x).emit [.setScore (Layout.flag g flag) 1, .ret 0]).regions.length := by
      intro m hm
      rw [(Alike.emit _ _).length, hregions]
      exact hn.lt _ hlt m (List.takeWhile_subset _ hm)
    have hemit := flagsAt_emit hlt' [.setScore (Layout.flag g flag) 1, .ret 0] n
    have hflags : (register g flag x).flagsAt n = g.flagsAt n := by rw [flagsAt, hregions, flagsAt]
    rw [hflags] at hemit
    rw [← hemit]
    unfold raised
    rw [hexit]
    exact mem_flags_markAll hframes
  · have hemit := commandsAt_emit hlt' [.setScore (Layout.flag g flag) 1, .ret 0] n
    have hcommands : (register g flag x).commandsAt n = g.commandsAt n := by
      rw [commandsAt, hregions, commandsAt]
    rw [hcommands, hcurrent] at hemit
    rw [← hemit]
    exact commands_markAll _ _ _ _

theorem flag_inj {flag flag' : String} (h : Layout.flag g flag = Layout.flag g flag') : flag = flag' :=
  congrArg Slot.path h

theorem Consistent.raises (h : Consistent g) (hn : g.regions.Nested) (hlt : g.current < g.regions.length)
    {flag : String} {x : Exit} (hraises : Raises g g' flag x)
    (hx : ∀ e, g.exits.lookup flag = some e → e = x) (hcurrent : x.consumer ≠ g.current)
    (hnamed : flag = Plan.stem x.kind ++ holder (g.regions.absolutePath x.consumer))
    (hconsumer : x.consumer < g.regions.length) (hanswer : Answerable g x) : Consistent g' := by
  have halike := hraises.alike
  refine ⟨fun n flag' hflag => ?_, fun flag' e he => ?_, fun n q flag' e hflag hq he => ?_,
    fun n flag' hflag hset => ?_, fun n c hc m hm henters => ?_⟩
  · rw [hraises.exits]
    split
    · exact ⟨x, rfl⟩
    · next hne =>
      rcases (hraises.flags n flag').1 hflag with hold | ⟨rfl, -⟩
      · exact h.registered n flag' hold
      · exact absurd rfl hne
  · unfold Answerable
    rw [halike.absolutePath, halike.length, halike.parent?]
    rw [hraises.exits] at he
    split at he
    · next hflag =>
      obtain rfl := Option.some.inj he
      exact ⟨hflag.trans hnamed, hconsumer, hanswer⟩
    · exact h.named flag' e he
  · -- marks are passed on: an old one as before, the new one up to the region where the exit ends
    rw [halike.parent?] at hq
    rw [hraises.flags]
    rcases (hraises.flags n flag').1 hflag with hold | ⟨rfl, hframe⟩
    · -- the exit of a mark stays what it was
      obtain ⟨e₀, he₀⟩ := h.registered n flag' hold
      have hsame : e = e₀ := by
        rw [hraises.exits] at he
        split at he
        · next hflag =>
          subst hflag
          rw [hx e₀ he₀]
          exact (Option.some.inj he).symm
        · exact Option.some.inj (he.symm.trans he₀)
      subst hsame
      exact (h.passed n q flag' e hold hq he₀).imp_right .inl
    · rw [hraises.exits, if_pos rfl] at he
      obtain rfl := Option.some.inj he
      exact (hn.next _ hlt _ n q hframe hq).imp_right fun hframe => .inr ⟨rfl, hframe⟩
  · -- the raising region is not the one where the exit ends, so it is marked too
    rw [halike.flag] at hflag hset
    rw [hraises.flags]
    rw [hraises.commands, List.mem_append] at hset
    rcases hset with hold | hnew
    · exact .inl (h.marked n flag' hflag hold)
    · split at hnew
      · next hn =>
        rcases List.mem_cons.1 hnew with hset | hret
        · refine .inr ⟨flag_inj (Command.setScore.inj hset).1, ?_⟩
          rw [hn, Regions.ancestors, List.takeWhile_cons_of_pos (by simpa using Ne.symm hcurrent)]
          exact List.mem_cons_self
        · cases List.mem_singleton.1 hret
      · exact absurd hnew List.not_mem_nil
  · rw [halike.length] at hm
    rw [halike.enters_iff] at henters
    rw [halike.kind, halike.parent?]
    rw [hraises.commands, List.mem_append] at hc
    rcases hc with hold | hnew
    · exact h.leads n c hold m hm henters
    · split at hnew
      · have hspares : SparesAll (fun _ => False) [.setScore (Layout.flag g flag) 1, .ret 0] :=
          .cons not_false (.single trivial)
        exact absurd henters (not_enters_of_spares (hspares c hnew) m)
      · exact absurd hnew List.not_mem_nil

theorem Raises.effect {flag : String} {x : Exit} (h : Raises g g' flag x) (hc : Consistent g') :
    Effect g g' [.setScore (Layout.flag g flag) 1, .ret 0] := by
  refine ⟨h.alike, hc, ?_, fun n => ⟨[], _, (h.commands n).symm⟩, fun n flag' hflag => (h.flags n flag').2 (.inl hflag),
    fun n hn flag' hflag => ?_⟩
  · rw [h.commands, if_pos rfl]
  · rcases (h.flags n flag').1 hflag with hold | ⟨-, hframe⟩
    · exact hold
    · exact absurd (List.takeWhile_subset _ hframe) hn

/-! ## Calls and their checks -/

/-- The calls of a block run regions of `Leads`, and behind each stands a check of every flag that the
region may leave raised. -/
def Settled (Leads : Nat → Prop) (g : Generation) (block : List Command) : Prop :=
  ∀ front c back, block = front ++ c :: back → ∀ n < g.regions.length, Enters g n c →
    Leads n ∧ ∀ flag ∈ g.flagsAt n, ∃ d ∈ back, Tests (Layout.flag g flag) d

namespace Settled

variable {Leads : Nat → Prop} {block block' : List Command}

theorem of_not_enters (h : ∀ c ∈ block, ∀ n, ¬Enters g n c) : Settled Leads g block := by
  rintro front c back rfl n - henters
  exact absurd henters (h c (by simp) n)

/-- A call in a list of two parts stands in the first or in the second. -/
theorem split_cases {front back : List Command} {c : Command} (h : block ++ block' = front ++ c :: back) :
    (∃ mid, block = front ++ c :: mid ∧ back = mid ++ block') ∨ ∃ front', block' = front' ++ c :: back := by
  rcases List.append_eq_append_iff.1 h with ⟨mid, -, hmid⟩ | ⟨mid, hblock, hmid⟩
  · exact .inr ⟨mid, hmid⟩
  · cases mid with
    | nil => exact .inr ⟨[], hmid.symm⟩
    | cons d mid =>
        obtain ⟨rfl, hback⟩ := List.cons.inj hmid
        exact .inl ⟨mid, hblock, hback⟩

theorem append (h : Settled Leads g block) (h' : Settled Leads g block') :
    Settled Leads g (block ++ block') := by
  intro front c back hsplit n hn henters
  rcases split_cases hsplit with ⟨mid, hblock, rfl⟩ | ⟨front', hblock⟩
  · obtain ⟨hlead, hchecks⟩ := h front c mid hblock n hn henters
    refine ⟨hlead, fun flag hflag => ?_⟩
    obtain ⟨d, hd, htests⟩ := hchecks flag hflag
    exact ⟨d, List.mem_append_left _ hd, htests⟩
  · exact h' front' c back hblock n hn henters

theorem of_effect (h : Settled Leads g' block') (heffect : Effect g g' block) : Settled Leads g block' := by
  intro front c back hsplit n hn henters
  have halike := heffect.alike
  obtain ⟨hlead, hchecks⟩ := h front c back hsplit n (halike.length ▸ hn) (halike.enters_iff.2 henters)
  refine ⟨hlead, fun flag hflag => ?_⟩
  rw [← halike.flag]
  exact hchecks flag (heffect.flags n flag hflag)

end Settled

theorem Consistent.eq_exit (hc : Consistent g) (hl : Layered g) {kind : ExitKind} {consumer : Nat}
    (hlt : consumer < g.regions.length) {e : Exit}
    (he : g.exits.lookup (Plan.stem kind ++ holder (g.regions.absolutePath consumer)) = some e) :
    e = ⟨kind, consumer⟩ := by
  obtain ⟨hname, hconsumer, -⟩ := hc.named _ e he
  obtain ⟨hkind, hholder⟩ := Plan.stem_append_inj hname
  have heq := hl.separate.holders _ _ hlt hconsumer hholder
  rw [hkind, heq]

section Effects

variable {Ends Leads : Nat → Prop}

theorem Change.exists_effect (h : Change g g') (hc : Consistent g) (hplaced : Placed g) :
    ∃ block, Effect g g' block ∧ Settled Leads g block := by
  obtain ⟨cs, hadds, hspares⟩ := h.exists_adds
  exact ⟨cs, .of_adds hc hplaced hadds fun c hmem => harmless_of_spares (hspares c hmem),
    .of_not_enters fun c hmem => not_enters_of_spares (hspares c hmem)⟩

/-- From here exits end elsewhere and calls lead right inside. -/
structure Inward (Ends Leads : Nat → Prop) (g : Generation) : Prop where
  layered : Layered g
  lt : g.current < g.regions.length
  ends : ∀ n, Ends n → n ≠ g.current ∧ n < g.regions.length
  leads : ∀ n, Leads n → g.regions.parent? n = some g.current

theorem Inward.of_alike (h : Inward Ends Leads g) (halike : Alike g g') : Inward Ends Leads g' := by
  refine ⟨h.layered.of_alike halike, ?_, ?_, ?_⟩
  all_goals simp only [halike.current, halike.length, halike.parent?]
  · exact h.lt
  · exact h.ends
  · exact h.leads

theorem Inward.placed (h : Inward Ends Leads g) : Placed g :=
  ⟨h.lt, h.layered.nested.apart _ h.lt⟩

/-- Control flow that raises exits elsewhere and calls regions directly inside settles its calls. -/
theorem Turn.exists_effect (h : Turn Ends Leads g g') (hi : Inward Ends Leads g) (hc : Consistent g) :
    ∃ block, Effect g g' block ∧ Settled Leads g block := by
  have hplaced := hi.placed
  obtain ⟨hl, hlt, hends, hleads⟩ := hi
  cases h with
  | change hchange => exact hchange.exists_effect hc hplaced
  | @raise kind consumer hend hanswer =>
      obtain ⟨hne, hconsumer⟩ := hends consumer hend
      -- the name of a flag tells its exit, so a second use finds the first
      have hx : ∀ e, g.exits.lookup (Plan.stem kind ++ holder (g.regions.absolutePath consumer)) = some e →
          e = ⟨kind, consumer⟩ := fun e => hc.eq_exit hl hconsumer
      have hraises := raises_raised hl.nested hlt hx
      refine ⟨_, hraises.effect (hc.raises hl.nested hlt hraises hx hne rfl hconsumer hanswer),
        .of_not_enters fun c hmem => ?_⟩
      have hspares : SparesAll (fun _ => False)
          [.setScore (Layout.flag g (Plan.stem kind ++ holder (g.regions.absolutePath consumer))) 1, .ret 0] :=
        .cons not_false (.single trivial)
      exact not_enters_of_spares (hspares c hmem)
  | @calls _ cs ns hcs hns hsettle =>
      obtain ⟨checks, g₁, hyields, hadds, htests, hanswer⟩ := exists_settle (g.emit cs) ns
      obtain rfl : g₁ = g' := (Prod.mk.inj (hyields.symm.trans hsettle)).2
      have halike : Alike g (g.emit cs) := .emit g cs
      have hlead : ∀ n ∈ ns, n < g.regions.length ∧ g.regions.parent? n = some g.current := fun n hn =>
        ⟨Regions.lt_of_parent? (hleads n (hns n hn)), hleads n (hns n hn)⟩
      refine ⟨cs ++ checks, .of_adds hc hplaced ((Adds.emit g cs).trans hadds) fun c hmem => ?_, ?_⟩
      · rcases List.mem_append.1 hmem with hmem | hmem
        · obtain ⟨n, hn, henters⟩ := hcs c hmem
          exact harmless_of_enters hl (hlead n hn).1 henters (.inr (hlead n hn).2)
        · obtain ⟨flag, htest⟩ := htests c hmem
          exact harmless_of_tests htest
      · intro front c back hsplit n hn henters
        rcases Settled.split_cases hsplit with ⟨mid, rfl, rfl⟩ | ⟨front', rfl⟩
        · -- all checks stand behind all calls
          obtain ⟨m, hm, henters'⟩ := hcs c (by simp)
          obtain rfl : n = m := hl.eq_of_enters hn (hlead m hm).1 henters henters'
          refine ⟨hns n hm, fun flag hflag => ?_⟩
          obtain ⟨e, he⟩ := hc.registered n flag hflag
          obtain ⟨d, hd, htest⟩ := hanswer n hm flag (by rwa [flagsAt_emit hlt]) e he
            (by
              unfold Answerable
              rw [halike.parent?]
              exact (hc.named flag e he).2.2)
          rw [halike.flag] at htest
          exact ⟨d, List.mem_append_right _ hd, htest⟩
        · obtain ⟨flag', htest⟩ := htests c (by simp)
          exact absurd henters (not_enters_of_tests htest n)

theorem Step.exists_effect (h : Step Ends Leads g g') (hi : Inward Ends Leads g) (hc : Consistent g) :
    ∃ block, Effect g g' block := by
  cases h with
  | turn h =>
      obtain ⟨block, heffect, -⟩ := h.exists_effect hi hc
      exact ⟨block, heffect⟩
  | invocation h =>
      cases h with
      | change h =>
          obtain ⟨block, heffect, -⟩ : ∃ block, Effect g g' block ∧ Settled Leads g block :=
            h.exists_effect hc hi.placed
          exact ⟨block, heffect⟩
      | @body n hn =>
          have hkind := hi.layered.bodies n hn
          refine ⟨_, .of_adds hc hi.placed (.emit g _) (List.forall_mem_singleton.2 ?_)⟩
          exact harmless_of_enters hi.layered (lt_of_kind (by simp [hkind])) (.inl rfl) (.inl hkind)

/-- The effects of the changes along a run are the effect of the run, with what is known of each block. -/
theorem exists_effect_of_reaches {C : Generation → Generation → Prop}
    {Q : Generation → List Command → Prop} (hnil : ∀ g, Q g [])
    (happend : ∀ {g g' block block'}, Q g block → Effect g g' block → Q g' block' → Q g (block ++ block'))
    (hstep : ∀ {g g'}, C g g' → Inward Ends Leads g → Consistent g → ∃ block, Effect g g' block ∧ Q g block)
    (h : Reaches C g g') (hi : Inward Ends Leads g) (hc : Consistent g) :
    ∃ block, Effect g g' block ∧ Q g block := by
  induction h with
  | refl => exact ⟨[], .refl hc, hnil g⟩
  | tail _ hlast ih =>
      obtain ⟨block, heffect, hblock⟩ := ih
      obtain ⟨block', heffect', hblock'⟩ := hstep hlast (hi.of_alike heffect.alike) heffect.consistent
      exact ⟨_, heffect.trans heffect', happend hblock heffect hblock'⟩

theorem exists_effect_of_steps (h : Reaches (Step Ends Leads) g g') (hi : Inward Ends Leads g)
    (hc : Consistent g) : ∃ block, Effect g g' block := by
  obtain ⟨block, heffect, -⟩ := exists_effect_of_reaches (Q := fun _ _ => True) (fun _ => trivial)
    (fun _ _ _ => trivial) (fun hstep hi hc => (hstep.exists_effect hi hc).imp fun _ h => ⟨h, trivial⟩) h hi hc
  exact ⟨block, heffect⟩

theorem exists_effect_of_turns (h : Reaches (Turn Ends Leads) g g') (hi : Inward Ends Leads g)
    (hc : Consistent g) : ∃ block, Effect g g' block ∧ Settled Leads g block :=
  exists_effect_of_reaches (fun _ => .of_not_enters fun _ hmem => absurd hmem List.not_mem_nil)
    (fun hblock heffect hblock' => hblock.append (hblock'.of_effect heffect)) Turn.exists_effect h hi hc

end Effects

end Datapack.Generation
