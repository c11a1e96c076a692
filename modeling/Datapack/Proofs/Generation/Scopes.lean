import Datapack.Proofs.Generation.Walk

/-!
# The stack of open regions

Commands go to the innermost open region, so the stack of open regions has to follow the scope tree, which
is computed apart from it.  Only the processors of delimiters move the stack.  All others leave it alone
however they end (`Spares`), so a failure that is reported and passed over does not misplace what follows.
-/

namespace Datapack.Generation

open Ir Command

variable {g g' g'' : Generation}

/-! ## Regions and nodes -/

/-- The name, the kind and the surroundings of a region. -/
def Region.sig (r : Region) : String × ScopeKind × List Nat := (r.name, r.kind, r.outer)

namespace Regions

/-- The regions without what is declared in them and generated for them. -/
def sigs (rs : Regions) : List (String × ScopeKind × List Nat) := rs.map Region.sig

theorem sigs_sketch (rs : Regions) : rs.sketch.sigs = rs.sigs := by
  simp [sigs, sketch, Region.bare, Region.sig]

theorem sigs_update {f : Region → Region} (h : ∀ r, (f r).sig = r.sig) (rs : Regions) (n : Nat) :
    (rs.update n f).sigs = rs.sigs :=
  map_update h rs n

theorem sig_at? (rs : Regions) (n : Nat) : (rs.at? n).sig = rs.sigs[n]?.getD (default : Region).sig := by
  unfold at? sigs
  rw [List.getElem?_map]
  cases rs[n]? <;> rfl

theorem length_sigs (rs : Regions) : rs.sigs.length = rs.length := List.length_map _

end Regions

/-- Regions that mirror a scope tree: the same shape, names and kinds, but that the global region is named
after the pack. -/
structure Mirrors (ns : String) (t : ScopeTree) (rs : Regions) : Prop where
  length : rs.length = t.nodes.length
  root : (rs.at? ScopeTree.root).name = ns
  name : ∀ n ∈ t.inner, (rs.at? n).name = (t.node n).name
  kind : ∀ n < t.nodes.length, (rs.at? n).kind = (t.node n).kind
  outer : ∀ n < t.nodes.length, (rs.at? n).outer = (t.node n).outer
  children : ∀ n, rs.children n = t.children n

theorem Mirrors.of_sigs {ns : String} {t : ScopeTree} {rs rs' : Regions} (h : Mirrors ns t rs)
    (hsigs : rs'.sigs = rs.sigs) : Mirrors ns t rs' := by
  have hat : ∀ n, (rs'.at? n).sig = (rs.at? n).sig := by
    intro n
    rw [Regions.sig_at?, hsigs, ← Regions.sig_at?]
  have hname : ∀ n, (rs'.at? n).name = (rs.at? n).name := fun n => congrArg Prod.fst (hat n)
  have houter : ∀ n, (rs'.at? n).outer = (rs.at? n).outer := fun n => congrArg (·.2.2) (hat n)
  have hlength : rs'.length = rs.length := by
    rw [← Regions.length_sigs, hsigs, Regions.length_sigs]
  refine ⟨hlength.trans h.length, (hname _).trans h.root, fun n hn => (hname n).trans (h.name n hn),
    fun n hn => (congrArg (·.2.1) (hat n)).trans (h.kind n hn), fun n hn => (houter n).trans (h.outer n hn),
    fun n => ?_⟩
  rw [← h.children, Regions.children, Regions.children, hlength]
  refine List.filter_congr fun m _ => ?_
  rw [Regions.parent?, houter, Regions.parent?]

theorem names_foldl (parent : Nat → Nat) (t : ScopeTree) (ns : List Nat) (rs : Regions) :
    (ns.foldl (fun rs n => rs.addChild (parent n) (t.node n).name (t.node n).kind) rs).map Region.name
      = rs.map Region.name ++ ns.map fun n => (t.node n).name := by
  induction ns generalizing rs with
  | nil => simp
  | cons n ns ih =>
      rw [List.foldl_cons, ih]
      simp [Regions.addChild]

theorem mirrors_regionsOf {s : Stream} {t : ScopeTree} (h : ScopeTree.ofStream s = .ok t) (ns : String) :
    Mirrors ns t (regionsOf ns t) := by
  obtain ⟨hlength, hcopies⟩ := copies_regionsOf h ns
  have hnames : (regionsOf ns t).map Region.name = ns :: t.inner.map fun n => (t.node n).name :=
    names_foldl (fun n => (t.node n).parent?.getD 0) t t.inner (Regions.ofRoot ns)
  have hat : ∀ n, ((regionsOf ns t).at? n).name
      = (ns :: t.inner.map fun n => (t.node n).name)[n]?.getD (default : Region).name := by
    intro n
    rw [← hnames, List.getElem?_map, Regions.at?]
    cases (regionsOf ns t)[n]? <;> rfl
  refine ⟨hlength, hat 0, fun n hn => ?_, fun n hn => (hcopies n hn).kind, fun n hn => (hcopies n hn).outer,
    fun n => ?_⟩
  · obtain ⟨hroot, hlt⟩ := ScopeTree.mem_inner_iff.1 hn
    obtain ⟨k, rfl⟩ := Nat.exists_eq_succ_of_ne_zero hroot
    have hk : t.inner[k]? = some (k + 1) := by
      rw [ScopeTree.inner, List.getElem?_tail, List.getElem?_range hlt]
    rw [hat, List.getElem?_cons_succ, List.getElem?_map, hk]
    rfl
  · rw [Regions.children, ScopeTree.children, hlength]
    refine List.filter_congr fun m hm => ?_
    rw [Regions.parent?, (hcopies m (List.mem_range.1 hm)).outer, ScopeNode.parent?]

theorem sig_declare (v : Variable) (r : Region) : (r.declare v).sig = r.sig := rfl

theorem sigs_declareParams (rs : Regions) (bodies : List (Nat × Function)) :
    (bodies.foldl declareParams rs).sigs = rs.sigs := by
  have hparams : ∀ (n : Nat) (ps : List Parameter) (rs : Regions),
      (ps.foldl (fun rs p => rs.update n (·.declare p.var)) rs).sigs = rs.sigs := by
    intro n ps
    induction ps with
    | nil => exact fun _ => rfl
    | cons p ps ih => exact fun rs => (ih _).trans (Regions.sigs_update (sig_declare p.var) rs n)
  induction bodies generalizing rs with
  | nil => rfl
  | cons body bodies ih => exact (ih _).trans (hparams body.1 body.2.params rs)

/-! ## Processors -/

/-- What a processor leaves alone that is none of a delimiter, however it ends. -/
structure Spares (g g' : Generation) : Prop extends Stays g g' where
  sigs : g'.regions.sigs = g.regions.sigs

theorem Spares.trans (h : Spares g g') (h' : Spares g' g'') : Spares g g'' :=
  ⟨⟨h'.config.trans h.config, h'.tree.trans h.tree, h'.functions.trans h.functions,
    h'.current.trans h.current, h'.stack.trans h.stack, h.like.trans h'.like⟩, h'.sigs.trans h.sigs⟩

theorem Spares.of_index {i : Nat} (h : Spares { g with index := i } g') : Spares g g' :=
  ⟨h.toStays.of_index, h.sigs⟩

theorem Alike.spares (h : Alike g g') : Spares g g' := by
  refine ⟨h.stays, ?_⟩
  rw [← Regions.sigs_sketch, h.sketch, Regions.sigs_sketch]

theorem spares_report (g : Generation) (d : Diagnostic) : Spares g (g.report d) :=
  (change_report d).alike.spares

theorem makes_emit_alike (g : Generation) (cs : List Command) :
    Makes Alike g (Gen.emit cs) fun _ _ => True :=
  .change (.emit g cs)

theorem makes_jumpTo_alike (g : Generation) (x : String) :
    Makes Alike g (if x = "" then Pure.pure () else jumpTo x) fun _ _ => True := by
  split
  · exact .pure trivial
  · have hturn := @makes_jumpTo (fun _ => True) (fun _ => True) g x fun _ _ _ => trivial
    exact hturn.mono fun _ _ => Turn.alike

theorem makes_branchTo_alike (g : Generation) (flag : Slot) (p : Polarity) (name : String) :
    Makes Alike g (branchTo flag p name) fun _ _ => True := by
  unfold branchTo
  split
  · exact .pure trivial
  · refine (makes_regionNamed name).bind fun n g _ _ => .get_bind ?_
    exact (makes_emit_alike g _).bind fun _ _ _ _ => .pure trivial

theorem makes_settle_alike (g : Generation) (ns : List Nat) : Makes Alike g (settle ns) fun _ _ => True := by
  refine .forM fun n _ g => ?_
  obtain ⟨checks, g', hyields, hlowers, -⟩ := exists_afterCall g n
  have hcheck : Makes Alike g (afterCall n) fun _ _ => True :=
    .of_yields hyields (.single (adds_of_lowers hlowers).alike) trivial
  exact hcheck.bind fun checks g _ _ => makes_emit_alike g checks

theorem makes_condJump_alike (g : Generation) (ins : Instruction) :
    Makes Alike g (condJump ins) fun _ _ => True := by
  -- the branches whose region is found are taken even when a later one is not found
  have hbranches : ∀ flag g, Makes Alike g
      (do
        let onTrue ← branchTo flag .fails ins.onTrue
        let onFalse ← branchTo flag .holds ins.onFalse
        settle (onTrue ++ onFalse)) fun _ _ => True := by
    intro flag g
    refine (makes_branchTo_alike g _ _ _).bind fun onTrue g _ _ => ?_
    exact (makes_branchTo_alike g _ _ _).bind fun onFalse g _ _ => makes_settle_alike g _
  unfold condJump
  refine ((makes_operand _).mono fun _ _ => Change.alike).bind fun o g _ _ => ?_
  cases o with
  | literal l =>
      dsimp only
      split
      · exact makes_jumpTo_alike g _
      · exact makes_jumpTo_alike g _
  | slot s =>
      dsimp only
      split
      · refine ((makes_freshName _).mono fun _ _ => Change.alike).bind fun name g _ _ => .get_bind ?_
        exact (makes_emit_alike g _).bind fun _ g _ _ => hbranches _ g
      · exact hbranches s g

theorem spares_plain {ins : Instruction} (hplain : isDelimiter ins = false) (g : Generation) :
    Spares g ((processors.find ins.op ins).run g).2 := by
  have hmakes : ∀ {m : Gen Unit}, Makes Alike g m (fun _ _ => True) → Spares g (m.run g).2 :=
    fun h => (h.1.alike fun _ _ => id).spares
  by_cases hdeclare : ins.op = .declare
  · rw [hdeclare]
    change Spares g ((declare ins).run g).2
    unfold declare
    split
    · next v hv =>
      exact ⟨⟨rfl, rfl, rfl, rfl, rfl, like_declare v _ _⟩, Regions.sigs_update (sig_declare v) _ _⟩
    · exact (Alike.refl g).spares
  · by_cases hop : ins.op = .condJump
    · rw [hop]
      exact hmakes (makes_condJump_alike g ins)
    · have hbounded : Bounded (fun _ => True) (fun _ => True) g ins :=
        ⟨fun _ _ _ _ => trivial, fun h => absurd h hop, fun _ _ _ => trivial, fun _ _ _ => trivial⟩
      exact hmakes ((makes_step hbounded hplain hdeclare).mono fun _ _ => Step.alike)

/-- Processors under which only delimiters move the stack. -/
structure KeepsStack (ps : Processors) : Prop where
  opens : ps.find .scopeBegin = scopeBegin
  closes : ps.find .scopeEnd = scopeEnd
  spares : ∀ ins, isDelimiter ins = false → ∀ g, Spares g ((ps.find ins.op ins).run g).2

theorem keepsStack_processors : KeepsStack processors := ⟨rfl, rfl, fun _ => spares_plain⟩

/-! ## Runs -/

theorem processFrom_of_yields {ps : Processors} {i : Nat} {ins : Instruction}
    (h : Yields (ps.find ins.op ins) { g with index := i } () g') : processFrom ps i g [ins] = (g', none) := by
  unfold Yields at h
  rw [processFrom, h]
  rfl

/-- Where the generator stands behind a part of a stream, over regions with their names. -/
structure Follows (g₀ : Generation) (pre : Stream) (g : Generation) : Prop extends StandsAt g₀ pre g where
  sigs : g.regions.sigs = g₀.regions.sigs

namespace Follows

variable {p : Program} {g₀ : Generation} {pre post : Stream} {ins : Instruction} {ps : Processors}
  {t : ScopeTree}

theorem stay (h : Follows g₀ pre g) (hplain : isDelimiter ins = false) (hspares : Spares g g') :
    Follows g₀ (pre ++ [ins]) g' :=
  ⟨h.toStandsAt.stay hplain hspares.toStays, hspares.sigs.trans h.sigs⟩

theorem delimit (h : Follows g₀ pre g) (hps : KeepsStack ps) (ht : ScopeTree.ofStream p.code = .ok t)
    (htree : g₀.tree = t) (hs : p.code = pre ++ ins :: post) (hd : isDelimiter ins = true) :
    ∃ g', Yields (ps.find ins.op ins) { g with index := pre.length } () g' ∧ Follows g₀ (pre ++ [ins]) g' := by
  have hmoves : ∀ {g'}, Moves (fun _ => True) (fun _ => True) pre.length ins g g' →
      g'.regions = g.regions → Follows g₀ (pre ++ [ins]) g' := by
    intro g' hm hregions
    refine ⟨h.toStandsAt.advance ht htree hs hm, ?_⟩
    rw [hregions]
    exact h.sigs
  rcases ins.delimiter_cases with hop | hop | hplain
  · refine ⟨_, ?_, hmoves (.enter hop) rfl⟩
    rw [hop, hps.opens]
    exact .change _
  · obtain ⟨n, stack, hopen⟩ := List.exists_cons_of_ne_nil (h.stack_ne_nil ht hs hop)
    refine ⟨_, ?_, hmoves (.leave hop hopen) rfl⟩
    rw [hop, hps.closes]
    exact .pop hopen
  · rw [isDelimiter_eq_false.2 hplain] at hd
    exact Bool.noConfusion hd

/-- What stands between delimiters leaves the stack alone, even when it fails. -/
theorem pass (h : Follows g₀ pre g) (hps : KeepsStack ps) (hdebug : g₀.config.debug = false)
    (hplain : isDelimiter ins = false) :
    ∃ g', processFrom ps pre.length g [ins] = (g', none) ∧ Spares g g' := by
  have hspares := (hps.spares ins hplain { g with index := pre.length }).of_index
  unfold processFrom
  rcases hrun : (ps.find ins.op ins).run { g with index := pre.length } with ⟨e | a, g'⟩
  · rw [hrun] at hspares
    have hdebug' : g'.config.debug = false := by rw [hspares.config, h.config, hdebug]
    refine ⟨_, ?_, hspares.trans (spares_report g' (failureReport ins e))⟩
    dsimp only
    rw [if_neg (by simp [hdebug'])]
    rfl
  · rw [hrun] at hspares
    exact ⟨g', rfl, hspares⟩

theorem step (h : Follows g₀ pre g) (hps : KeepsStack ps) (hdebug : g₀.config.debug = false)
    (ht : ScopeTree.ofStream p.code = .ok t) (htree : g₀.tree = t) (hs : p.code = pre ++ ins :: post) :
    ∃ g', processFrom ps pre.length g [ins] = (g', none) ∧ Follows g₀ (pre ++ [ins]) g' := by
  by_cases hd : isDelimiter ins = true
  · obtain ⟨g', hyields, hfollows⟩ := h.delimit hps ht htree hs hd
    exact ⟨g', processFrom_of_yields hyields, hfollows⟩
  · rw [Bool.not_eq_true] at hd
    obtain ⟨g', hprocess, hspares⟩ := h.pass hps hdebug hd
    exact ⟨g', hprocess, h.stay hd hspares⟩

/-- The generator follows the tree behind every part of the stream, whatever has failed in it. -/
theorem run (hps : KeepsStack ps) (hdebug : g₀.config.debug = false) (hstarts : Starts t g₀)
    (ht : ScopeTree.ofStream p.code = .ok t) (hs : p.code = pre ++ post) :
    ∃ g, processFrom ps 0 g₀ pre = (g, none) ∧ Follows g₀ pre g := by
  induction pre using List.reverseRecOn generalizing post with
  | nil => exact ⟨g₀, rfl, hstarts.standsAt, rfl⟩
  | append_singleton pre ins ih =>
      have hs' : p.code = pre ++ ins :: post := by rw [hs, List.append_assoc, List.singleton_append]
      obtain ⟨g, hrun, hfollows⟩ := ih hs'
      obtain ⟨g', hlast, hfollows'⟩ := hfollows.step hps hdebug ht hstarts.tree hs'
      refine ⟨g', ?_, hfollows'⟩
      rw [processFrom_append, hrun, Nat.zero_add]
      exact hlast

/-- Behind a whole stream only the global region is open. -/
theorem closed (h : Follows g₀ p.code g) (ht : ScopeTree.ofStream p.code = .ok t) :
    g.current = ScopeTree.root ∧ g.stack = [] := by
  have hbracketed := closes_iff_bracketed.1 ((ScopeTree.ofStream_isOk_iff p.code).1 ⟨t, ht⟩)
  have hposition := h.position
  rw [hbracketed.stack_after] at hposition
  exact List.cons.inj hposition

end Follows

theorem mirrors_of_start {config : Config} {p : Program} {diagnostics : Bag} {newId : Nat → String}
    {g : Generation} {t : ScopeTree} (h : start config p diagnostics newId = .ok g)
    (ht : ScopeTree.ofStream p.code = .ok t) : Mirrors config.ns t g.regions := by
  obtain ⟨-, -, -, -, hregions⟩ := starts_of_start h ht
  refine (mirrors_regionsOf ht config.ns).of_sigs ?_
  rw [hregions, sigs_declareParams]

/-- Commands go where the tree places their instruction, whatever has failed before: the innermost open
region is the one around the instruction, delimiters do not fail, and in the end the global region is the
only open one.  The regions mirror the tree throughout. -/
theorem stack_follows_tree {config : Config} {p : Program} {diagnostics : Bag} {newId : Nat → String}
    {g₀ : Generation} (hstart : start config p diagnostics newId = .ok g₀) (hdebug : config.debug = false) :
    ScopeTree.ofStream p.code = .ok g₀.tree ∧
      (∀ pre ins post, p.code = pre ++ ins :: post →
        ∃ g g', processFrom processors 0 g₀ pre = (g, none) ∧
          processFrom processors pre.length g [ins] = (g', none) ∧
          Mirrors config.ns g₀.tree g.regions ∧
          (isDelimiter ins = false →
            g.current = g₀.tree.nodeAt pre.length ∧ g'.current = g.current ∧ g'.stack = g.stack) ∧
          (isDelimiter ins = true →
            Yields (processors.find ins.op ins) { g with index := pre.length } () g')) ∧
      ∃ g, lower g₀ = (g, none) ∧ g.current = ScopeTree.root ∧ g.stack = [] ∧
        Mirrors config.ns g₀.tree g.regions := by
  obtain ⟨t, ht⟩ := exists_tree hstart
  obtain ⟨hstarts, hconfig, hprogram, -, -⟩ := starts_of_start hstart ht
  obtain rfl := hstarts.tree
  have hdebug' : g₀.config.debug = false := by rw [hconfig, hdebug]
  have hmirrors := mirrors_of_start hstart ht
  have hrun := fun {pre post} =>
    @Follows.run p g₀ pre post processors g₀.tree keepsStack_processors hdebug' hstarts ht
  refine ⟨ht, fun pre ins post hs => ?_, ?_⟩
  · obtain ⟨g, hpre, hfollows⟩ := hrun hs
    by_cases hd : isDelimiter ins = true
    · obtain ⟨g', hyields, -⟩ := hfollows.delimit keepsStack_processors ht rfl hs hd
      exact ⟨g, g', hpre, processFrom_of_yields hyields, hmirrors.of_sigs hfollows.sigs,
        fun hplain => Bool.noConfusion (hd.symm.trans hplain), fun _ => hyields⟩
    · rw [Bool.not_eq_true] at hd
      obtain ⟨g', hins, hspares⟩ := hfollows.pass keepsStack_processors hdebug' hd
      refine ⟨g, g', hpre, hins, hmirrors.of_sigs hfollows.sigs, fun _ => ⟨?_, hspares.current, hspares.stack⟩,
        fun hd' => Bool.noConfusion (hd'.symm.trans hd)⟩
      rw [hfollows.current_eq ht hs hd, ScopeTree.nodeAt_plain ht hs hd]
  · obtain ⟨g, hprocess, hfollows⟩ := hrun (List.append_nil p.code).symm
    obtain ⟨helpers, tags, hfinish⟩ := finish_eq g
    have hlower : lower g₀ = (finish g, none) := by
      have hprocess' : process processors g₀ = (g, none) := by
        rw [← hprocess, ← hprogram]
        rfl
      rw [lower, hprocess']
    obtain ⟨hcurrent, hstack⟩ := hfollows.closed ht
    refine ⟨finish g, hlower, ?_⟩
    rw [hfinish]
    exact ⟨hcurrent, hstack, hmirrors.of_sigs hfollows.sigs⟩

/-- A declaration and a jump fail inside a block of a block. -/
def faulty : Stream :=
  [.scopeBegin "a" .block, .scopeBegin "b" .block, .declare none, .jump "c", .ret none, .scopeEnd "b" .block,
    .scopeEnd "a" .block]

theorem stack_faulty :
    ∃ g₀ g g', start {} { code := faulty } [] toString = .ok g₀ ∧
      processFrom processors 0 g₀ (faulty.take 4) = (g, none) ∧ g.diagnostics.length = 2 ∧
      g.current = g₀.tree.nodeAt 4 ∧ g₀.tree.nodeAt 4 = 2 ∧
      lower g₀ = (g', none) ∧ g'.current = ScopeTree.root ∧ g'.stack = [] := by
  obtain ⟨g₀, hstart, hnode, hreports⟩ : ∃ g₀, start {} { code := faulty } [] toString = .ok g₀ ∧
      g₀.tree.nodeAt 4 = 2 ∧ (processFrom processors 0 g₀ (faulty.take 4)).1.diagnostics.length = 2 :=
    ⟨_, rfl, by decide +kernel, by decide +kernel⟩
  obtain ⟨-, hat, g', hlower, hcurrent, hstack, -⟩ := stack_follows_tree hstart rfl
  obtain ⟨g, _, hwalk, -, -, hplain, -⟩ := hat (faulty.take 4) (.ret none) (faulty.drop 5) rfl
  refine ⟨g₀, g, g', hstart, hwalk, ?_, (hplain rfl).1, hnode, hlower, hcurrent, hstack⟩
  rw [hwalk] at hreports
  exact hreports

end Datapack.Generation
