import Datapack.Proofs.Generation.Walk
import Mathlib.Tactic.IntervalCases

/-!
# Where variables live

The generator places a variable by its name, under the nearest region around that has declared the name
by then; validity asks for the variable itself.  The two agree unless a region in between has bound the
name again, and then they may not.
-/

namespace Datapack.Generation

open Ir Command

/-! ## Names bound in a region -/

/-- A region binds a name. -/
def Regions.Binds (rs : Regions) (n : Nat) (x : String) : Prop :=
  ((rs.at? n).symbols.lookup x).isSome = true

theorem Region.binds_declare_iff {r : Region} {v : Variable} {x : String} :
    ((r.declare v).symbols.lookup x).isSome = true ↔ (r.symbols.lookup x).isSome = true ∨ v.name = x := by
  refine ⟨fun h => ?_, fun h => isSome_lookup_declare (h.symm.imp_left Eq.symm)⟩
  obtain ⟨q, hq, hqx⟩ := List.lookup_isSome_iff.1 h
  rw [Region.declare, List.mem_append, List.mem_filter, List.mem_singleton] at hq
  rcases hq with ⟨hq, -⟩ | rfl
  · exact .inl (List.lookup_isSome_iff.2 ⟨q, hq, hqx⟩)
  · exact .inr (by simpa using Eq.symm (beq_iff_eq.1 hqx))

namespace Regions

variable {rs : Regions} {n m : Nat} {x : String}

theorem binds_update_iff {v : Variable} (h : m < rs.length) :
    (rs.update m (·.declare v)).Binds n x ↔ rs.Binds n x ∨ (m = n ∧ v.name = x) := by
  unfold Binds
  by_cases hnm : n = m
  · subst hnm
    rw [at?_update_self _ h, Region.binds_declare_iff]
    simp
  · rw [at?_update_ne _ hnm]
    simp [Ne.symm hnm]

theorem binds_of_sketch {rs' : Regions} (h : rs'.sketch = rs.sketch) : rs'.Binds n x ↔ rs.Binds n x := by
  have hat : (rs'.at? n).bare = (rs.at? n).bare := by
    rw [← at?_sketch, h, at?_sketch]
  have hsymbols := congrArg Region.symbols hat
  change (rs'.at? n).symbols = (rs.at? n).symbols at hsymbols
  rw [Binds, hsymbols, Binds]

theorem symbolPath_of_nearest {d : Nat} {front back : List Nat}
    (h : rs.ancestors n = front ++ d :: back) (hfront : ∀ m ∈ front, ¬rs.Binds m x) (hd : rs.Binds d x) :
    rs.symbolPath n x = rs.absolutePath d ++ "." ++ x := by
  obtain ⟨v, hv⟩ := Option.isSome_iff_exists.1 hd
  have hnone : front.findSome? (fun m => ((rs.at? m).symbols.lookup x).map (m, ·)) = none := by
    refine List.findSome?_eq_none_iff.2 fun m hm => ?_
    rw [Option.map_eq_none_iff]
    exact Option.not_isSome_iff_eq_none.1 (hfront m hm)
  have hlookup : rs.lookup n x = some (d, v) := by
    rw [lookup, h, List.findSome?_append, hnone, Option.none_or, List.findSome?_cons, hv]
    rfl
  rw [symbolPath, hlookup]

end Regions

/-! ## Names bound by a stream -/

/-- By instruction `i` a region has bound a name: it has declared a variable of that name, or is the body
of a function with such a parameter. -/
def BoundBy (s : Stream) (t : ScopeTree) (i n : Nat) (x : String) : Prop :=
  (∃ j w, (j < i ∧ Declares s j w) ∧ t.enclosingAt j = n ∧ w.name = x) ∨
    ((t.node n).kind = .function ∧ ∃ f, IsBody s t n f ∧ ∃ q ∈ f.params, q.name = x)

theorem binds_declareParams_iff {rs : Regions} {body : Nat × Function} {n : Nat} {x : String}
    (h : body.1 < rs.length) :
    (declareParams rs body).Binds n x ↔
      rs.Binds n x ∨ (body.1 = n ∧ ∃ q ∈ body.2.params, q.name = x) := by
  obtain ⟨m, f⟩ := body
  unfold declareParams
  dsimp only at h ⊢
  induction f.params generalizing rs with
  | nil => simp
  | cons q qs ih =>
      rw [List.foldl_cons, ih (by rwa [Regions.length_update]), Regions.binds_update_iff h]
      simp only [List.exists_mem_cons_iff, Parameter.name]
      tauto

theorem binds_foldl_declareParams_iff {rs : Regions} {bodies : List (Nat × Function)} {n : Nat} {x : String}
    (h : ∀ body ∈ bodies, body.1 < rs.length) :
    (bodies.foldl declareParams rs).Binds n x ↔
      rs.Binds n x ∨ ∃ f, (n, f) ∈ bodies ∧ ∃ q ∈ f.params, q.name = x := by
  induction bodies generalizing rs with
  | nil => simp
  | cons body bodies ih =>
      have hlength : (declareParams rs body).length = rs.length := (declareParams_rest rs [body]).1.length
      rw [List.forall_mem_cons] at h
      rw [List.foldl_cons, ih (by rw [hlength]; exact h.2), binds_declareParams_iff h.1]
      constructor
      · rintro ((hold | ⟨rfl, hparam⟩) | ⟨f, hf, hparam⟩)
        · exact .inl hold
        · exact .inr ⟨body.2, List.mem_cons_self, hparam⟩
        · exact .inr ⟨f, List.mem_cons_of_mem _ hf, hparam⟩
      · rintro (hold | ⟨f, hf, hparam⟩)
        · exact .inl (.inl hold)
        · rcases List.mem_cons.1 hf with rfl | hf
          · exact .inl (.inr ⟨rfl, hparam⟩)
          · exact .inr ⟨f, hf, hparam⟩

section Walk

variable {config : Config} {p : Program} {diagnostics : Bag} {newId : Nat → String} {g₀ g g' : Generation}
  {t : ScopeTree} {n : Nat} {x : String} {pre post : Stream}

/-- At first every function body binds its parameters. -/
theorem binds_start_iff (hstart : start config p diagnostics newId = .ok g₀)
    (ht : ScopeTree.ofStream p.code = .ok t) (hn : n < t.nodes.length) :
    g₀.regions.Binds n x ↔ BoundBy p.code t 0 n x := by
  obtain ⟨-, -, -, hfunctions, hregions⟩ := starts_of_start hstart ht
  obtain ⟨hlength, hcopies⟩ := copies_regionsOf ht config.ns
  have hlt : ∀ body ∈ g₀.functions, body.1 < (regionsOf config.ns t).length := by
    rintro ⟨m, f⟩ hmem
    rw [hlength]
    exact (ScopeTree.mem_inner_iff.1 (body_of_mem hstart ht hmem).1).2
  have hnone : ¬(regionsOf config.ns t).Binds n x := by
    rw [Regions.Binds, (hcopies n hn).symbols]
    simp
  rw [hregions, binds_foldl_declareParams_iff hlt]
  constructor
  · rintro (hold | ⟨f, hf, hparam⟩)
    · exact absurd hold hnone
    · obtain ⟨-, hkind, hbody⟩ := body_of_mem hstart ht hf
      exact .inr ⟨hkind, f, hbody, hparam⟩
  · rintro (⟨j, w, ⟨hj, -⟩, -⟩ | ⟨hkind, f, hf, hparam⟩)
    · exact absurd hj (Nat.not_lt_zero j)
    · have hinner := ScopeTree.mem_inner_iff.2 ⟨ne_root_of_kind ht (by simp [hkind]), hn⟩
      have hlookup := Option.join_eq_some_iff.1 ((isBody_iff ht hinner hkind).2 hf)
      obtain ⟨front, back, hsplit, -⟩ := List.lookup_eq_some_iff.1 hlookup
      exact .inr ⟨f, (mem_bodies_iff hfunctions).2 (by simp [hsplit]), hparam⟩

theorem boundBy_snoc_iff {ins : Instruction} (hs : p.code = pre ++ ins :: post) :
    BoundBy p.code t (pre ++ [ins]).length n x ↔
      BoundBy p.code t pre.length n x ∨ (ins.op = .declare ∧ ∃ v, varOf (ins.refAt 0) = some v ∧
        t.enclosingAt pre.length = n ∧ v.name = x) := by
  unfold BoundBy
  simp only [declares_snoc_iff hs]
  constructor
  · rintro (⟨j, w, hj | ⟨rfl, hop, hw⟩, hscope, hname⟩ | hparam)
    · exact .inl (.inl ⟨j, w, hj, hscope, hname⟩)
    · exact .inr ⟨hop, w, hw, hscope, hname⟩
    · exact .inl (.inr hparam)
  · rintro ((⟨j, w, hj, hscope, hname⟩ | hparam) | ⟨hop, w, hw, hscope, hname⟩)
    · exact .inl ⟨j, w, .inl hj, hscope, hname⟩
    · exact .inr hparam
    · exact .inl ⟨pre.length, w, .inr ⟨rfl, hop, hw⟩, hscope, hname⟩

/-- A declaration binds its name in the innermost region; no other instruction binds a name. -/
theorem binds_moves_iff {Ends Leads : Nat → Prop} {ins : Instruction} {m : Nat}
    (h : Moves Ends Leads pre.length ins g g')
    (hat : ins.op = .declare → g.current = m ∧ m < g.regions.length) :
    g'.regions.Binds n x ↔ g.regions.Binds n x ∨ (ins.op = .declare ∧ ∃ v, varOf (ins.refAt 0) = some v ∧
      m = n ∧ v.name = x) := by
  cases h with
  | enter hop | leave hop _ => simp [push, hop]
  | declare hop hv =>
      obtain ⟨rfl, hlt⟩ := hat hop
      rw [Regions.binds_update_iff hlt]
      simp [hop, hv]
  | step _ hop hreach =>
      rw [Regions.binds_of_sketch (hreach.alike fun _ _ => Step.alike).sketch]
      simp [hop]

/-- Behind any part of a stream every region binds what it has declared by then. -/
theorem walk_binds (hstart : start config p diagnostics newId = .ok g₀)
    (ht : ScopeTree.ofStream p.code = .ok t) (hwf : WellFormed p t) (hs : p.code = pre ++ post)
    (hwalk : processFrom processors 0 g₀ pre = (g, none)) :
    StandsAt g₀ pre g ∧
      ∀ n, n < t.nodes.length → ∀ x, g.regions.Binds n x ↔ BoundBy p.code t pre.length n x := by
  obtain ⟨hstarts, -⟩ := starts_of_start hstart ht
  refine walk_induction (P := fun pre g => StandsAt g₀ pre g ∧
    ∀ n, n < t.nodes.length → ∀ x, g.regions.Binds n x ↔ BoundBy p.code t pre.length n x)
    rfl ⟨hstarts.standsAt, fun n hn x => binds_start_iff hstart ht hn⟩ ?_ hs hwalk
  rintro pre ins post g g' hs - - hstep ⟨hstands, hbinds⟩
  have hmoves := hstands.moves ht hwf hs hstep (hstands.bounded ht hstarts.tree hwf hs)
  refine ⟨hstands.advance ht hstarts.tree hs hmoves, fun n hn x => ?_⟩
  have hat : ins.op = .declare → g.current = t.enclosingAt pre.length ∧
      t.enclosingAt pre.length < g.regions.length := by
    intro hop
    have hplain : isDelimiter ins = false := isDelimiter_eq_false.2 ⟨by simp [hop], by simp [hop]⟩
    have hcurrent := hstands.current_eq ht hs hplain
    exact ⟨hcurrent, hcurrent ▸ hstands.current_lt ht hstarts hs hplain⟩
  rw [binds_moves_iff hmoves hat, hbinds n hn x, boundBy_snoc_iff hs]

/-! ## Slots -/

/-- The generator reads and writes a reference in a slot. -/
def Accesses (g : Generation) (r : Reference) (s : Slot) : Prop :=
  Yields (operand (some r)) g (.slot s) g ∧ Yields (destination (some r)) g s g

theorem accesses_slot (g : Generation) {r : Reference} {v : Variable} (hr : r.var? = some v) :
    Accesses g r (Layout.slot g v) := by
  rcases r with l | w | w | f | c
  all_goals cases hr
  all_goals exact ⟨.bind .get (.pure _), .bind .get (.pure _)⟩

theorem destination_yields {r : Option Reference} {v : Variable} (hv : varOf r = some v) (g : Generation) :
    Yields (destination r) g (Layout.slot g v) g := by
  cases r with
  | none => cases hv
  | some x => exact (accesses_slot g hv).2

/-- A variable that a region around has declared, and whose name no region in between has bound by then,
lives under the declaring region. -/
theorem reads_declared_slot (hstart : start config p diagnostics newId = .ok g₀) (hvalid : p.isValid = true)
    (ht : ScopeTree.ofStream p.code = .ok t) {i j : Nat} {ins : Instruction} (hi : p.code[i]? = some ins)
    (hplain : isDelimiter ins = false)
    (hwalk : processFrom processors 0 g₀ (p.code.take i) = (g, none))
    {v : Variable} (hkind : v.kind = .common) (hj : j < i) (hv : Declares p.code j v)
    (haround : t.enclosingAt j ∈ t.ancestors (t.enclosingAt i))
    (hnear : ∀ m ∈ (t.ancestors (t.enclosingAt i)).takeWhile (· ≠ t.enclosingAt j),
      ¬BoundBy p.code t i m v.name)
    {r : Reference} (hr : r.var? = some v) (halike : Alike { g with index := i } g') :
    Accesses g' r
      (place config.ns (g₀.regions.absolutePath (t.enclosingAt j) ++ "." ++ v.name) v.type) := by
  obtain ⟨pre, post, hs, rfl⟩ := exists_split hi
  rw [hs, List.take_left] at hwalk
  obtain ⟨hstands, hbinds⟩ := walk_binds hstart ht (Program.wellFormed hvalid ht) hs hwalk
  obtain ⟨hstarts, hconfig, -⟩ := starts_of_start hstart ht
  have hlt := ScopeTree.enclosingAt_lt ht pre.length
  have hancestors := hstands.ancestors_current ht hstarts hs hplain
  obtain ⟨front, back, hsplit, hfront⟩ := List.eq_append_cons_of_mem haround
  have hnearer : (t.ancestors (t.enclosingAt pre.length)).takeWhile (· ≠ t.enclosingAt j) = front := by
    rw [hsplit, List.takeWhile_append_of_pos, List.takeWhile_cons_of_neg (by simp), List.append_nil]
    exact fun m hm => decide_eq_true fun h => hfront (h ▸ hm)
  have hbound : ∀ m ∈ t.ancestors (t.enclosingAt pre.length), m < t.nodes.length :=
    fun m hm => Nat.lt_of_le_of_lt (le_of_mem_ancestors ht hlt hm) hlt
  have hpath : g.regions.symbolPath g.current v.name
      = g₀.regions.absolutePath (t.enclosingAt j) ++ "." ++ v.name := by
    rw [Regions.symbolPath_of_nearest (hancestors.trans hsplit), hstands.like.absolutePath]
    · intro m hm
      rw [hbinds m (hbound m (hsplit ▸ List.mem_append_left _ hm))]
      exact hnear m (hnearer ▸ hm)
    · rw [hbinds _ (hbound _ haround)]
      exact .inl ⟨j, v, ⟨hj, hv⟩, rfl, rfl⟩
  have hslot : Layout.slot g' v
      = place config.ns (g₀.regions.absolutePath (t.enclosingAt j) ++ "." ++ v.name) v.type := by
    have hns : g.ns = config.ns := by
      rw [hstands.ns, Generation.ns, hconfig]
    rw [halike.slot]
    unfold Layout.slot
    rw [if_neg (by simp [hkind])]
    exact congrArg₂ (fun ns path => place ns path v.type) hns hpath
  exact hslot ▸ accesses_slot g' hr

end Walk

/-- A number with the name `x`. -/
private def number (id : String) : Variable := { id, name := "x", type := .data .int }

/-- A block declares a number of its own by the name of the one that the block behind it assigns. -/
def separate : Stream :=
  [.declare (some (.var (number "outer"))), .scopeBegin "a" .block,
    .declare (some (.var (number "inner"))), .scopeEnd "a" .block, .scopeBegin "b" .block,
    .assign (some (.var (number "outer"))) (some (.literal (.int 5))), .scopeEnd "b" .block, .jump "b"]

theorem accesses_separate :
    ∃ g₀ g, start {} { code := separate } [] toString = .ok g₀ ∧
      processFrom processors 0 g₀ (separate.take 5) = (g, none) ∧
      Accesses { g with index := 5 } (.var (number "outer")) (.score "mcfc.x" "mcfc") := by
  obtain ⟨g₀, g, hstart, hwalk, hplace⟩ : ∃ g₀ g, start {} { code := separate } [] toString = .ok g₀ ∧
      processFrom processors 0 g₀ (separate.take 5) = (g, none) ∧
      place "mcfc" (g₀.regions.absolutePath 0 ++ "." ++ "x") (.data .int) = .score "mcfc.x" "mcfc" :=
    ⟨_, _, rfl, rfl, by decide +kernel⟩
  obtain ⟨t, ht, houter, hinner, haround, hblock⟩ : ∃ t, ScopeTree.ofStream separate = .ok t ∧
      t.enclosingAt (0 : Nat) = 0 ∧ t.enclosingAt (2 : Nat) = 1 ∧
      t.ancestors (t.enclosingAt (5 : Nat)) = [2, 0] ∧ (t.node 2).kind = .block :=
    ⟨_, rfl, by decide, by decide, by decide, rfl⟩
  have hother : ∀ m ∈ (t.ancestors (t.enclosingAt (5 : Nat))).takeWhile (· ≠ t.enclosingAt (0 : Nat)),
      ¬BoundBy separate t 5 m "x" := by
    rw [haround, houter]
    intro m hm
    obtain rfl : m = 2 := by simpa using hm
    rintro (⟨k, w, ⟨hlt, ins, hk, hop, -⟩, hscope, -⟩ | ⟨hkind, -⟩)
    · -- only the first and the third instruction declare something, outside the second block
      interval_cases k <;> cases Option.some.inj hk
      · exact absurd (houter.symm.trans hscope) (by decide)
      · cases hop
      · exact absurd (hinner.symm.trans hscope) (by decide)
      all_goals cases hop
    · rw [hblock] at hkind
      cases hkind
  have haccess := reads_declared_slot hstart (by decide) ht (i := 5) (j := 0) rfl rfl hwalk rfl (by decide)
    ⟨_, rfl, rfl, rfl⟩ (by rw [houter, haround]; decide) hother (v := number "outer")
    (r := .var (number "outer")) rfl (.refl _)
  rw [houter] at haccess
  exact ⟨g₀, g, hstart, hwalk, hplace ▸ haccess⟩

/-- A block declares a number of its own by the name of the one it assigns. -/
def shadowing : Stream :=
  [.declare (some (.var (number "outer"))), .scopeBegin "b" .block,
    .declare (some (.var (number "inner"))), .assign (some (.var (number "outer"))) (some (.literal (.int 5))),
    .scopeEnd "b" .block, .jump "b"]

/-- The assignment goes to the number of the block. -/
theorem accesses_shadowing :
    Program.isValid { code := shadowing } = true ∧
      (∀ k v, Declares shadowing k v → (k = 0 ∧ v = number "outer") ∨ (k = 2 ∧ v = number "inner")) ∧
      ∃ g₀ g t, start {} { code := shadowing } [] toString = .ok g₀ ∧
        ScopeTree.ofStream shadowing = .ok t ∧ t.enclosingAt 0 ∈ t.ancestors (t.enclosingAt 3) ∧
        processFrom processors 0 g₀ (shadowing.take 3) = (g, none) ∧
        Accesses { g with index := 3 } (.var (number "outer")) (.score "mcfc.b.x" "mcfc") ∧
        place "mcfc" (g₀.regions.absolutePath (t.enclosingAt 0) ++ "." ++ "x") (.data .int)
          = .score "mcfc.x" "mcfc" := by
  refine ⟨by decide, ?_, _, _, _, rfl, rfl, by decide, rfl, ?_, by decide +kernel⟩
  · rintro k v ⟨ins, hk, hop, hv⟩
    have hlt : k < 6 := (List.getElem?_eq_some_iff.1 hk).1
    interval_cases k <;> cases Option.some.inj hk
    · exact .inl ⟨rfl, (Option.some.inj hv).symm⟩
    · cases hop
    · exact .inr ⟨rfl, (Option.some.inj hv).symm⟩
    all_goals cases hop
  · have hslot : ∀ s g v, Layout.slot g v = s → Accesses g (.var v) s :=
      fun s g v h => h ▸ accesses_slot g rfl
    exact hslot _ _ _ (by decide +kernel)

end Datapack.Generation
