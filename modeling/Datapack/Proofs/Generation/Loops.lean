import Datapack.Proofs.Generation.Acceptance
import Datapack.Proofs.Generation.Slots

/-!
# Which loop an exit leaves

An exit names a loop or a part of one around it.  Validity looks for the nearest region that has the name
and belongs to a loop; the generator takes the nearest region of the name if that is a loop, and the
innermost loop otherwise.  The two mean the same loop exactly when the name stands for its loop at once, or
no other loop lies in between.
-/

namespace Datapack.Ir.ScopeTree

variable {s : Stream} {t : ScopeTree} {n m named loop : Nat} {x : String} {front back : List Nat}

/-- The nearest region of a name that is a loop or a part of one, the region itself included. -/
def loopNamed? (t : ScopeTree) (n : Nat) (x : String) : Option Nat :=
  (t.ancestors n).find? fun m => (t.node m).name = x && (t.node m).kind.isLoop

/-- The loop an exit of a name ends at, seen from its region: the region the name stands for if that is a
loop, else the innermost loop. -/
def exitLoop? (t : ScopeTree) (n : Nat) (x : String) : Option Nat :=
  ((if x = "" then none else t.resolve n x).filter fun m => (t.node m).kind = .loop).or
    (t.enclosing n [.loop])

/-- A name stands for a loop. -/
def Names (t : ScopeTree) (n : Nat) (x : String) (m : Nat) : Prop :=
  x ≠ "" ∧ t.resolve n x = some m ∧ (t.node m).kind = .loop

/-- No loop lies between a region and one around it. -/
def Adjoins (t : ScopeTree) (n m : Nat) : Prop :=
  ∀ k ∈ (t.ancestors n).takeWhile (· ≠ m), (t.node k).kind ≠ .loop

/-! ## Regions around a region -/

/-- What is around a region that is around another comes behind it, and later regions lie further in. -/
theorem ancestors_of_split (h : ofStream s = .ok t) (hsplit : t.ancestors n = front ++ m :: back) :
    t.ancestors m = m :: back ∧ ∀ k ∈ front, m < k := by
  induction front generalizing n with
  | nil =>
      obtain ⟨rfl, rfl⟩ := List.cons.inj hsplit
      exact ⟨rfl, fun _ hk => absurd hk List.not_mem_nil⟩
  | cons k front ih =>
      obtain ⟨rfl, houter⟩ := List.cons.inj hsplit
      obtain ⟨p, hp⟩ : ∃ p, (t.node n).parent? = some p := by
        rw [ScopeNode.parent?, houter]
        cases front <;> exact ⟨_, rfl⟩
      obtain ⟨hlt, hparent⟩ := outer_of_parent h hp
      have hancestors : t.ancestors p = front ++ m :: back := hparent.symm.trans houter
      obtain ⟨hm, hfront⟩ := ih hancestors
      refine ⟨hm, fun k hk => ?_⟩
      rcases List.mem_cons.1 hk with rfl | hk
      · -- the region directly around comes first
        cases front with
        | nil =>
            obtain ⟨rfl, -⟩ := List.cons.inj hancestors
            exact hlt
        | cons q front =>
            obtain ⟨rfl, -⟩ := List.cons.inj hancestors
            exact Nat.lt_trans (hfront p List.mem_cons_self) hlt
      · exact hfront k hk

theorem exists_split_of_loopNamed? (hnamed : t.loopNamed? n x = some named) :
    (t.node named).name = x ∧ (t.node named).kind.isLoop = true ∧
      ∃ front back, t.ancestors n = front ++ named :: back ∧
        ∀ m ∈ front, (t.node m).name = x → (t.node m).kind.isLoop = false := by
  obtain ⟨hfound, front, back, hsplit, hfront⟩ := List.find?_eq_some_iff_append.1 hnamed
  simp only [Bool.and_eq_true, decide_eq_true_eq] at hfound
  refine ⟨hfound.1, hfound.2, front, back, hsplit, fun m hm hx => ?_⟩
  simpa [hx] using hfront m hm

theorem takeWhile_ne_of_split (h : ofStream s = .ok t) (hsplit : t.ancestors n = front ++ m :: back) :
    (t.ancestors n).takeWhile (· ≠ m) = front := by
  have hne : ∀ k ∈ front, decide (k ≠ m) = true := fun k hk =>
    decide_eq_true (Nat.ne_of_gt ((ancestors_of_split h hsplit).2 k hk))
  rw [hsplit, List.takeWhile_append_of_pos hne, List.takeWhile_cons_of_neg (by simp), List.append_nil]

theorem ne_root_of_isLoop (h : ofStream s = .ok t) (hkind : (t.node n).kind.isLoop = true) : n ≠ root := by
  rintro rfl
  rw [kind_root h] at hkind
  cases hkind

/-- The name of a loop or a part of one around a region stands for a region around it. -/
theorem exists_resolve (h : ofStream s = .ok t) (hnamed : t.loopNamed? n x = some named) :
    ∃ m, t.resolve n x = some m ∧
      (t.ancestors n).find? (fun k => k ≠ root && (t.node k).name = x) = some m := by
  obtain ⟨hx, hkind, front, back, hsplit, -⟩ := exists_split_of_loopNamed? hnamed
  have hmem : named ∈ t.ancestors n := by
    rw [hsplit]
    exact List.mem_append_right _ List.mem_cons_self
  cases hfind : (t.ancestors n).find? fun k => k ≠ root && (t.node k).name = x with
  | none =>
      exact absurd (List.find?_eq_none.1 hfind named hmem) (by simp [hx, ne_root_of_isLoop h hkind])
  | some m => exact ⟨m, by rw [resolve, hfind], rfl⟩

/-- A name that stands for a loop stands for the one that validity has found. -/
theorem eq_of_names (h : ofStream s = .ok t) (hnamed : t.loopNamed? n x = some named)
    (hm : t.Names n x m) : m = named := by
  obtain ⟨-, hresolve, hkind⟩ := hm
  obtain ⟨k, hk, hfind⟩ := exists_resolve h hnamed
  obtain rfl : k = m := Option.some.inj (hk.symm.trans hresolve)
  obtain ⟨hfound, front, back, hsplit, hfront⟩ := List.find?_eq_some_iff_append.1 hfind
  have hloop : t.loopNamed? n x = some k := by
    refine List.find?_eq_some_iff_append.2 ⟨?_, front, back, hsplit, fun q hq => ?_⟩
    · simp only [Bool.and_eq_true, decide_eq_true_eq] at hfound
      simp [hfound.2, hkind, ScopeKind.isLoop]
    · -- what comes before is the global region or has another name
      have hother := hfront q hq
      by_cases hq0 : q = root
      · simp [hq0, kind_root h, ScopeKind.isLoop]
      · simp only [ne_eq, hq0, not_false_eq_true, decide_true, Bool.true_and, Bool.not_eq_true',
          decide_eq_false_iff_not] at hother
        simp [hother]
  exact Option.some.inj (hloop.symm.trans hnamed)

/-- The innermost loop around a region is the loop of a region around it exactly when none lies between. -/
theorem enclosing_eq_iff (h : ofStream s = .ok t) (hmem : m ∈ t.ancestors n)
    (hloop : t.enclosing m [.loop] = some loop) : t.enclosing n [.loop] = some loop ↔ t.Adjoins n m := by
  obtain ⟨front, back, hsplit, -⟩ := List.eq_append_cons_of_mem hmem
  have hm := (ancestors_of_split h hsplit).1
  rw [Adjoins, takeWhile_ne_of_split h hsplit]
  unfold enclosing at hloop ⊢
  rw [hm] at hloop
  have hearlier : ∀ k ∈ front, loop < k := by
    obtain ⟨mid, rest, hback, -⟩ := List.eq_append_cons_of_mem (List.mem_of_find?_eq_some hloop)
    rw [hback, ← List.append_assoc] at hsplit
    exact fun k hk => (ancestors_of_split h hsplit).2 k (List.mem_append_left _ hk)
  rw [hsplit, List.find?_append]
  cases hfront : front.find? fun k => [ScopeKind.loop].contains (t.node k).kind with
  | none =>
      rw [Option.none_or]
      refine iff_of_true hloop fun k hk hkind => ?_
      exact List.find?_eq_none.1 hfront k hk (by simp [hkind])
  | some k =>
      have hk := List.mem_of_find?_eq_some hfront
      have hkind := List.find?_some hfront
      refine iff_of_false (fun heq => ?_) fun hnone => hnone k hk (by simpa using hkind)
      obtain rfl : k = loop := by simpa using heq
      exact Nat.lt_irrefl k (hearlier k hk)

theorem exitLoop?_of_names (hm : t.Names n x m) : t.exitLoop? n x = some m := by
  obtain ⟨hne, hresolve, hkind⟩ := hm
  rw [exitLoop?, if_neg hne, hresolve, Option.filter_some, if_pos (decide_eq_true hkind), Option.some_or]

/-- A name that does not stand for a loop leaves the innermost one. -/
theorem exitLoop?_of_not_names (h : ofStream s = .ok t) (hnamed : t.loopNamed? n x = some named)
    (hnot : ¬t.Names n x named) : t.exitLoop? n x = t.enclosing n [.loop] := by
  have hnone : (if x = "" then none else t.resolve n x).filter (fun m => (t.node m).kind = .loop) = none := by
    by_contra hsome
    obtain ⟨m, hm⟩ := Option.ne_none_iff_exists'.1 hsome
    obtain ⟨hresolve, hkind⟩ := Option.filter_eq_some_iff.1 hm
    split at hresolve
    · cases hresolve
    · next hne =>
      have hnames : t.Names n x m := ⟨hne, hresolve, of_decide_eq_true hkind⟩
      exact hnot (eq_of_names h hnamed hnames ▸ hnames)
  rw [exitLoop?, hnone, Option.none_or]

/-- The loop an exit ends at is the one of the region that validity has found exactly when the name stands
for it or no other loop lies between. -/
theorem exitLoop?_eq_iff (h : ofStream s = .ok t) (hnamed : t.loopNamed? n x = some named)
    (hloop : t.enclosing named [.loop] = some loop) :
    t.exitLoop? n x = some loop ↔ t.Names n x named ∨ t.Adjoins n named := by
  by_cases hnames : t.Names n x named
  · -- a loop is its own innermost loop
    have hself : t.enclosing named [.loop] = some named := by
      rw [enclosing, ancestors, List.find?_cons_of_pos (by simpa using hnames.2.2)]
    refine iff_of_true ?_ (.inl hnames)
    rw [exitLoop?_of_names hnames, ← hself, hloop]
  · rw [exitLoop?_of_not_names h hnamed hnames, enclosing_eq_iff h (List.mem_of_find?_eq_some hnamed) hloop]
    exact ⟨.inr, fun hor => hor.resolve_left hnames⟩

/-- An exit ends at some loop if the region that validity has found lies in one. -/
theorem exists_exitLoop? (h : ofStream s = .ok t) (hnamed : t.loopNamed? n x = some named)
    (hloop : t.enclosing named [.loop] = some loop) : ∃ m, t.exitLoop? n x = some m := by
  obtain ⟨front, back, hsplit, -⟩ := List.eq_append_cons_of_mem (List.mem_of_find?_eq_some hnamed)
  have hmem : loop ∈ t.ancestors n := by
    have hloop' := List.mem_of_find?_eq_some hloop
    rw [(ancestors_of_split h hsplit).1] at hloop'
    rw [hsplit]
    exact List.mem_append_right _ hloop'
  obtain ⟨m, hm⟩ : ∃ m, t.enclosing n [.loop] = some m :=
    Option.isSome_iff_exists.1 (List.find?_isSome.2 ⟨loop, hmem, by simpa using List.find?_some hloop⟩)
  unfold exitLoop?
  cases (if x = "" then none else t.resolve n x).filter fun m => (t.node m).kind = .loop with
  | some k => exact ⟨k, rfl⟩
  | none => exact ⟨m, hm⟩

end Datapack.Ir.ScopeTree

namespace Datapack.Generation

open Ir Command

variable {config : Config} {p : Program} {diagnostics : Bag} {newId : Nat → String} {g₀ g : Generation}
  {t : ScopeTree}

theorem loopAt?_eq_exitLoop? {pre post : Stream} {ins : Instruction} {named : Nat}
    (hstands : StandsAt g₀ pre g) (hstarts : Starts t g₀) (ht : ScopeTree.ofStream p.code = .ok t)
    (hs : p.code = pre ++ ins :: post) (hplain : isDelimiter ins = false)
    (hnamed : t.loopNamed? (t.enclosingAt pre.length) ins.jumpTarget = some named) :
    loopAt? { g with index := pre.length } ins.jumpTarget
      = t.exitLoop? (t.enclosingAt pre.length) ins.jumpTarget := by
  have hlt := ScopeTree.enclosingAt_lt ht pre.length
  have hancestors := hstands.ancestors_current ht hstarts hs hplain
  have hkind : ∀ k ∈ t.ancestors (t.enclosingAt pre.length), (g.regions.at? k).kind = (t.node k).kind :=
    fun k hk => (hstands.like.kind k).trans
      (hstarts.kind k (Nat.lt_of_le_of_lt (le_of_mem_ancestors ht hlt hk) hlt))
  have henclosing : g.regions.enclosing g.current [.loop] = t.enclosing (t.enclosingAt pre.length) [.loop] := by
    rw [Regions.enclosing, hancestors, ScopeTree.enclosing]
    rw [← List.head?_filter, ← List.head?_filter, List.filter_congr fun k hk => by rw [hkind k hk]]
  obtain ⟨m, hm, hfind⟩ := ScopeTree.exists_resolve ht hnamed
  have hresolve := hstands.resolve ht hstarts.tree hs hplain hm
  have hkindm := hkind m (List.mem_of_find?_eq_some hfind)
  unfold loopAt? ScopeTree.exitLoop?
  rw [hresolve, hm, henclosing]
  by_cases hx : ins.jumpTarget = ""
  · simp [hx]
  · by_cases hloop : (t.node m).kind = .loop
    · simp [hx, hkindm, hloop, Option.filter]
    · simp [hx, hkindm, hloop, Option.filter]

theorem yields_of_loopAt? {x : String} {n : Nat} (h : loopAt? g x = some n) : Yields (loopOf x) g n g := by
  unfold loopAt? at h
  unfold loopOf
  refine .bind .get ?_
  dsimp only
  generalize Option.filter _ _ = named at h ⊢
  cases named with
  | some n =>
      obtain rfl := Option.some.inj h
      exact .pure n
  | none => exact .orFail h

/-- In a valid program an exit names a loop or a part of one around it; where that lies in a loop, the exit
leaves this loop exactly when the name stands for it or no other loop lies between, and an inner loop
otherwise. -/
theorem loopOf_yields_iff (hstart : start config p diagnostics newId = .ok g₀) (hvalid : p.isValid = true)
    (ht : ScopeTree.ofStream p.code = .ok t) {i : Nat} {ins : Instruction} (hi : p.code[i]? = some ins)
    (hop : ins.op = .breakLoop ∨ ins.op = .continueLoop)
    (hwalk : processFrom processors 0 g₀ (p.code.take i) = (g, none)) :
    ∃ named, t.loopNamed? (t.enclosingAt i) ins.jumpTarget = some named ∧
      ∀ loop, t.enclosing named [.loop] = some loop →
        ∃ chosen, Yields (loopOf ins.jumpTarget) { g with index := i } chosen { g with index := i } ∧
          (chosen = loop ↔
            t.Names (t.enclosingAt i) ins.jumpTarget named ∨ t.Adjoins (t.enclosingAt i) named) ∧
          (chosen ≠ loop → t.enclosing (t.enclosingAt i) [.loop] = some chosen) := by
  have hwf := Program.wellFormed hvalid ht
  obtain ⟨m, hm, hname, hloop⟩ := hwf.exit i ins hi hop
  obtain ⟨named, hnamed⟩ : ∃ named, t.loopNamed? (t.enclosingAt i) ins.jumpTarget = some named :=
    Option.isSome_iff_exists.1 (List.find?_isSome.2 ⟨m, hm, by simp [hname, hloop]⟩)
  refine ⟨named, hnamed, fun loop henclosing => ?_⟩
  obtain ⟨pre, post, hs, rfl⟩ := exists_split hi
  rw [hs, List.take_left] at hwalk
  obtain ⟨hstarts, -⟩ := starts_of_start hstart ht
  obtain ⟨hstands, -⟩ := walk_binds hstart ht hwf hs hwalk
  have hplain : isDelimiter ins = false :=
    isDelimiter_eq_false.2 (by rcases hop with hop | hop <;> simp [hop])
  obtain ⟨chosen, hchosen⟩ := ScopeTree.exists_exitLoop? ht hnamed henclosing
  refine ⟨chosen, yields_of_loopAt? ((loopAt?_eq_exitLoop? hstands hstarts ht hs hplain hnamed).trans hchosen),
    ?_, ?_⟩
  · rw [← ScopeTree.exitLoop?_eq_iff ht hnamed henclosing, hchosen, Option.some.injEq]
  · intro hne
    have hnot : ¬t.Names (t.enclosingAt pre.length) ins.jumpTarget named := by
      intro hnames
      have hloop := (ScopeTree.exitLoop?_eq_iff ht hnamed henclosing).2 (.inl hnames)
      exact hne (Option.some.inj (hchosen.symm.trans hloop))
    rw [← ScopeTree.exitLoop?_of_not_names ht hnamed hnot, hchosen]

/-- A loop in a loop, with an exit of the inner one that gives a name. -/
def loopInLoop (x : String) : Stream :=
  [.scopeBegin "outer" .loop, .scopeBegin "check" .loopCheck, .scopeBegin "body" .loopBody,
    .scopeBegin "inner" .loop, .breakLoop x, .scopeEnd "inner" .loop, .jump "inner", .jump "check",
    .scopeEnd "body" .loopBody, .jump "body", .scopeEnd "check" .loopCheck, .jump "check",
    .scopeEnd "outer" .loop, .jump "outer"]

/-- The name of the outer loop leaves it. -/
theorem loopOf_yields_outer :
    ∃ t g₀ g, Program.isValid { code := loopInLoop "outer" } = true ∧
      ScopeTree.ofStream (loopInLoop "outer") = .ok t ∧
      start {} { code := loopInLoop "outer" } [] toString = .ok g₀ ∧
      processFrom processors 0 g₀ ((loopInLoop "outer").take 4) = (g, none) ∧
      Yields (loopOf "outer") { g with index := 4 } 1 { g with index := 4 } := by
  obtain ⟨t, g₀, g, hvalid, ht, hstart, hwalk⟩ : ∃ t g₀ g,
      Program.isValid { code := loopInLoop "outer" } = true ∧
      ScopeTree.ofStream (loopInLoop "outer") = .ok t ∧
      start {} { code := loopInLoop "outer" } [] toString = .ok g₀ ∧
      processFrom processors 0 g₀ ((loopInLoop "outer").take 4) = (g, none) :=
    ⟨_, _, _, by decide, rfl, rfl, rfl⟩
  have hloop := loopOf_yields_iff hstart hvalid ht (i := 4) rfl (.inl rfl) hwalk
  cases ht
  obtain ⟨named, hnamed, hchoice⟩ := hloop
  obtain rfl : 1 = named := Option.some.inj hnamed
  obtain ⟨chosen, hyields, hiff, -⟩ := hchoice 1 rfl
  obtain rfl := hiff.2 (.inl ⟨by decide, rfl, rfl⟩)
  exact ⟨_, g₀, g, hvalid, rfl, hstart, hwalk, hyields⟩

/-- The name of the body of the outer loop leaves the inner one. -/
theorem loopOf_yields_inner :
    ∃ t g₀ g, Program.isValid { code := loopInLoop "body" } = true ∧
      ScopeTree.ofStream (loopInLoop "body") = .ok t ∧
      start {} { code := loopInLoop "body" } [] toString = .ok g₀ ∧
      processFrom processors 0 g₀ ((loopInLoop "body").take 4) = (g, none) ∧
      t.loopNamed? (t.enclosingAt (4 : Nat)) "body" = some 3 ∧ t.enclosing 3 [.loop] = some 1 ∧
      Yields (loopOf "body") { g with index := 4 } 4 { g with index := 4 } :=
  ⟨_, _, _, by decide, rfl, rfl, rfl, by decide, by decide, yields_of_loopAt? (by decide)⟩

end Datapack.Generation
