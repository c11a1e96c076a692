import Mathlib.Data.Fintype.EquivFin
import Mathlib.Data.List.FinRange
import Mathlib.Logic.Relation
import Mathlib.Order.WellFounded
import Datapack.Optimize.Schedule

/-!
# The order of a schedule

Passes are placed one by one, always the earliest registered one whose dependencies stand already.  In
terms of registration indices this builds the lexicographically least order in which every pass follows
its dependencies, and it gets stuck exactly when the dependencies run in a circle.
-/

namespace Datapack.Optimize

open Config

/-! ## Orders that respect dependencies -/

section Ordering

variable {n : Nat} (dep : Fin n → Fin n → Prop)

/-- An index that is not done while everything it depends on is. -/
def Ready (done : List (Fin n)) (j : Fin n) : Prop := j ∉ done ∧ ∀ i, dep j i → i ∈ done

/-- Every listed index is ready once the ones before it are done. -/
def InOrder : List (Fin n) → List (Fin n) → Prop
  | _, [] => True
  | done, j :: rest => Ready dep done j ∧ InOrder (j :: done) rest

/-- An order of all indices in which each follows the ones it depends on. -/
def IsTopological (o : List (Fin n)) : Prop := InOrder dep [] o ∧ ∀ i, i ∈ o

variable {dep} {done o : List (Fin n)} {i j : Fin n}

theorem InOrder.not_mem_done (h : InOrder dep done o) (hj : j ∈ o) : j ∉ done := by
  induction o generalizing done with
  | nil => exact absurd hj List.not_mem_nil
  | cons k o ih =>
      rcases List.mem_cons.1 hj with rfl | hj
      · exact h.1.1
      · exact fun hdone => ih h.2 hj (List.mem_cons_of_mem k hdone)

theorem InOrder.nodup (h : InOrder dep done o) : o.Nodup := by
  induction o generalizing done with
  | nil => exact List.nodup_nil
  | cons k o ih =>
      exact List.nodup_cons.2 ⟨fun hk => h.2.not_mem_done hk List.mem_cons_self, ih h.2⟩

/-- Nothing depends on what comes later. -/
theorem InOrder.pairwise (h : InOrder dep done o) : o.Pairwise fun a b => ¬dep a b := by
  induction o generalizing done with
  | nil => exact List.Pairwise.nil
  | cons k o ih =>
      refine List.Pairwise.cons (fun b hb hdep => ?_) (ih h.2)
      exact h.2.not_mem_done hb (List.mem_cons_of_mem k (h.1.2 b hdep))

/-- What an index depends on, directly or not, is done before it. -/
theorem mem_done_of_transGen (hdone : ∀ a ∈ done, ∀ b, dep a b → b ∈ done)
    (hj : Ready dep done j) (hdep : Relation.TransGen dep j i) : i ∈ done := by
  induction hdep with
  | single hdep => exact hj.2 _ hdep
  | tail _ hdep ih => exact hdone _ ih _ hdep

theorem InOrder.no_cycle (h : InOrder dep done o) (hdone : ∀ a ∈ done, ∀ b, dep a b → b ∈ done)
    (hj : j ∈ o) : ¬Relation.TransGen dep j j := by
  induction o generalizing done with
  | nil => exact absurd hj List.not_mem_nil
  | cons k o ih =>
      rcases List.mem_cons.1 hj with rfl | hj
      · exact fun hcycle => h.1.1 (mem_done_of_transGen hdone h.1 hcycle)
      · refine ih h.2 (fun a ha b hdep => ?_) hj
        rcases List.mem_cons.1 ha with rfl | ha
        · exact List.mem_cons_of_mem _ (h.1.2 b hdep)
        · exact List.mem_cons_of_mem _ (hdone a ha b hdep)

theorem IsTopological.no_cycle (h : IsTopological dep o) (j : Fin n) : ¬Relation.TransGen dep j j :=
  h.1.no_cycle (fun _ ha => absurd ha List.not_mem_nil) (h.2 j)

theorem IsTopological.perm (h : IsTopological dep o) : o.Perm (List.finRange n) := by
  refine (List.perm_ext_iff_of_nodup h.1.nodup (List.nodup_finRange n)).2 fun i => ?_
  simp [h.2 i]

/-- Indices that each depend on another one of them run in a circle. -/
theorem exists_cycle {S : Fin n → Prop} (hj : S j) (hS : ∀ j, S j → ∃ i, dep j i ∧ S i) :
    ∃ i, Relation.TransGen dep i i := by
  by_contra hnone
  rw [not_exists] at hnone
  let below (a b : Fin n) : Prop := Relation.TransGen dep b a
  have htrans : IsTrans (Fin n) below := ⟨fun _ _ _ hab hbc => hbc.trans hab⟩
  have hirrefl : Std.Irrefl below := ⟨hnone⟩
  have hwf : WellFounded below := Finite.wellFounded_of_trans_of_irrefl below
  obtain ⟨m, hm, hmin⟩ := hwf.has_min {a | S a} ⟨j, hj⟩
  obtain ⟨i, hdep, hi⟩ := hS m hm
  exact hmin i hi (.single hdep)

/-! ### The greedy order -/

variable (dep) [DecidableRel dep]

instance (done : List (Fin n)) (j : Fin n) : Decidable (Ready dep done j) := by
  unfold Ready
  infer_instance

def nextReady? (done : List (Fin n)) : Option (Fin n) :=
  (List.finRange n).find? fun j => Ready dep done j

/-- Take the first ready index again and again, at most `fuel` times. -/
def greedy : Nat → List (Fin n) → List (Fin n)
  | 0, _ => []
  | fuel + 1, done =>
    match nextReady? dep done with
    | none => []
    | some j => j :: greedy fuel (j :: done)

variable {dep}

theorem nextReady?_eq_some (h : nextReady? dep done = some j) :
    Ready dep done j ∧ ∀ k, Ready dep done k → j ≤ k := by
  obtain ⟨hj, l, hl, rfl, hbefore⟩ := List.find?_eq_some_iff_getElem.1 h
  refine ⟨of_decide_eq_true hj, fun k hk => ?_⟩
  by_contra hlt
  rw [List.getElem_finRange, Fin.not_le, Fin.lt_def] at hlt
  have hnot := hbefore k.val hlt
  simp [hk] at hnot

theorem nextReady?_eq_none (h : nextReady? dep done = none) (j : Fin n) : ¬Ready dep done j := by
  have := List.find?_eq_none.1 h j (List.mem_finRange j)
  simpa using this

theorem greedy_inOrder (fuel : Nat) : InOrder dep done (greedy dep fuel done) := by
  induction fuel generalizing done with
  | zero => trivial
  | succ fuel ih =>
      rw [greedy]
      cases hnext : nextReady? dep done with
      | none => trivial
      | some j => exact ⟨(nextReady?_eq_some hnext).1, ih⟩

/-- When the greedy order ends early, nothing is ready. -/
theorem greedy_stuck {fuel : Nat} (h : (greedy dep fuel done).length < fuel) (j : Fin n) :
    ¬Ready dep (done ++ greedy dep fuel done) j := by
  induction fuel generalizing done with
  | zero => exact absurd h (Nat.not_lt_zero _)
  | succ fuel ih =>
      rw [greedy] at h ⊢
      cases hnext : nextReady? dep done with
      | none =>
          rw [List.append_nil]
          exact nextReady?_eq_none hnext j
      | some k =>
          rw [hnext] at h
          have hstuck := @ih (k :: done) (by simpa using h)
          intro hready
          refine hstuck ⟨fun hmem => hready.1 ?_, fun i hdep => ?_⟩
          · simp only [List.mem_append, List.mem_cons] at hmem ⊢
            tauto
          · have := hready.2 i hdep
            simp only [List.mem_append, List.mem_cons] at this ⊢
            tauto

theorem greedy_least {fuel : Nat} (h : InOrder dep done o) (hfuel : fuel = o.length) :
    greedy dep fuel done = o ∨ List.Lex (· < ·) (greedy dep fuel done) o := by
  induction fuel generalizing done o with
  | zero =>
      rw [List.eq_nil_of_length_eq_zero hfuel.symm]
      exact .inl rfl
  | succ fuel ih =>
      cases o with
      | nil => exact absurd hfuel (by simp)
      | cons k o =>
          rw [greedy]
          cases hnext : nextReady? dep done with
          | none => exact absurd h.1 (nextReady?_eq_none hnext k)
          | some j =>
              rcases lt_or_eq_of_le ((nextReady?_eq_some hnext).2 k h.1) with hlt | rfl
              · exact .inr (.rel hlt)
              · rcases ih h.2 (by simpa using hfuel) with hrest | hrest
                · exact .inl (congrArg (j :: ·) hrest)
                · exact .inr (.cons hrest)

theorem length_greedy_le (fuel : Nat) : (greedy dep fuel done).length ≤ fuel := by
  induction fuel generalizing done with
  | zero => exact Nat.le_refl 0
  | succ fuel ih =>
      rw [greedy]
      cases nextReady? dep done with
      | none => exact Nat.zero_le _
      | some j => exact Nat.succ_le_succ ih

theorem isTopological_greedy (h : (greedy dep n []).length = n) :
    IsTopological dep (greedy dep n []) := by
  have hinOrder : InOrder dep [] (greedy dep n []) := greedy_inOrder n
  refine ⟨hinOrder, fun i => ?_⟩
  have hsub : greedy dep n [] ⊆ List.finRange n := fun k _ => List.mem_finRange k
  have hperm := (List.subperm_of_subset hinOrder.nodup hsub).perm_of_length_le (by simp [h])
  exact hperm.mem_iff.2 (List.mem_finRange i)

/-- The greedy order gets stuck exactly when the dependencies run in a circle. -/
theorem length_greedy_eq_iff :
    (greedy dep n []).length = n ↔ ¬∃ i, Relation.TransGen dep i i := by
  constructor
  · rintro hlength ⟨i, hcycle⟩
    exact (isTopological_greedy hlength).no_cycle i hcycle
  · intro hnone
    by_contra hne
    have hlt : (greedy dep n []).length < n := lt_of_le_of_ne (length_greedy_le n) hne
    have hstuck := greedy_stuck hlt
    rw [List.nil_append] at hstuck
    obtain ⟨j, hj⟩ : ∃ j, j ∉ greedy dep n [] := by
      by_contra hall
      have hmem : ∀ i, i ∈ greedy dep n [] := fun i => by_contra fun hi => hall ⟨i, hi⟩
      have hperm := IsTopological.perm ⟨greedy_inOrder n, hmem⟩
      exact hne (hperm.length_eq.trans (List.length_finRange))
    refine hnone (exists_cycle (S := fun k => k ∉ greedy dep n []) hj fun k hk => ?_)
    by_contra hnot
    exact hstuck k ⟨hk, fun i hdep => by_contra fun hi => hnot ⟨i, hdep, hi⟩⟩

end Ordering

/-! ## Placing passes -/

variable {σ : Type}

/-- A registry that registrations lead to. -/
inductive Registry.Built : Registry σ → Prop
  | empty : Built []
  | register {r r' : Registry σ} {p : Pass σ} (h : Built r) (hp : r.register p = .ok r') : Built r'

theorem Registry.Built.nodup {r : Registry σ} (h : r.Built) : (r.map Pass.name).Nodup := by
  induction h with
  | empty => exact List.nodup_nil
  | @register r r' p _ hp ih =>
      unfold Registry.register at hp
      split at hp
      · exact absurd hp (by simp)
      · split at hp
        · exact absurd hp (by simp)
        · next hnew =>
            obtain rfl := Except.ok.inj hp
            rw [List.map_append, List.nodup_append]
            refine ⟨ih, List.nodup_singleton _, ?_⟩
            rintro a ha b hb rfl
            obtain ⟨q, hq, hname⟩ := List.mem_map.1 ha
            rw [List.map_singleton, List.mem_singleton] at hb
            refine hnew (List.any_eq_true.2 ⟨q, hq, ?_⟩)
            rw [decide_eq_true_eq, hname, hb]

/-- Pass `j` of a selection depends on pass `i` of it. -/
def DependsOn (sel : List (Pass σ)) (j i : Fin sel.length) : Prop :=
  (sel.get i).name ∈ (sel.get j).info.dependsOn

instance (sel : List (Pass σ)) : DecidableRel (DependsOn sel) :=
  fun j i => inferInstanceAs (Decidable ((sel.get i).name ∈ (sel.get j).info.dependsOn))

namespace Schedule

variable {sel : List (Pass σ)}

theorem get_injective (hnames : (sel.map Pass.name).Nodup) {i j : Fin sel.length}
    (h : (sel.get i).name = (sel.get j).name) : i = j := by
  have heq := List.inj_on_of_nodup_map hnames (List.get_mem sel i) (List.get_mem sel j) h
  exact (List.Nodup.of_map _ hnames).get_inj_iff.1 heq

theorem mem_map_name (hnames : (sel.map Pass.name).Nodup) (done : List (Fin sel.length))
    (i : Fin sel.length) : (sel.get i).name ∈ done.map (fun k => (sel.get k).name) ↔ i ∈ done := by
  rw [List.mem_map]
  constructor
  · rintro ⟨k, hk, hname⟩
    exact get_injective hnames hname ▸ hk
  · exact fun hi => ⟨i, hi, rfl⟩

theorem next?_eq (hnames : (sel.map Pass.name).Nodup) (done : List (Fin sel.length)) :
    next? (sel.map Pass.info) (done.map fun k => (sel.get k).name) =
      (nextReady? (DependsOn sel) done).map fun i => (sel.get i).info := by
  have hsel : sel.map Pass.info = (List.finRange sel.length).map fun i => (sel.get i).info := by
    conv_lhs => rw [← List.map_get_finRange sel]
    rw [List.map_map]
    rfl
  rw [next?]
  nth_rewrite 2 [hsel]
  rw [List.find?_map, nextReady?]
  congr 2
  funext j
  rw [Bool.eq_iff_iff, Function.comp_apply, Bool.and_eq_true, List.all_eq_true, decide_eq_true_eq,
    decide_eq_true_eq]
  refine and_congr (not_congr (mem_map_name hnames done j)) ⟨fun h i hdep => ?_, fun h d hd => ?_⟩
  · -- a selected dependency is found by its name, so it must have been placed
    have hi := h _ hdep
    rw [Bool.or_eq_true, decide_eq_true_eq, Bool.not_eq_true', List.any_eq_false] at hi
    rcases hi with hplaced | hnone
    · exact (mem_map_name hnames done i).1 hplaced
    · refine absurd ?_ (hnone (sel.get i).info (List.mem_map_of_mem (List.get_mem sel i)))
      exact decide_eq_true rfl
  · rw [Bool.or_eq_true, decide_eq_true_eq, Bool.not_eq_true', List.any_eq_false]
    by_cases hselected : ∃ i : Fin sel.length, (sel.get i).name = d
    · obtain ⟨i, rfl⟩ := hselected
      exact .inl ((mem_map_name hnames done i).2 (h i hd))
    · refine .inr fun info hinfo hname => hselected ?_
      obtain ⟨q, hq, rfl⟩ := List.mem_map.1 hinfo
      obtain ⟨i, rfl⟩ := List.mem_iff_get.1 hq
      exact ⟨i, of_decide_eq_true hname⟩

theorem place_eq (hnames : (sel.map Pass.name).Nodup) (fuel : Nat) (done : List (Fin sel.length)) :
    place (sel.map Pass.info) fuel (done.map fun k => (sel.get k).name) =
      (greedy (DependsOn sel) fuel done).map fun i => (sel.get i).info := by
  induction fuel generalizing done with
  | zero => rfl
  | succ fuel ih =>
      rw [place, greedy, next?_eq hnames]
      cases nextReady? (DependsOn sel) done with
      | none => rfl
      | some j => exact congrArg ((sel.get j).info :: ·) (ih (j :: done))

theorem find?_name (hnames : (sel.map Pass.name).Nodup) (i : Fin sel.length) :
    sel.find? (·.name = (sel.get i).info.name) = some (sel.get i) := by
  cases hfind : sel.find? (·.name = (sel.get i).info.name) with
  | none =>
      refine absurd ?_ (List.find?_eq_none.1 hfind (sel.get i) (List.get_mem sel i))
      exact decide_eq_true rfl
  | some q =>
      have hname := List.find?_some hfind
      rw [decide_eq_true_eq] at hname
      rw [List.inj_on_of_nodup_map hnames (List.mem_of_find?_eq_some hfind) (List.get_mem sel i) hname]

/-! ## Building -/

def selected (r : Registry σ) (level : OptLevel) : List (Pass σ) :=
  r.filter fun p => p.info.level.rank ≤ level.rank

/-- A selection in a given order, grouped by phase. -/
def grouped (sel : List (Pass σ)) (o : List (Fin sel.length)) : List (Pass σ) :=
  Phase.order.flatMap fun phase => (o.map sel.get).filter (·.info.phase = phase)

theorem missing?_eq_none_iff {registered : List String} {infos : List PassInfo} :
    missing? registered infos = none ↔ ∀ i ∈ infos, ∀ d ∈ i.dependsOn, d ∈ registered := by
  rw [missing?, List.findSome?_eq_none_iff]
  refine forall_congr' fun i => forall_congr' fun _ => ?_
  rw [Option.map_eq_none_iff, List.find?_eq_none]
  simp

theorem missing?_eq_some {registered : List String} {infos : List PassInfo} {e : ScheduleError}
    (h : missing? registered infos = some e) : ∃ pass d, e = .unknown pass d := by
  obtain ⟨i, -, hi⟩ := List.exists_of_findSome?_eq_some h
  obtain ⟨d, -, rfl⟩ := Option.map_eq_some_iff.1 hi
  exact ⟨i.name, d, rfl⟩

theorem order_eq (hnames : (sel.map Pass.name).Nodup) :
    order (sel.map Pass.info) =
      if (greedy (DependsOn sel) sel.length []).length = sel.length then
        .ok ((greedy (DependsOn sel) sel.length []).map fun i => (sel.get i).info)
      else .error (.circular ((sel.map Pass.name).filter fun n =>
        !(greedy (DependsOn sel) sel.length []).any fun i => (sel.get i).name = n)) := by
  have hplace := place_eq hnames sel.length []
  rw [List.map_nil] at hplace
  rw [order, List.length_map, hplace, List.length_map, List.map_map]
  simp only [List.any_map]
  rfl

theorem build_eq {r : Registry σ} (hnames : (r.map Pass.name).Nodup) {level : OptLevel}
    (hlevel : level ≠ .o0) :
    build r level =
      match missing? (r.map Pass.name) ((selected r level).map Pass.info) with
      | some e => .error e
      | none =>
        let sel := selected r level
        let o := greedy (DependsOn sel) sel.length []
        if o.length = sel.length then .ok ⟨grouped sel o, level.maxIterations⟩
        else .error (.circular ((sel.map Pass.name).filter fun n =>
          !o.any fun i => (sel.get i).name = n)) := by
  have hsel : ((selected r level).map Pass.name).Nodup :=
    (List.filter_sublist.map Pass.name).nodup hnames
  have hfind : ∀ o : List (Fin (selected r level).length),
      (o.map fun i => ((selected r level).get i).info).filterMap
        (fun i => (selected r level).find? (·.name = i.name)) = o.map (selected r level).get := by
    intro o
    rw [List.filterMap_map, ← List.filterMap_eq_map]
    congr 1
    funext i
    exact find?_name hsel i
  rw [build, if_neg hlevel]
  change (match missing? (r.map Pass.name) ((selected r level).map Pass.info) with
    | some e => Except.error e
    | none => _) = _
  cases missing? (r.map Pass.name) ((selected r level).map Pass.info) with
  | some e => rfl
  | none =>
      dsimp only
      change Except.bind (order ((selected r level).map Pass.info)) _ = _
      rw [order_eq hsel]
      split
      · rw [grouped, ← hfind]
        rfl
      · rfl

/-! ## What a schedule holds -/

theorem perm_flatMap_filter (l : List (Pass σ)) {phases : List Phase} (hphases : phases.Nodup) :
    (phases.flatMap fun phase => l.filter (·.info.phase = phase)).Perm
      (l.filter (·.info.phase ∈ phases)) := by
  induction phases with
  | nil => simp
  | cons phase phases ih =>
      rw [List.nodup_cons] at hphases
      have hsplit := List.filter_append_perm (fun p : Pass σ => decide (p.info.phase = phase))
        (l.filter (·.info.phase ∈ phase :: phases))
      rw [List.filter_filter, List.filter_filter] at hsplit
      refine List.Perm.trans ?_ hsplit
      rw [List.flatMap_cons]
      refine List.Perm.append (List.Perm.of_eq (List.filter_congr fun p _ => ?_))
        ((ih hphases.2).trans (List.Perm.of_eq (List.filter_congr fun p _ => ?_)))
      · by_cases hp : p.info.phase = phase
        · simp [hp]
        · simp [hp]
      · by_cases hp : p.info.phase = phase
        · simp [hp, hphases.1]
        · simp [hp]

theorem perm_map_get {o : List (Fin sel.length)} (ho : IsTopological (DependsOn sel) o) :
    (o.map sel.get).Perm sel := by
  have hperm := ho.perm.map sel.get
  rwa [List.map_get_finRange] at hperm

theorem perm_grouped {o : List (Fin sel.length)} (ho : IsTopological (DependsOn sel) o) :
    (grouped sel o).Perm (sel.filter (·.info.phase ∈ Phase.order)) :=
  (perm_flatMap_filter _ (by decide)).trans ((perm_map_get ho).filter _)

/-- No pass precedes one of its dependencies of the same or an earlier phase. -/
theorem pairwise_grouped {o : List (Fin sel.length)} (ho : IsTopological (DependsOn sel) o) :
    (grouped sel o).Pairwise fun p q =>
      q.name ∈ p.info.dependsOn →
        Phase.order.idxOf p.info.phase < Phase.order.idxOf q.info.phase := by
  have hdeps : (o.map sel.get).Pairwise fun p q => q.name ∉ p.info.dependsOn := by
    rw [List.pairwise_map]
    exact ho.1.pairwise
  rw [grouped, List.pairwise_flatMap]
  constructor
  · intro phase _
    exact (hdeps.filter _).imp fun hnot hdep => absurd hdep hnot
  · have hphases : Phase.order.Pairwise fun a b => Phase.order.idxOf a < Phase.order.idxOf b := by
      decide
    refine hphases.imp fun hlt p hp q hq _ => ?_
    have hp' := (List.mem_filter.1 hp).2
    have hq' := (List.mem_filter.1 hq).2
    rw [decide_eq_true_eq] at hp' hq'
    rw [hp', hq']
    exact hlt

/-- Some selected pass depends on a pass that is not registered. -/
def HasUnknown (r : Registry σ) (level : OptLevel) : Prop :=
  ∃ p ∈ selected r level, ∃ d ∈ p.info.dependsOn, d ∉ r.map Pass.name

/-- The dependencies among some passes run in a circle. -/
def HasCycle (sel : List (Pass σ)) : Prop := ∃ i, Relation.TransGen (DependsOn sel) i i

theorem missing?_eq_none_iff_not_hasUnknown {r : Registry σ} {level : OptLevel} :
    missing? (r.map Pass.name) ((selected r level).map Pass.info) = none ↔ ¬HasUnknown r level := by
  rw [missing?_eq_none_iff, HasUnknown]
  simp only [List.forall_mem_map, not_exists, not_and, not_not]

/-- What a schedule is, and when there is none. -/
theorem build_orders_by_dependency {r : Registry σ} (hr : r.Built) {level : OptLevel}
    (hlevel : level ≠ .o0) :
    ((∃ pass d, build r level = .error (.unknown pass d)) ↔ HasUnknown r level) ∧
    (¬HasUnknown r level →
      ((∃ passes, build r level = .error (.circular passes)) ↔ HasCycle (selected r level)) ∧
      (¬HasCycle (selected r level) →
        ∃ o, IsTopological (DependsOn (selected r level)) o ∧
          (∀ o', IsTopological (DependsOn (selected r level)) o' → o = o' ∨ List.Lex (· < ·) o o') ∧
          build r level = .ok ⟨grouped (selected r level) o, level.maxIterations⟩ ∧
          (grouped (selected r level) o).Perm
            ((selected r level).filter (·.info.phase ∈ Phase.order)) ∧
          ((grouped (selected r level) o).map Pass.name).Nodup ∧
          (grouped (selected r level) o).Pairwise fun p q => q.name ∈ p.info.dependsOn →
            Phase.order.idxOf p.info.phase < Phase.order.idxOf q.info.phase)) := by
  have hnames := hr.nodup
  have hbuild := build_eq hnames hlevel
  have hmissing := @missing?_eq_none_iff_not_hasUnknown σ r level
  cases hcase : missing? (r.map Pass.name) ((selected r level).map Pass.info) with
  | some e =>
      rw [hcase] at hbuild hmissing
      obtain ⟨pass, d, rfl⟩ := missing?_eq_some hcase
      have hunknown : HasUnknown r level := by
        by_contra hnot
        exact absurd (hmissing.2 hnot) (by simp)
      exact ⟨⟨fun _ => hunknown, fun _ => ⟨pass, d, hbuild⟩⟩, fun hnot => absurd hunknown hnot⟩
  | none =>
      rw [hcase] at hbuild hmissing
      have hknown := hmissing.1 rfl
      have hlength : (greedy (DependsOn (selected r level)) (selected r level).length []).length =
          (selected r level).length ↔ ¬HasCycle (selected r level) := length_greedy_eq_iff
      dsimp only at hbuild
      by_cases hcycle : HasCycle (selected r level)
      · rw [if_neg fun h => hlength.1 h hcycle] at hbuild
        rw [hbuild]
        refine ⟨⟨by simp, fun h => absurd h hknown⟩, fun _ => ⟨⟨fun _ => hcycle, fun _ => ⟨_, rfl⟩⟩, ?_⟩⟩
        exact fun hnot => absurd hcycle hnot
      · have ho := isTopological_greedy (hlength.2 hcycle)
        rw [if_pos (hlength.2 hcycle)] at hbuild
        rw [hbuild]
        refine ⟨⟨by simp, fun h => absurd h hknown⟩, fun _ => ⟨⟨by simp, fun h => absurd h hcycle⟩, ?_⟩⟩
        refine fun _ => ⟨_, ho, ?_, rfl, perm_grouped ho, ?_, pairwise_grouped ho⟩
        · intro o' ho'
          exact greedy_least ho'.1 (by simpa using ho'.perm.length_eq.symm)
        · refine ((perm_grouped ho).map Pass.name).nodup_iff.2 ?_
          exact ((List.filter_sublist.trans List.filter_sublist).map Pass.name).nodup hnames

def idle (name : String) (phase : Phase) (dependsOn : List String) : Pass Unit :=
  { info := { name, level := .o1, phase, dependsOn }, execute := fun w s _ => (w, s, .ok false) }

/-- A pass that is registered before the one it depends on, and one of another phase behind both. -/
def outOfOrder : Registry Unit :=
  [idle "sweep" .cleanup ["fold", "fold"], idle "fold" .transform [], idle "scan" .analyze ["fold"]]

theorem build_outOfOrder :
    outOfOrder.Built ∧ ¬HasUnknown outOfOrder .o1 ∧ ¬HasCycle (selected outOfOrder .o1) ∧
      ∃ o, IsTopological (DependsOn (selected outOfOrder .o1)) o ∧
        (∀ o', IsTopological (DependsOn (selected outOfOrder .o1)) o' → o = o' ∨ List.Lex (· < ·) o o') ∧
        build outOfOrder .o1 = .ok ⟨grouped (selected outOfOrder .o1) o, 1⟩ ∧
        (grouped (selected outOfOrder .o1) o).map Pass.name = ["scan", "fold", "sweep"] := by
  have hone : Registry.Built [idle "sweep" .cleanup ["fold", "fold"]] :=
    .register (p := idle "sweep" .cleanup ["fold", "fold"]) .empty rfl
  have htwo : Registry.Built [idle "sweep" .cleanup ["fold", "fold"], idle "fold" .transform []] :=
    .register (p := idle "fold" .transform []) hone rfl
  have hbuilt : outOfOrder.Built := .register (p := idle "scan" .analyze ["fold"]) htwo rfl
  obtain ⟨s, hs, hnamed⟩ : ∃ s, build outOfOrder .o1 = .ok s ∧ s.names = ["scan", "fold", "sweep"] :=
    ⟨_, rfl, rfl⟩
  obtain ⟨hunknown, hrest⟩ := build_orders_by_dependency hbuilt (show OptLevel.o1 ≠ .o0 by decide)
  have hknown : ¬HasUnknown outOfOrder .o1 := by
    rw [← hunknown, hs]
    simp
  obtain ⟨hcircular, horder⟩ := hrest hknown
  have hacyclic : ¬HasCycle (selected outOfOrder .o1) := by
    rw [← hcircular, hs]
    simp
  obtain ⟨o, ho, hleast, hbuild, -⟩ := horder hacyclic
  refine ⟨hbuilt, hknown, hacyclic, o, ho, hleast, hbuild, ?_⟩
  obtain rfl := Except.ok.inj (hs.symm.trans hbuild)
  exact hnamed

end Schedule

end Datapack.Optimize
