import Datapack.Optimize.Folding
import Datapack.Proofs.Lookup

/-!
# Operations on known values

What the operations on the state of constant folding do to the innermost frame, to the value a read
finds and to the snapshots taken of it.  `State.hit` is the nearest value of a variable, before any
boundary between regions is taken into account.
-/

namespace Datapack.Optimize.Folding

open Ir

theorem lookup_filterMap_pair {α β : Type} [DecidableEq α] (vs : List α) (g : α → Option β)
    (a : α) :
    (vs.filterMap fun v => (g v).map (v, ·)).lookup a = if a ∈ vs then g a else none := by
  induction vs with
  | nil => simp
  | cons v vs ih =>
      cases hg : g v with
      | none =>
          by_cases h : a = v
          · subst h
            simp [hg, ih]
          · simp [hg, ih, h]
      | some b =>
          rw [List.filterMap_cons_some (by rw [hg]; rfl), lookup_cons_ite, ih]
          by_cases h : a = v
          · subst h
            simp [hg]
          · simp [h]

namespace Env

theorem get?_set (e : Env) (v w : Variable) (x : Value) :
    (e.set v x).get? w = if w = v then some x else e.get? w := by
  rw [set, get?, lookup_cons_ite, lookup_filter_fst_ne, get?]
  by_cases h : w = v <;> simp [h]

theorem mem_vars_iff (e : Env) (v : Variable) : v ∈ e.vars ↔ (e.get? v).isSome = true := by
  rw [get?, lookup_isSome_iff]
  rfl

end Env

theorem mem_addOnce {α : Type} [DecidableEq α] (xs : List α) (a b : α) :
    b ∈ addOnce xs a ↔ b = a ∨ b ∈ xs := by
  unfold addOnce
  split
  · constructor
    · exact .inr
    · rintro (rfl | h) <;> assumption
  · simp

namespace State

/-! ## Storing in the innermost frame -/

variable (st : State) (vs : List Variable) (x : Variable → Value)

@[simp] theorem storeAll_cons (v : Variable) :
    st.storeAll (v :: vs) x = (st.store v (x v)).storeAll vs x := rfl

@[simp] theorem store_pending (v : Variable) (y : Value) :
    (st.store v y).pending = st.pending := rfl

@[simp] theorem store_node (v : Variable) (y : Value) :
    (st.store v y).top.node = st.top.node := rfl

@[simp] theorem store_declared (v : Variable) (y : Value) :
    (st.store v y).top.declared = st.top.declared := rfl

theorem store_values (v w : Variable) (y : Value) :
    (st.store v y).top.values.get? w = if w = v then some y else st.top.values.get? w :=
  Env.get?_set _ _ _ _

theorem mem_store_written (v w : Variable) (y : Value) :
    w ∈ (st.store v y).top.written ↔ w = v ∨ w ∈ st.top.written :=
  mem_addOnce _ _ _

theorem storeAll_keeps {β : Type} (f : State → β) (hkeeps : ∀ st v y, f (store st v y) = f st) :
    f (st.storeAll vs x) = f st := by
  induction vs generalizing st with
  | nil => rfl
  | cons v vs ih => rw [storeAll_cons, ih, hkeeps]

@[simp] theorem storeAll_outer : (st.storeAll vs x).outer = st.outer :=
  storeAll_keeps st vs x (·.outer) fun _ _ _ => rfl

@[simp] theorem storeAll_opened : (st.storeAll vs x).opened = st.opened :=
  storeAll_keeps st vs x (·.opened) fun _ _ _ => rfl

@[simp] theorem storeAll_constants : (st.storeAll vs x).constants = st.constants :=
  storeAll_keeps st vs x (·.constants) fun _ _ _ => rfl

@[simp] theorem storeAll_bases : (st.storeAll vs x).bases = st.bases :=
  storeAll_keeps st vs x (·.bases) fun _ _ _ => rfl

@[simp] theorem storeAll_pending : (st.storeAll vs x).pending = st.pending :=
  storeAll_keeps st vs x (·.pending) fun _ _ _ => rfl

@[simp] theorem storeAll_node : (st.storeAll vs x).top.node = st.top.node :=
  storeAll_keeps st vs x (·.top.node) fun _ _ _ => rfl

@[simp] theorem storeAll_kind : (st.storeAll vs x).top.kind = st.top.kind :=
  storeAll_keeps st vs x (·.top.kind) fun _ _ _ => rfl

@[simp] theorem storeAll_declared : (st.storeAll vs x).top.declared = st.top.declared :=
  storeAll_keeps st vs x (·.top.declared) fun _ _ _ => rfl

theorem storeAll_values (w : Variable) :
    (st.storeAll vs x).top.values.get? w =
      if w ∈ vs then some (x w) else st.top.values.get? w := by
  induction vs generalizing st with
  | nil => exact (if_neg List.not_mem_nil).symm
  | cons v vs ih =>
      rw [storeAll_cons, ih, store_values]
      by_cases hv : w = v
      · subst hv
        simp
      · simp [hv]

theorem mem_storeAll_written (w : Variable) :
    w ∈ (st.storeAll vs x).top.written ↔ w ∈ vs ∨ w ∈ st.top.written := by
  induction vs generalizing st with
  | nil => exact (or_iff_right List.not_mem_nil).symm
  | cons v vs ih =>
      rw [storeAll_cons, ih, mem_store_written, List.mem_cons]
      constructor
      · rintro (h | h | h)
        · exact .inl (.inr h)
        · exact .inl (.inl h)
        · exact .inr h
      · rintro ((h | h) | h)
        · exact .inr (.inl h)
        · exact .inl h
        · exact .inr (.inr h)

/-! ## Reading -/

def hit (v : Variable) (fs : List Frame) : Option Value := fs.findSome? (·.values.get? v)

theorem hit_cons (v : Variable) (f : Frame) (fs : List Frame) :
    hit v (f :: fs) = (f.values.get? v).or (hit v fs) := by
  simp only [hit, List.findSome?_cons]
  cases f.values.get? v <;> rfl

theorem search_cons (constant crossed : Bool) (v : Variable) (f : Frame) (fs : List Frame) :
    search constant v crossed (f :: fs) =
      match f.values.get? v with
      | some (.known l) => some (if crossed && !constant then .unknown else .known l)
      | some .unknown => some .unknown
      | none => search constant v (crossed || isBoundary f.kind) fs := rfl

/-- A value that is found stands in the nearest frame that has one. -/
theorem hit_of_search {constant crossed : Bool} {v : Variable} {fs : List Frame} {l : Literal}
    (h : search constant v crossed fs = some (.known l)) : hit v fs = some (.known l) := by
  induction fs generalizing crossed with
  | nil => simp [search] at h
  | cons f fs ih =>
      rw [search_cons] at h
      rw [hit_cons]
      cases hf : f.values.get? v with
      | none =>
          rw [hf] at h
          exact ih h
      | some y =>
          rw [hf] at h
          cases y with
          | unknown => simp at h
          | known k =>
              simp only [Option.some.injEq] at h
              split at h
              · cases h
              · simpa using h

/-- Behind a boundary nothing is known of a variable that is no constant. -/
theorem search_crossed_ne_known (v : Variable) (fs : List Frame) (l : Literal) :
    search false v true fs ≠ some (.known l) := by
  induction fs with
  | nil => simp [search]
  | cons f fs ih =>
      rw [search_cons]
      cases f.values.get? v with
      | none => simpa using ih
      | some y => cases y <;> simp

theorem search_isSome (constant crossed : Bool) (v : Variable) (fs : List Frame) :
    (search constant v crossed fs).isSome = (hit v fs).isSome := by
  induction fs generalizing crossed with
  | nil => rfl
  | cons f fs ih =>
      rw [search_cons, hit_cons]
      cases hf : f.values.get? v with
      | none => simpa using ih _
      | some y => cases y <;> rfl

/-- Without a boundary on the way the nearest value is found as it is. -/
theorem search_eq_hit {constant : Bool} {v : Variable} {fs : List Frame}
    (h : ∀ f ∈ fs, isBoundary f.kind = false) : search constant v false fs = hit v fs := by
  induction fs with
  | nil => rfl
  | cons f fs ih =>
      rw [search_cons, hit_cons]
      cases hf : f.values.get? v with
      | none =>
          rw [h f (by simp)]
          exact ih fun g hg => h g (by simp [hg])
      | some y => cases y <;> rfl

theorem lookup_eq_hit (h : ∀ f ∈ st.frames, isBoundary f.kind = false) (v : Variable) :
    st.lookup v = hit v st.frames := by
  have hcheck : st.frames.any (·.kind = .loopCheck) = false := by
    rw [List.any_eq_false]
    intro f hf hk
    simp only [decide_eq_true_eq] at hk
    have := h f hf
    rw [hk] at this
    exact Bool.noConfusion this
  rw [lookup, hcheck]
  exact search_eq_hit h

theorem hit_of_lookup {st : State} {v : Variable} {l : Literal}
    (h : st.lookup v = some (.known l)) : hit v st.frames = some (.known l) := by
  unfold lookup at h
  split at h
  · simp at h
  · exact hit_of_search h

theorem mem_frame_vars_iff (v : Variable) (fs : List Frame) :
    v ∈ fs.flatMap (·.values.vars) ↔ (hit v fs).isSome = true := by
  induction fs with
  | nil => simp [hit]
  | cons f fs ih =>
      rw [List.flatMap_cons, List.mem_append, ih, hit_cons, Env.mem_vars_iff]
      cases f.values.get? v <;> simp

/-- A snapshot holds what is known of every variable that has been met. -/
theorem flatten_get? (v : Variable) :
    st.flatten.get? v = if (hit v st.frames).isSome = true then st.lookup v else none := by
  unfold flatten Env.get?
  rw [lookup_filterMap_pair]
  simp only [List.mem_eraseDups, mem_frame_vars_iff]

theorem mem_flatten_vars (v : Variable) :
    v ∈ st.flatten.vars ↔ (hit v st.frames).isSome = true := by
  rw [Env.mem_vars_iff, flatten_get?]
  cases hh : (hit v st.frames).isSome with
  | false => simp
  | true =>
      simp only [if_true, iff_true]
      unfold lookup
      split
      · rfl
      · rw [search_isSome, hh]

theorem flatten_get?_eq_none (v : Variable) :
    st.flatten.get? v = none ↔ hit v st.frames = none := by
  rw [← Option.not_isSome_iff_eq_none, ← Env.mem_vars_iff, mem_flatten_vars,
    Option.not_isSome_iff_eq_none]

/-- What a conditional region that opens here starts from: what was known before its siblings. -/
def snapshot : Env := (st.bases.lookup st.top.node).getD st.flatten

theorem enter_conditional (n : Nat) :
    st.enter n .conditional =
      { st with
        opened := st.opened + 1, top := ⟨n, .conditional, st.snapshot, [], []⟩, outer := st.frames
        bases :=
          if (st.bases.lookup st.top.node).isSome = true then st.bases
          else (st.top.node, st.flatten) :: st.bases } := by
  unfold enter snapshot
  simp only [if_true]
  cases hbase : st.bases.lookup st.top.node <;> rfl

/-! ## Merging -/

theorem agree_eq_known {x y : Option Value} {l : Literal} (h : agree x y = .known l) :
    x = some (.known l) ∧ y = some (.known l) := by
  unfold agree at h
  split at h
  · split at h
    · rename_i hab
      subst hab
      simp_all
    · simp at h
  · simp at h

theorem mem_written_iff (p : Option Branch) (v : Variable) :
    v ∈ (p.map (·.written)).getD [] ↔ ∃ x, p = some x ∧ v ∈ x.written := by
  cases p <;> simp

end State

end Datapack.Optimize.Folding
