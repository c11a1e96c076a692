import Mathlib.Data.List.Forall2
import Datapack.Proofs.Optimize.Folding.State

/-!
# Comparing what two walks know

`StateLe b a` says that a walk in state `b` knows nothing that a walk in state `a` does not know: they
stand in the same regions, and every value found from `b` is found from `a`.  The second walk may have
written more, as long as it knows nothing about what it wrote.  Every operation on states keeps this
order; snapshots of conditional regions are compared on their own.
-/

namespace Datapack.Optimize.Folding

open Ir

/-- Every value of `b` is one of `a`. -/
def EnvLe (b a : Env) : Prop :=
  ∀ v l, b.get? v = some (.known l) → a.get? v = some (.known l)

/-- The comparison of two snapshots: `b` has every variable of `a`, and every value of `b` is one of
`a`. -/
structure SnapshotLe (b a : Env) : Prop where
  known : EnvLe b a
  absent : ∀ v, b.get? v = none → a.get? v = none

/-- The comparison of two frames of one region. -/
structure FrameLe (g f : Frame) : Prop where
  node : g.node = f.node
  kind : g.kind = f.kind
  declared : g.declared = f.declared
  values : EnvLe g.values f.values
  written : ∀ v ∈ f.written, v ∈ g.written
  extra : ∀ v ∈ g.written, v ∈ f.written ∨ ∀ l, g.values.get? v ≠ some (.known l)

/-- What is found from the frames `gs` is found from `fs`, and what has been met in `fs` has been met
in `gs`. -/
structure HitLe (gs fs : List Frame) : Prop where
  known : ∀ v l, State.hit v gs = some (.known l) → State.hit v fs = some (.known l)
  absent : ∀ v, State.hit v gs = none → State.hit v fs = none

/-- The comparison of two stacks of frames, at every level. -/
inductive FramesLe : List Frame → List Frame → Prop where
  | nil : FramesLe [] []
  | cons {g f : Frame} {gs fs : List Frame} (hframe : FrameLe g f)
      (hhit : HitLe (g :: gs) (f :: fs)) (hrest : FramesLe gs fs) : FramesLe (g :: gs) (f :: fs)

/-- The comparison of two pending branches of one region. -/
structure BranchLe (q p : Nat × Branch) : Prop where
  node : q.1 = p.1
  parent : q.2.parent = p.2.parent
  values : EnvLe q.2.values p.2.values
  written : ∀ v ∈ p.2.written, v ∈ q.2.written
  extra : ∀ v ∈ q.2.written, v ∈ p.2.written ∨ ∀ l, q.2.values.get? v ≠ some (.known l)

/-- A walk in state `b` knows nothing that a walk in state `a` does not. -/
structure StateLe (b a : State) : Prop where
  frames : FramesLe b.frames a.frames
  opened : b.opened = a.opened
  constants : ∀ v ∈ b.constants, v ∈ a.constants
  pending : List.Forall₂ BranchLe b.pending a.pending

namespace State

/-- Whether a conditional region that opens here and starts from `kept` in place of the state's own
snapshot finds no value that it would not find otherwise. -/
def subsumes (st : State) (kept : Env) : Bool :=
  (kept.vars.all fun v =>
      decide (kept.get? v = some .unknown) || decide (st.snapshot.get? v = kept.get? v)) &&
    st.snapshot.vars.all fun v =>
      (kept.get? v).isSome || decide (st.snapshot.get? v = hit v st.frames)

theorem subsumes_iff (st : State) {kept : Env} :
    st.subsumes kept = true ↔
      EnvLe kept st.snapshot ∧
        ∀ v, kept.get? v = none →
          st.snapshot.get? v = none ∨ st.snapshot.get? v = hit v st.frames := by
  unfold subsumes
  simp only [Bool.and_eq_true, List.all_eq_true, Bool.or_eq_true, decide_eq_true_eq,
    Env.mem_vars_iff]
  constructor
  · rintro ⟨hknown, hmissing⟩
    refine ⟨?_, ?_⟩
    · intro v l hv
      rcases hknown v (by simp [hv]) with hunknown | hsame
      · simp [hv] at hunknown
      · rw [hsame, hv]
    · intro v hv
      cases hsnap : st.snapshot.get? v with
      | none => exact .inl rfl
      | some y =>
          rcases hmissing v (by simp [hsnap]) with hsome | hsame
          · simp [hv] at hsome
          · exact .inr (by rw [← hsame, hsnap])
  · rintro ⟨hknown, hmissing⟩
    refine ⟨?_, ?_⟩
    · intro v hv
      cases hkept : kept.get? v with
      | none => simp [hkept] at hv
      | some y =>
          cases y with
          | unknown => exact .inl rfl
          | known l => exact .inr (hknown v l hkept)
    · intro v hv
      cases hkept : kept.get? v with
      | some y => exact .inl rfl
      | none =>
          refine .inr ((hmissing v hkept).resolve_left fun hnone => ?_)
          simp [hnone] at hv

end State

namespace FramesLe

variable {gs fs : List Frame}

theorem hit (h : FramesLe gs fs) : HitLe gs fs := by
  cases h with
  | nil => exact ⟨fun _ _ h => (nomatch h), fun _ _ => rfl⟩
  | cons _ hhit _ => exact hhit

theorem any_kind (h : FramesLe gs fs) (k : ScopeKind) :
    gs.any (·.kind = k) = fs.any (·.kind = k) := by
  induction h with
  | nil => rfl
  | cons hframe _ _ ih => simp [hframe.kind, ih]

/-- What a search finds from below it finds from above: where the lower frames lack a value that the
upper ones have, the nearest values agree. -/
theorem search (h : FramesLe gs fs) {c d : Bool} (hc : c = true → d = true) {v : Variable}
    {crossed : Bool} {l : Literal} (hs : State.search c v crossed gs = some (.known l)) :
    State.search d v crossed fs = some (.known l) := by
  induction h generalizing crossed with
  | nil => simp [State.search] at hs
  | @cons g f gs fs hframe hhit _ ih =>
      rw [State.search_cons] at hs ⊢
      cases hg : g.values.get? v with
      | some y =>
          rw [hg] at hs
          cases y with
          | unknown => simp at hs
          | known k =>
              rw [hframe.values v k hg]
              cases crossed <;> cases c <;> simp_all
      | none =>
          rw [hg] at hs
          simp only at hs
          cases hf : f.values.get? v with
          | none =>
              rw [← hframe.kind]
              exact ih hs
          | some y =>
              have hknown := hhit.known v l (by rw [State.hit_cons, hg]; exact State.hit_of_search hs)
              rw [State.hit_cons, hf] at hknown
              simp only [Option.some_or, Option.some.injEq] at hknown
              subst hknown
              have hcross : (crossed && !c) = false := by
                cases crossed with
                | false => rfl
                | true =>
                    cases c with
                    | true => rfl
                    | false =>
                        simp only [Bool.true_or] at hs
                        exact absurd hs (State.search_crossed_ne_known v gs l)
              have hcross' : (crossed && !d) = false := by
                cases crossed <;> cases c <;> cases d <;> simp_all
              simp [hcross']

end FramesLe

namespace BranchLe

variable {m : Nat} {q p : Branch}

/-- What a branch leaves known, the compared branch leaves known too. -/
theorem valueOf (h : BranchLe (m, q) (m, p)) {v : Variable} {l : Literal}
    (hq : q.valueOf v = .known l) : p.valueOf v = .known l := by
  unfold Branch.valueOf at hq ⊢
  cases hget : q.values.get? v with
  | none => simp [hget] at hq
  | some y =>
      rw [hget] at hq
      simp only [Option.getD_some] at hq
      subst hq
      rw [h.values v l hget]
      rfl

/-- What a branch writes and leaves known, the compared branch writes. -/
theorem mem_written (h : BranchLe (m, q) (m, p)) {v : Variable} {l : Literal}
    (hv : v ∈ q.written) (hq : q.valueOf v = .known l) : v ∈ p.written := by
  refine (h.extra v hv).resolve_right fun hnot => hnot l ?_
  unfold Branch.valueOf at hq
  cases hget : q.values.get? v with
  | none => simp [hget] at hq
  | some y => simpa [hget] using hq

end BranchLe

namespace StateLe

variable {b a : State}

theorem node (h : StateLe b a) : b.top.node = a.top.node := by
  cases h.frames with
  | cons hframe _ _ => exact hframe.node

theorem top (h : StateLe b a) : FrameLe b.top a.top := by
  cases h.frames with
  | cons hframe _ _ => exact hframe

theorem outer (h : StateLe b a) : FramesLe b.outer a.outer := by
  cases h.frames with
  | cons _ _ hrest => exact hrest

theorem lookup (h : StateLe b a) {v : Variable} {l : Literal}
    (hb : b.lookup v = some (.known l)) : a.lookup v = some (.known l) := by
  unfold State.lookup at hb ⊢
  rw [h.frames.any_kind] at hb
  split at hb
  · simp at hb
  · rename_i hcheck
    rw [if_neg hcheck]
    refine h.frames.search ?_ hb
    simp only [decide_eq_true_eq]
    exact h.constants v

theorem flatten (h : StateLe b a) : SnapshotLe b.flatten a.flatten := by
  refine ⟨?_, ?_⟩
  · intro v l hb
    rw [State.flatten_get?] at hb ⊢
    split at hb
    · have hknown := h.lookup hb
      rw [if_pos, hknown]
      rw [State.hit_of_lookup hknown]
      rfl
    · simp at hb
  · intro v hb
    rw [State.flatten_get?_eq_none] at hb ⊢
    exact h.frames.hit.absent v hb

theorem noteConstant (h : StateLe b a) (r : Option Reference) :
    StateLe (b.noteConstant r) (a.noteConstant r) := by
  unfold State.noteConstant
  split
  · split
    · refine ⟨h.frames, h.opened, ?_, h.pending⟩
      intro v hv
      rcases (mem_addOnce _ _ _).1 hv with rfl | hv
      · exact (mem_addOnce _ _ _).2 (.inl rfl)
      · exact (mem_addOnce _ _ _).2 (.inr (h.constants v hv))
    · exact h
  · exact h

/-- Storing keeps the order when the lower walk stores at least what the upper one does, and knows of
it only what the upper one stores too. -/
theorem storeAll (h : StateLe b a) {ws vs : List Variable} {y x : Variable → Value}
    (hsub : ∀ v ∈ vs, v ∈ ws) (hval : ∀ v ∈ ws, ∀ l, y v = .known l → v ∈ vs ∧ x v = .known l) :
    StateLe (b.storeAll ws y) (a.storeAll vs x) := by
  refine ⟨?_, by simpa using h.opened, by simpa using h.constants, by simpa using h.pending⟩
  have hvalues : EnvLe (b.storeAll ws y).top.values (a.storeAll vs x).top.values := by
    intro v l hv
    rw [State.storeAll_values] at hv ⊢
    by_cases hw : v ∈ ws
    · rw [if_pos hw, Option.some.injEq] at hv
      obtain ⟨hvs, hx⟩ := hval v hw l hv
      rw [if_pos hvs, hx]
    · rw [if_neg hw] at hv
      rw [if_neg fun hvs => hw (hsub v hvs)]
      exact h.top.values v l hv
  have hframe : FrameLe (b.storeAll ws y).top (a.storeAll vs x).top := by
    refine ⟨by simpa using h.top.node, by simpa using h.top.kind, by simpa using h.top.declared,
      hvalues, ?_, ?_⟩
    · intro v hv
      rw [State.mem_storeAll_written] at hv ⊢
      exact hv.imp (hsub v) (h.top.written v)
    · intro v hv
      rw [State.mem_storeAll_written] at hv
      simp only [State.mem_storeAll_written, State.storeAll_values]
      by_cases hw : v ∈ ws
      · rw [if_pos hw]
        cases hy : y v with
        | unknown => exact .inr fun l hl => by simp at hl
        | known k => exact .inl (.inl (hval v hw k hy).1)
      · rw [if_neg hw]
        exact (h.top.extra v (hv.resolve_left hw)).imp_left .inr
  have hhit : HitLe ((b.storeAll ws y).top :: b.outer) ((a.storeAll vs x).top :: a.outer) := by
    refine ⟨?_, ?_⟩
    · intro v l hv
      rw [State.hit_cons, State.storeAll_values] at hv ⊢
      by_cases hw : v ∈ ws
      · rw [if_pos hw] at hv
        simp only [Option.some_or, Option.some.injEq] at hv
        obtain ⟨hvs, hx⟩ := hval v hw l hv
        rw [if_pos hvs, hx]
        rfl
      · rw [if_neg hw, ← State.hit_cons] at hv
        rw [if_neg fun hvs => hw (hsub v hvs), ← State.hit_cons]
        exact h.frames.hit.known v l hv
    · intro v hv
      rw [State.hit_cons, State.storeAll_values] at hv ⊢
      by_cases hw : v ∈ ws
      · simp [hw] at hv
      · rw [if_neg hw, ← State.hit_cons] at hv
        rw [if_neg fun hvs => hw (hsub v hvs), ← State.hit_cons]
        exact h.frames.hit.absent v hv
  simp only [State.frames, State.storeAll_outer]
  exact .cons hframe hhit h.outer

/-- Forgetting keeps the order. -/
theorem forget (h : StateLe b a) {ws vs : List Variable} (hsub : ∀ v ∈ vs, v ∈ ws) :
    StateLe (b.storeAll ws fun _ => .unknown) (a.storeAll vs fun _ => .unknown) :=
  h.storeAll hsub fun _ _ _ hl => by simp at hl

theorem write (h : StateLe b a) (r : Option Reference) {y x : Value}
    (hval : ∀ l, y = .known l → x = .known l) : StateLe (b.write r y) (a.write r x) := by
  unfold State.write
  split
  · rename_i v _
    have hstore : StateLe ((b.noteConstant r).storeAll [v] fun _ => y)
        ((a.noteConstant r).storeAll [v] fun _ => x) :=
      (h.noteConstant r).storeAll (fun _ hv => hv) fun _ hv l hl => ⟨hv, hval l hl⟩
    exact hstore
  · exact h

theorem declare (h : StateLe b a) (r : Option Reference) : StateLe (b.declare r) (a.declare r) := by
  unfold State.declare
  split
  · rename_i v _
    have hn := h.noteConstant r
    have hvalues : EnvLe ((b.noteConstant r).top.declare v).values
        ((a.noteConstant r).top.declare v).values := by
      intro w l hw
      simp only [Frame.declare, Env.get?_set] at hw ⊢
      split at hw
      · simp at hw
      · rename_i hne
        rw [if_neg hne]
        exact hn.top.values w l hw
    refine ⟨.cons ⟨hn.top.node, hn.top.kind, ?_, hvalues, hn.top.written, ?_⟩ ⟨?_, ?_⟩ hn.outer,
      hn.opened, hn.constants, hn.pending⟩
    · simp [Frame.declare, hn.top.declared]
    · intro w hw
      refine (hn.top.extra w hw).imp_right fun hnot l hl => ?_
      simp only [Frame.declare, Env.get?_set] at hl
      split at hl
      · simp at hl
      · exact hnot l hl
    · intro w l hw
      rw [State.hit_cons] at hw ⊢
      simp only [Frame.declare, Env.get?_set] at hw ⊢
      split at hw
      · simp at hw
      · rename_i hne
        rw [if_neg hne, ← State.hit_cons]
        rw [← State.hit_cons] at hw
        exact hn.frames.hit.known w l hw
    · intro w hw
      rw [State.hit_cons] at hw ⊢
      simp only [Frame.declare, Env.get?_set] at hw ⊢
      split at hw
      · simp at hw
      · rename_i hne
        rw [if_neg hne, ← State.hit_cons]
        rw [← State.hit_cons] at hw
        exact hn.frames.hit.absent w hw
  · exact h

/-! ## Pending branches -/

theorem branch_lookup (h : StateLe b a) (n : Nat) :
    (b.pending.lookup n = none ∧ a.pending.lookup n = none) ∨
      ∃ q p, b.pending.lookup n = some q ∧ a.pending.lookup n = some p ∧
        BranchLe (n, q) (n, p) := by
  have hp := h.pending
  revert hp
  generalize b.pending = qs
  generalize a.pending = ps
  intro hp
  induction hp with
  | nil => exact .inl ⟨rfl, rfl⟩
  | @cons q p qs ps hqp _ ih =>
      obtain ⟨m, q⟩ := q
      obtain ⟨m', p⟩ := p
      have hm : m = m' := hqp.node
      subst hm
      rw [lookup_cons_ite, lookup_cons_ite]
      by_cases hn : n = m
      · subst hn
        exact .inr ⟨q, p, by simp, by simp, hqp⟩
      · simpa [hn] using ih

theorem branch? (h : StateLe b a) (n : Option Nat) :
    (b.branch? n = none ∧ a.branch? n = none) ∨
      ∃ m q p, b.branch? n = some q ∧ a.branch? n = some p ∧ BranchLe (m, q) (m, p) := by
  cases n with
  | none => exact .inl ⟨rfl, rfl⟩
  | some n =>
      rcases h.branch_lookup n with hnone | ⟨q, p, hq, hp, hle⟩
      · exact .inl hnone
      · exact .inr ⟨n, q, p, hq, hp, hle⟩

theorem forall₂_filter {R : Nat × Branch → Nat × Branch → Prop} {qs ps : List (Nat × Branch)}
    {f : Nat × Branch → Bool} (h : List.Forall₂ R qs ps) (hf : ∀ q p, R q p → f q = f p) :
    List.Forall₂ R (qs.filter f) (ps.filter f) := by
  induction h with
  | nil => exact .nil
  | @cons q p qs ps hqp _ ih =>
      cases hp : f p with
      | false =>
          rw [List.filter_cons_of_neg (by simp [hf q p hqp, hp]),
            List.filter_cons_of_neg (by simp [hp])]
          exact ih
      | true =>
          rw [List.filter_cons_of_pos (by simp [hf q p hqp, hp]),
            List.filter_cons_of_pos (by simp [hp])]
          exact .cons hqp ih

theorem settle (h : StateLe b a) (n : Option Nat) : StateLe (b.settle n) (a.settle n) :=
  ⟨h.frames, h.opened, h.constants,
    forall₂_filter h.pending fun q p hqp => by simp [hqp.node]⟩

theorem dropBase_right (h : StateLe b a) (n : Nat) : StateLe b (a.dropBase n) :=
  ⟨h.frames, h.opened, h.constants, h.pending⟩

theorem dropBase (h : StateLe b a) (n : Nat) : StateLe (b.dropBase n) (a.dropBase n) :=
  ⟨h.frames, h.opened, h.constants, h.pending⟩

theorem commit (h : StateLe b a) (n : Option Nat) : StateLe (b.commit n) (a.commit n) := by
  unfold State.commit
  rcases h.branch? n with ⟨hb, ha⟩ | ⟨m, q, p, hq, hp, hle⟩
  · rw [hb, ha]
    exact h
  · rw [hq, hp]
    refine (h.storeAll hle.written ?_).settle n
    intro v hv l hl
    exact ⟨hle.mem_written hv hl, hle.valueOf hl⟩

theorem outcomeOf (h : StateLe b a) (n : Option Nat) {v : Variable} {l : Literal}
    (hb : b.outcomeOf (b.branch? n) v = some (.known l)) :
    a.outcomeOf (a.branch? n) v = some (.known l) := by
  rcases h.branch? n with ⟨hbn, han⟩ | ⟨m, q, p, hq, hp, hle⟩
  · rw [hbn] at hb
    rw [han]
    exact h.lookup hb
  · rw [hq] at hb
    rw [hp]
    simp only [State.outcomeOf, Option.some.injEq] at hb ⊢
    exact hle.valueOf hb

theorem written_branch? (h : StateLe b a) (n : Option Nat) :
    ∀ v ∈ ((a.branch? n).map (·.written)).getD [], v ∈ ((b.branch? n).map (·.written)).getD [] := by
  intro v hv
  obtain ⟨p, hp, hv⟩ := (State.mem_written_iff _ _).1 hv
  rcases h.branch? n with ⟨_, ha⟩ | ⟨m, q, p', hq, hp', hle⟩
  · rw [ha] at hp
    simp at hp
  · rw [hp'] at hp
    simp only [Option.some.injEq] at hp
    subst hp
    exact (State.mem_written_iff _ _).2 ⟨q, hq, hle.written v hv⟩

theorem written_of_outcomeOf (h : StateLe b a) (n : Option Nat) {v : Variable} {l : Literal}
    (hv : v ∈ ((b.branch? n).map (·.written)).getD [])
    (hl : b.outcomeOf (b.branch? n) v = some (.known l)) :
    v ∈ ((a.branch? n).map (·.written)).getD [] := by
  obtain ⟨q, hq, hv⟩ := (State.mem_written_iff _ _).1 hv
  rcases h.branch? n with ⟨hb, _⟩ | ⟨m, q', p, hq', hp, hle⟩
  · rw [hb] at hq
    simp at hq
  · rw [hq'] at hq hl
    simp only [Option.some.injEq, State.outcomeOf] at hq hl
    subst hq
    exact (State.mem_written_iff _ _).2 ⟨p, hp, hle.mem_written hv hl⟩

theorem isNone_branch? (h : StateLe b a) (n : Option Nat) :
    (b.branch? n).isNone = (a.branch? n).isNone := by
  rcases h.branch? n with ⟨hb, ha⟩ | ⟨_, q, p, hq, hp, _⟩
  · rw [hb, ha]
  · rw [hq, hp]
    rfl

theorem merge (h : StateLe b a) (t f : Option Nat) : StateLe (b.merge t f) (a.merge t f) := by
  unfold State.merge
  simp only [h.isNone_branch?]
  split
  · exact h
  · simp only [State.storeAll_node]
    rw [h.node]
    refine (((h.storeAll ?_ ?_).settle t).settle f).dropBase _
    · intro v hv
      rw [List.mem_eraseDups, List.mem_append] at hv ⊢
      exact hv.imp (h.written_branch? t v) (h.written_branch? f v)
    · intro v hv l hl
      obtain ⟨hx, hy⟩ := State.agree_eq_known hl
      refine ⟨?_, ?_⟩
      · rw [List.mem_eraseDups, List.mem_append] at hv ⊢
        exact hv.imp (fun hv => h.written_of_outcomeOf t hv hx)
          fun hv => h.written_of_outcomeOf f hv hy
      · rw [h.outcomeOf t hx, h.outcomeOf f hy]
        simp [State.agree]

/-! ## Entering and leaving regions -/

theorem mem_flatMap_written {qs ps : List (Nat × Branch)} (h : List.Forall₂ BranchLe qs ps) :
    ∀ v ∈ ps.flatMap (·.2.written), v ∈ qs.flatMap (·.2.written) := by
  induction h with
  | nil => exact fun _ hv => hv
  | cons hqp _ ih =>
      intro v hv
      rw [List.flatMap_cons, List.mem_append] at hv ⊢
      exact hv.imp (hqp.written v) (ih v)

theorem escaping {g f : Frame} (h : FrameLe g f) : ∀ v ∈ f.escaping, v ∈ g.escaping := by
  intro v hv
  simp only [Frame.escaping, List.mem_filter, h.declared] at hv ⊢
  exact ⟨h.written v hv.1, hv.2⟩

theorem leave (h : StateLe b a) : StateLe b.leave a.leave := by
  unfold State.leave
  have hout := h.outer
  revert hout
  cases hb : b.outer with
  | nil =>
      cases ha : a.outer with
      | nil =>
          intro _
          exact h
      | cons f fs =>
          intro hout
          cases hout
  | cons g gs =>
      cases ha : a.outer with
      | nil =>
          intro hout
          cases hout
      | cons f fs =>
          intro hout
          simp only [State.storeAll_bases, State.storeAll_pending, State.storeAll_opened,
            State.storeAll_constants]
          have hmine : List.Forall₂ BranchLe (b.pending.filter (·.2.parent = b.top.node))
              (a.pending.filter (·.2.parent = a.top.node)) := by
            rw [h.node]
            exact forall₂_filter h.pending fun q p hqp => by simp [hqp.parent]
          have hclosed := (h.forget (mem_flatMap_written hmine)).top
          have hnext : g.node = f.node := by
            cases hout with
            | cons hframe _ _ => exact hframe.node
          have hpend : List.Forall₂ BranchLe (b.pending.filter (·.2.parent ≠ b.top.node))
              (a.pending.filter (·.2.parent ≠ a.top.node)) := by
            rw [h.node]
            exact forall₂_filter h.pending fun q p hqp => by simp [hqp.parent]
          rw [hclosed.kind]
          split
          · refine ⟨hout, h.opened, h.constants, .cons ⟨h.node, hnext, hclosed.values, ?_, ?_⟩ hpend⟩
            · exact escaping hclosed
            · intro v hv
              simp only [Frame.escaping, List.mem_filter, hclosed.declared] at hv ⊢
              exact (hclosed.extra v hv.1).imp_left fun hw => ⟨hw, hv.2⟩
          · refine StateLe.forget (b := { b with
                top := g, outer := gs, bases := _, pending := _ }) (a := { a with
                top := f, outer := fs, bases := _, pending := _ }) ⟨hout, h.opened, h.constants, hpend⟩ ?_
            exact escaping hclosed

/-- A region that is no conditional one starts with an empty frame. -/
theorem enter (h : StateLe b a) (n : Nat) {k : ScopeKind} (hk : k ≠ .conditional) :
    StateLe (b.enter n k) (a.enter n k) := by
  unfold State.enter
  simp only [if_neg hk]
  have hempty : ∀ fs : List Frame, ∀ v, State.hit v (⟨n, k, [], [], []⟩ :: fs) = State.hit v fs := by
    intro fs v
    rw [State.hit_cons]
    rfl
  refine ⟨.cons ⟨rfl, rfl, rfl, fun v l hv => hv, fun v hv => hv, fun v hv => .inl hv⟩
    ⟨?_, ?_⟩ h.frames, by simp [h.opened], h.constants, h.pending⟩
  · intro v l hv
    rw [hempty] at hv ⊢
    exact h.frames.hit.known v l hv
  · intro v hv
    rw [hempty] at hv ⊢
    exact h.frames.hit.absent v hv

/-- A conditional region starts from a snapshot; a snapshot below one that `a` subsumes will do. -/
theorem enter_conditional (h : StateLe b a) (n : Nat) {kept : Env}
    (hsnap : SnapshotLe b.snapshot kept) (hkept : a.subsumes kept = true) :
    StateLe (b.enter n .conditional) (a.enter n .conditional) := by
  obtain ⟨hknown, hmissing⟩ := a.subsumes_iff.1 hkept
  rw [State.enter_conditional, State.enter_conditional]
  refine ⟨.cons ⟨rfl, rfl, rfl, fun v l hv => hknown v l (hsnap.known v l hv), fun v hv => hv,
    fun v hv => .inl hv⟩ ⟨?_, ?_⟩ h.frames, by simp [h.opened], h.constants, h.pending⟩
  · intro v l hv
    rw [State.hit_cons] at hv ⊢
    cases hb : b.snapshot.get? v with
    | none =>
        rw [hb] at hv
        have hhit := h.frames.hit.known v l hv
        rcases hmissing v (hsnap.absent v hb) with ha | ha
        · rw [ha]
          exact hhit
        · rw [ha, hhit]
          rfl
    | some y =>
        rw [hb] at hv
        simp only [Option.some_or, Option.some.injEq] at hv
        subst hv
        rw [hknown v l (hsnap.known v l hb)]
        rfl
  · intro v hv
    rw [State.hit_cons] at hv ⊢
    cases hb : b.snapshot.get? v with
    | none =>
        rw [hb] at hv
        have hhit := h.frames.hit.absent v hv
        rcases hmissing v (hsnap.absent v hb) with ha | ha
        · rw [ha]
          exact hhit
        · rw [ha, hhit]
          rfl
    | some y => simp [hb] at hv

/-! ## Calls -/

theorem upToFunction {gs fs : List Frame} (h : FramesLe gs fs) :
    (State.upToFunction gs = none ∧ State.upToFunction fs = none) ∨
      ∃ own own' g f, State.upToFunction gs = some (own, g) ∧
        State.upToFunction fs = some (own', f) ∧ g.node = f.node ∧
        ∀ v, own.any (v ∈ ·.declared) = own'.any (v ∈ ·.declared) := by
  induction h with
  | nil => exact .inl ⟨rfl, rfl⟩
  | @cons g f gs fs hframe _ _ ih =>
      unfold State.upToFunction
      rw [hframe.kind]
      split
      · exact .inr ⟨[g], [f], g, f, rfl, rfl, hframe.node, by simp [hframe.declared]⟩
      · rcases ih with ⟨hg, hf⟩ | ⟨own, own', g', f', hg, hf, hnode, hown⟩
        · rw [hg, hf]
          exact .inl ⟨rfl, rfl⟩
        · rw [hg, hf]
          exact .inr ⟨g :: own, f :: own', g', f', rfl, rfl, hnode, by simp [hframe.declared, hown]⟩

/-- A call whose callee may lie in more places forgets more. -/
theorem clobber (h : StateLe b a) {u t : ScopeTree} {ds cs : List (Nat × Option Function)}
    (hanc : ∀ n m, u.isAncestor n m = t.isAncestor n m) (hbodies : ∀ x ∈ cs, x ∈ ds)
    (callee : Option Function) :
    StateLe (b.clobber u ds callee) (a.clobber t cs callee) := by
  have hvars : ∀ v ∈ a.flatten.vars, v ∈ b.flatten.vars := by
    intro v hv
    rw [State.mem_flatten_vars] at hv ⊢
    cases hb : State.hit v b.frames with
    | none => simp [h.frames.hit.absent v hb] at hv
    | some y => rfl
  unfold State.clobber
  rcases upToFunction h.frames with ⟨hb, ha⟩ | ⟨own, own', g, f, hb, ha, hnode, hown⟩
  · rw [hb, ha]
    exact h.forget hvars
  · rw [hb, ha]
    simp only [hanc, hnode, hown]
    split
    · split
      · exact h.forget hvars
      · refine h.forget fun v hv => hvars v (List.mem_of_mem_filter hv)
    · rename_i hnone
      rw [if_neg]
      · refine h.forget fun v hv => ?_
        rw [List.mem_filter] at hv ⊢
        exact ⟨hvars v hv.1, hv.2⟩
      · intro hsome
        apply hnone
        rw [List.any_eq_true] at hsome ⊢
        obtain ⟨x, hx, hp⟩ := hsome
        exact ⟨x, hbodies x hx, hp⟩

end StateLe

end Datapack.Optimize.Folding
