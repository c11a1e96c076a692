import Mathlib.Data.Nat.Count
import Datapack.Proofs.Ir.Spans

/-!
# Thinned streams

A revision pairs every instruction of a stream with what stands in its place, if anything does.  Where
regions go as a whole or not at all, the scope tree of what is left is the old one without the regions
that went: a region that stays is numbered by its rank among those that stay, it keeps its name, its
kind and the regions around it, and a name that led to it still does.
-/

namespace Datapack.Ir

/-- Every instruction of a stream with what stands in its place. -/
abbrev Revision := List (Instruction × Option Instruction)

namespace Revision

/-- The stream that is revised. -/
def before (w : Revision) : Stream := w.map Prod.fst

/-- The stream that comes out. -/
def after (w : Revision) : Stream := w.filterMap Prod.snd

theorem before_append (a b : Revision) : before (a ++ b) = before a ++ before b := List.map_append

theorem after_append (a b : Revision) : after (a ++ b) = after a ++ after b := List.filterMap_append

theorem exists_of_before_eq {w : Revision} {pre post : Stream} {ins : Instruction}
    (h : before w = pre ++ ins :: post) :
    ∃ a o b, w = a ++ (ins, o) :: b ∧ before a = pre ∧ before b = post := by
  obtain ⟨a, c, rfl, ha, hc⟩ := List.map_eq_append_iff.1 h
  obtain ⟨⟨ins', o⟩, b, rfl, rfl, hb⟩ := List.map_eq_cons_iff.1 hc
  exact ⟨a, o, b, rfl, ha, hb⟩

theorem exists_pair_of_before_eq {w : Revision} {pre post : Stream} {x y : Instruction}
    (h : before w = pre ++ x :: y :: post) :
    ∃ a o o' b, w = a ++ (x, o) :: (y, o') :: b ∧ before a = pre ∧ before b = post := by
  obtain ⟨a, o, c, rfl, ha, hc⟩ := exists_of_before_eq h
  obtain ⟨⟨y', o'⟩, b, rfl, rfl, hb⟩ := List.map_eq_cons_iff.1 hc
  exact ⟨a, o, o', b, rfl, ha, hb⟩

theorem exists_of_after_eq {w : Revision} {pre post : Stream} {new : Instruction}
    (h : after w = pre ++ new :: post) :
    ∃ a ins b, w = a ++ (ins, some new) :: b ∧ after a = pre ∧ after b = post := by
  obtain ⟨a, c, rfl, rfl, hc⟩ := List.filterMap_eq_append_iff.1 h
  obtain ⟨c, ⟨ins, o⟩, b, rfl, hnone, hnew, rfl⟩ := List.filterMap_eq_cons_iff.1 hc
  simp only at hnew
  subst hnew
  refine ⟨a ++ c, ins, b, by simp, ?_, rfl⟩
  have hc' : after c = [] := List.filterMap_eq_nil_iff.2 hnone
  rw [after_append, hc', List.append_nil]
  rfl

end Revision

open Revision ScopeTree

/-- The place of a region among those that stay. -/
def rank (gone : Nat → Bool) (n : Nat) : Nat := Nat.count (gone · = false) n

section Rank

variable {gone : Nat → Bool} {m n : Nat}

theorem rank_succ_of_gone (h : gone n = true) : rank gone (n + 1) = rank gone n := by
  rw [rank, Nat.count_succ, if_neg (by simp [h]), Nat.add_zero]
  rfl

theorem rank_succ_of_kept (h : gone n = false) : rank gone (n + 1) = rank gone n + 1 := by
  rw [rank, Nat.count_succ, if_pos h]
  rfl

theorem rank_inj (hm : gone m = false) (hn : gone n = false) (h : rank gone m = rank gone n) : m = n :=
  Nat.count_injective (p := (gone · = false)) hm hn h

theorem lt_of_rank_lt (h : rank gone m < rank gone n) : m < n := Nat.lt_of_count_lt_count h

theorem rank_le_rank (h : m ≤ n) : rank gone m ≤ rank gone n := Nat.count_monotone _ h

/-- Every number up to the rank of a region is the rank of one that stays. -/
theorem exists_rank_eq (h : m < rank gone n) : ∃ k < n, gone k = false ∧ rank gone k = m := by
  induction n with
  | zero => exact absurd h (Nat.not_lt_zero m)
  | succ n ih =>
      cases hn : gone n with
      | true =>
          rw [rank_succ_of_gone hn] at h
          obtain ⟨k, hk, hkept⟩ := ih h
          exact ⟨k, Nat.lt_succ_of_lt hk, hkept⟩
      | false =>
          rw [rank_succ_of_kept hn] at h
          by_cases hlast : m = rank gone n
          · exact ⟨n, Nat.lt_succ_self n, hn, hlast.symm⟩
          · obtain ⟨k, hk, hkept⟩ := ih (by omega)
            exact ⟨k, Nat.lt_succ_of_lt hk, hkept⟩

end Rank

/-! ## Regions that go as a whole -/

/-- The position behind the revision: of the open regions those that stay, under their new numbers. -/
structure Follows (gone : Nat → Bool) (p p' : Position) : Prop where
  stack : p'.stack = (p.stack.filter (!gone ·)).map (rank gone)
  opened : p'.opened + 1 = rank gone (p.opened + 1)

namespace Follows

variable {gone : Nat → Bool} {p p' : Position} {ins : Instruction}

theorem start (h : gone root = false) : Follows gone .start .start := by
  have hrank : rank gone root = 0 := rfl
  refine ⟨?_, ?_⟩
  · show [root] = ([root].filter (!gone ·)).map (rank gone)
    rw [List.filter_cons_of_pos (by simp [h]), List.filter_nil, List.map_singleton, hrank]
    rfl
  · show 1 = rank gone (root + 1)
    rw [rank_succ_of_kept h, hrank]

theorem begin_gone (h : Follows gone p p') (hop : ins.op = .scopeBegin)
    (hgone : gone (p.opened + 1) = true) : Follows gone (p.advance ins) p' := by
  rw [Position.advance_begin p hop]
  refine ⟨?_, ?_⟩
  · rw [List.filter_cons_of_neg (by simp [hgone]), h.stack]
  · rw [rank_succ_of_gone hgone, h.opened]

theorem begin_kept (h : Follows gone p p') (hop : ins.op = .scopeBegin)
    (hkept : gone (p.opened + 1) = false) : Follows gone (p.advance ins) (p'.advance ins) := by
  rw [Position.advance_begin p hop, Position.advance_begin p' hop]
  refine ⟨?_, ?_⟩
  · rw [List.filter_cons_of_pos (by simp [hkept]), List.map_cons, h.stack, h.opened]
  · rw [rank_succ_of_kept hkept, h.opened]

theorem end_gone (h : Follows gone p p') (hop : ins.op = .scopeEnd) (hroot : gone root = false)
    (hgone : gone p.top = true) : Follows gone (p.advance ins) p' := by
  rw [Position.advance_end p hop]
  refine ⟨?_, h.opened⟩
  unfold Position.top at hgone
  have hstack := h.stack
  cases hp : p.stack with
  | nil =>
      rw [hp, List.headD_nil, hroot] at hgone
      exact Bool.noConfusion hgone
  | cons n rest =>
      rw [hp, List.headD_cons] at hgone
      rwa [hp, List.filter_cons_of_neg (by simp [hgone])] at hstack

theorem end_kept (h : Follows gone p p') (hop : ins.op = .scopeEnd) (hkept : gone p.top = false) :
    Follows gone (p.advance ins) (p'.advance ins) := by
  rw [Position.advance_end p hop, Position.advance_end p' hop]
  refine ⟨?_, h.opened⟩
  unfold Position.top at hkept
  have hstack := h.stack
  cases hp : p.stack with
  | nil =>
      rw [hp] at hstack
      simp [hstack]
  | cons n rest =>
      rw [hp, List.headD_cons] at hkept
      rw [hp, List.filter_cons_of_pos (by simp [hkept]), List.map_cons] at hstack
      rw [hstack]
      rfl

theorem top (h : Follows gone p p') (hkept : gone p.top = false) : p'.top = rank gone p.top := by
  unfold Position.top at hkept ⊢
  have hstack := h.stack
  cases hp : p.stack with
  | nil =>
      rw [hp] at hstack
      rw [hstack]
      rfl
  | cons n rest =>
      rw [hp, List.headD_cons] at hkept
      rw [hp, List.filter_cons_of_pos (by simp [hkept]), List.map_cons] at hstack
      rw [hstack]
      rfl

end Follows

/-- A revision of a stream that drops the regions in `gone`, each with everything in it. -/
structure Thins (t : ScopeTree) (gone : Nat → Bool) (w : Revision) : Prop where
  root : gone root = false
  inherits : ∀ n q, q ∈ (t.node n).outer → gone q = true → gone n = true
  delimiter : ∀ a ins o b, w = a ++ (ins, o) :: b → isDelimiter ins = true →
    o = if gone ((Position.start.after (before a)).owner ins) then none else some ins
  inside : ∀ a ins o b, w = a ++ (ins, o) :: b →
    gone ((Position.start.after (before a)).owner ins) = true → o = none
  plain : ∀ ins new, (ins, some new) ∈ w → isDelimiter ins = false → isDelimiter new = false

namespace Thins

variable {t t' : ScopeTree} {gone : Nat → Bool} {w : Revision}

theorem follows (h : Thins t gone w) {a b : Revision} (hw : w = a ++ b) :
    Follows gone (Position.start.after (before a)) (Position.start.after (after a)) := by
  induction a using List.reverseRecOn generalizing b with
  | nil => exact .start h.root
  | append_singleton a x ih =>
      obtain ⟨ins, o⟩ := x
      rw [List.append_assoc, List.singleton_append] at hw
      have hfollows := ih hw
      have hdelimiter := h.delimiter a ins o b hw
      rw [before_append, after_append, Position.after_append, Position.after_append]
      show Follows gone ((Position.start.after (before a)).advance ins) _
      rcases ins.delimiter_cases with hop | hop | ⟨hb, he⟩
      · have ho := hdelimiter (by simp [isDelimiter, hop])
        rw [Position.owner, if_pos hop] at ho
        split at ho
        · next hgone =>
            subst ho
            exact hfollows.begin_gone hop hgone
        · next hkept =>
            subst ho
            exact hfollows.begin_kept hop (by simpa using hkept)
      · have ho := hdelimiter (by simp [isDelimiter, hop])
        have hnb : ins.op ≠ .scopeBegin := by simp [hop]
        rw [Position.owner, if_neg hnb] at ho
        split at ho
        · next hgone =>
            subst ho
            exact hfollows.end_gone hop h.root hgone
        · next hkept =>
            subst ho
            exact hfollows.end_kept hop (by simpa [Position.top] using hkept)
      · have hplain : isDelimiter ins = false := isDelimiter_eq_false.2 ⟨hb, he⟩
        rw [Position.advance_plain _ hplain]
        cases o with
        | none => exact hfollows
        | some new =>
            have hnew := h.plain ins new (by simp [hw]) hplain
            show Follows gone _ ((Position.start.after (after a)).advance new)
            rw [Position.advance_plain _ hnew]
            exact hfollows

theorem kept_top (h : Thins t gone w) {a b : Revision} {ins new : Instruction}
    (hw : w = a ++ (ins, some new) :: b) (hplain : isDelimiter ins = false) :
    gone (Position.start.after (before a)).top = false := by
  cases hgone : gone (Position.start.after (before a)).top with
  | false => rfl
  | true =>
      have hnone := h.inside a ins (some new) b hw (by rw [Position.owner_plain _ hplain, hgone])
      exact absurd hnone (by simp)

end Thins

/-! ## The tree of what is left -/

/-- A tree without the regions in `gone`. -/
structure Renumbers (gone : Nat → Bool) (t t' : ScopeTree) : Prop where
  root : gone root = false
  inherits : ∀ n q, q ∈ (t.node n).outer → gone q = true → gone n = true
  length : t'.nodes.length = rank gone t.nodes.length
  sig : ∀ n, gone n = false → (t'.node (rank gone n)).sig =
    ((t.node n).name, (t.node n).kind, (t.node n).outer.map (rank gone))

theorem sig_root {s : Stream} {t : ScopeTree} (h : ofStream s = .ok t) :
    (t.node root).sig = ("", .global, []) := by
  have hsig := congrArg (·[0]?) (ofStream_sig h)
  simp only [List.getElem?_map, List.getElem?_cons_zero] at hsig
  obtain ⟨r, hr, hrsig⟩ := Option.map_eq_some_iff.1 hsig
  rw [node, root, hr]
  exact hrsig

theorem Thins.renumbers {t t' : ScopeTree} {gone : Nat → Bool} {w : Revision} (h : Thins t gone w)
    (ht : ofStream (before w) = .ok t) (ht' : ofStream (after w) = .ok t') : Renumbers gone t t' := by
  have hlength : t'.nodes.length = rank gone t.nodes.length := by
    rw [length_nodes ht, length_nodes ht']
    exact (h.follows (List.append_nil w).symm).opened
  refine ⟨h.root, h.inherits, hlength, fun n hkept => ?_⟩
  by_cases hroot : n = ScopeTree.root
  · subst hroot
    rw [show rank gone ScopeTree.root = ScopeTree.root from rfl, sig_root ht']
    obtain ⟨hname, hkind, houter⟩ : (t.node ScopeTree.root).name = "" ∧
        (t.node ScopeTree.root).kind = .global ∧ (t.node ScopeTree.root).outer = [] := by
      simpa [ScopeNode.sig] using sig_root ht
    rw [hname, hkind, houter, List.map_nil]
  · by_cases hlt : n < t.nodes.length
    · obtain ⟨pre, ins, post, hs, hop, rfl⟩ := exists_begin ht hroot hlt
      obtain ⟨a, o, b, hw, rfl, rfl⟩ := exists_of_before_eq hs
      have ho := h.delimiter a ins o b hw (by simp [isDelimiter, hop])
      rw [Position.owner, if_pos hop, hkept, if_neg (by simp)] at ho
      subst ho
      have hs' : after w = after a ++ ins :: after b := by
        rw [hw, after_append]
        rfl
      have hsig := sig_node_begin ht hs hop
      have hsig' := sig_node_begin ht' hs' hop
      have hfollows := h.follows hw
      -- what is around a region that stays stays
      have hall : (Position.start.after (before a)).stack.filter (!gone ·) =
          (Position.start.after (before a)).stack := by
        rw [List.filter_eq_self]
        intro q hq
        cases hgone : gone q with
        | false => rfl
        | true =>
            have hmem : q ∈ (t.node ((Position.start.after (before a)).opened + 1)).outer := by
              rw [show (t.node _).outer = _ from congrArg (·.2.2) hsig]
              exact hq
            rw [h.inherits _ q hmem hgone] at hkept
            exact Bool.noConfusion hkept
      rw [hfollows.opened, hfollows.stack, hall] at hsig'
      rw [hsig']
      simp only [ScopeNode.sig, Prod.mk.injEq] at hsig
      rw [hsig.1, hsig.2.1, hsig.2.2]
    · have hle : t'.nodes.length ≤ rank gone n := by
        rw [hlength]
        exact rank_le_rank (Nat.le_of_not_lt hlt)
      rw [node_of_length_le hle, node_of_length_le (Nat.le_of_not_lt hlt)]
      rfl

namespace Renumbers

variable {t t' : ScopeTree} {gone : Nat → Bool} {m n q : Nat}

theorem name (h : Renumbers gone t t') (hn : gone n = false) :
    (t'.node (rank gone n)).name = (t.node n).name := congrArg (·.1) (h.sig n hn)

theorem kind (h : Renumbers gone t t') (hn : gone n = false) :
    (t'.node (rank gone n)).kind = (t.node n).kind := congrArg (·.2.1) (h.sig n hn)

theorem outer (h : Renumbers gone t t') (hn : gone n = false) :
    (t'.node (rank gone n)).outer = (t.node n).outer.map (rank gone) := congrArg (·.2.2) (h.sig n hn)

theorem ancestors (h : Renumbers gone t t') (hn : gone n = false) :
    t'.ancestors (rank gone n) = (t.ancestors n).map (rank gone) := by
  rw [ScopeTree.ancestors, h.outer hn]
  rfl

theorem kept_of_mem_ancestors (h : Renumbers gone t t') (hn : gone n = false)
    (hm : m ∈ t.ancestors n) : gone m = false := by
  rcases List.mem_cons.1 hm with rfl | hm
  · exact hn
  · cases hgone : gone m with
    | false => rfl
    | true =>
        rw [h.inherits n m hm hgone] at hn
        exact Bool.noConfusion hn

theorem rank_eq_root_iff (h : Renumbers gone t t') (hn : gone n = false) :
    rank gone n = ScopeTree.root ↔ n = ScopeTree.root := by
  constructor
  · exact fun hrank => rank_inj hn h.root hrank
  · rintro rfl
    rfl

/-- A search through the surroundings of a region finds the same region as before. -/
theorem find?_ancestors (h : Renumbers gone t t') (hn : gone n = false) {f f' : Nat → Bool}
    (hf : ∀ m, gone m = false → f' (rank gone m) = f m) :
    (t'.ancestors (rank gone n)).find? f' = ((t.ancestors n).find? f).map (rank gone) := by
  rw [h.ancestors hn, List.find?_map]
  congr 1
  have hall := fun m => h.kept_of_mem_ancestors hn (m := m)
  generalize t.ancestors n = around at *
  induction around with
  | nil => rfl
  | cons m around ih =>
      have hm := hf m (hall m List.mem_cons_self)
      have hrest := ih fun k hk => hall k (List.mem_cons_of_mem m hk)
      rw [List.find?_cons, List.find?_cons, hrest, Function.comp_apply, hm]

theorem enclosing (h : Renumbers gone t t') (hn : gone n = false) (kinds : List ScopeKind) :
    t'.enclosing (rank gone n) kinds = (t.enclosing n kinds).map (rank gone) := by
  refine h.find?_ancestors hn fun m hm => ?_
  rw [h.kind hm]

theorem parent_eq_iff (h : Renumbers gone t t') (hm : gone m = false) (hn : gone n = false) :
    (t'.node (rank gone m)).parent? = some (rank gone n) ↔ (t.node m).parent? = some n := by
  rw [ScopeNode.parent?, h.outer hm, List.head?_map, ScopeNode.parent?]
  cases hhead : (t.node m).outer.head? with
  | none => simp
  | some q =>
      have hq : gone q = false :=
        h.kept_of_mem_ancestors hm (List.mem_cons_of_mem m (List.mem_of_mem_head? hhead))
      rw [Option.map_some, Option.some_inj, Option.some_inj]
      exact ⟨rank_inj hq hn, congrArg _⟩

end Renumbers

/-- A search through the regions directly inside one finds the first that opens. -/
theorem find?_children_eq_some {t : ScopeTree} {n k : Nat} {f : Nat → Bool} :
    (t.children n).find? f = some k ↔
      k < t.nodes.length ∧ (t.node k).parent? = some n ∧ f k = true ∧
        ∀ m < k, (t.node m).parent? = some n → f m = false := by
  rw [children, List.find?_filter, List.find?_range_eq_some, List.mem_range]
  constructor
  · rintro ⟨hk, hlt, hleast⟩
    simp only [decide_eq_true_eq] at hk
    refine ⟨hlt, hk.1, hk.2, fun m hm hparent => ?_⟩
    simpa [hparent] using hleast m hm
  · rintro ⟨hlt, hparent, hk, hleast⟩
    refine ⟨by simp [hparent, hk], hlt, fun m hm => ?_⟩
    by_cases hm' : (t.node m).parent? = some n
    · simp [hleast m hm hm']
    · simp [hm']

namespace Renumbers

variable {t t' : ScopeTree} {gone : Nat → Bool} {k n : Nat} {x : String}

theorem rank_lt (h : Renumbers gone t t') (hn : gone n = false) (hlt : n < t.nodes.length) :
    rank gone n < t'.nodes.length := by
  rw [h.length]
  exact Nat.count_strict_mono (p := (gone · = false)) hn hlt

theorem mem_children (h : Renumbers gone t t') (hn : gone n = false) (hk : gone k = false)
    (hmem : k ∈ t.children n) : rank gone k ∈ t'.children (rank gone n) := by
  obtain ⟨hlt, hparent⟩ := ScopeTree.mem_children.1 hmem
  exact ScopeTree.mem_children.2 ⟨h.rank_lt hk hlt, (h.parent_eq_iff hk hn).2 hparent⟩

theorem find?_children (h : Renumbers gone t t') (hn : gone n = false) (hk : gone k = false)
    (hfind : (t.children n).find? (fun c => (t.node c).name = x) = some k) :
    (t'.children (rank gone n)).find? (fun c => (t'.node c).name = x) = some (rank gone k) := by
  rw [find?_children_eq_some] at hfind ⊢
  obtain ⟨hlt, hparent, hname, hleast⟩ := hfind
  refine ⟨h.rank_lt hk hlt, (h.parent_eq_iff hk hn).2 hparent, ?_, fun m hm hmparent => ?_⟩
  · rwa [h.name hk]
  · obtain ⟨m, -, hmkept, rfl⟩ := exists_rank_eq hm
    rw [h.name hmkept]
    exact hleast m (lt_of_rank_lt hm) ((h.parent_eq_iff hmkept hn).1 hmparent)

theorem find?_children_none (h : Renumbers gone t t') (hn : gone n = false)
    (hfind : (t.children n).find? (fun c => (t.node c).name = x) = none) :
    (t'.children (rank gone n)).find? (fun c => (t'.node c).name = x) = none := by
  rw [List.find?_eq_none] at hfind ⊢
  intro c hc
  obtain ⟨hlt, hparent⟩ := ScopeTree.mem_children.1 hc
  rw [h.length] at hlt
  obtain ⟨m, hm, hkept, rfl⟩ := exists_rank_eq hlt
  rw [h.name hkept]
  exact hfind m (ScopeTree.mem_children.2 ⟨hm, (h.parent_eq_iff hkept hn).1 hparent⟩)

/-- A name that leads to a region that stays leads there still. -/
theorem resolve (h : Renumbers gone t t') (hn : gone n = false) (hk : gone k = false)
    (hresolve : t.resolve n x = some k) : t'.resolve (rank gone n) x = some (rank gone k) := by
  have haround : ((t'.ancestors (rank gone n)).find? fun m => m ≠ ScopeTree.root && (t'.node m).name = x) =
      ((t.ancestors n).find? fun m => m ≠ ScopeTree.root && (t.node m).name = x).map (rank gone) := by
    refine h.find?_ancestors hn fun m hm => ?_
    simp only [h.name hm, h.rank_eq_root_iff hm, ne_eq]
  rw [ScopeTree.resolve] at hresolve ⊢
  rw [haround]
  cases hfind : (t.ancestors n).find? fun m => m ≠ ScopeTree.root && (t.node m).name = x with
  | some m =>
      rw [hfind] at hresolve
      obtain rfl := Option.some.inj hresolve
      rfl
  | none =>
      rw [hfind] at hresolve
      simp only [Option.map_none] at hresolve ⊢
      obtain ⟨front, m, rest, hsplit, hm, hfront⟩ := List.findSome?_eq_some_iff.1 hresolve
      have hkept : ∀ q, q ∈ front ++ m :: rest → gone q = false := by
        rw [← hsplit]
        exact fun q => h.kept_of_mem_ancestors hn
      rw [h.ancestors hn, hsplit, List.map_append, List.map_cons, List.findSome?_append]
      have hnone : (front.map (rank gone)).findSome?
          (fun q => (t'.children q).find? fun c => (t'.node c).name = x) = none := by
        rw [List.findSome?_eq_none_iff]
        intro q' hq'
        obtain ⟨q, hq, rfl⟩ := List.mem_map.1 hq'
        exact h.find?_children_none (hkept q (List.mem_append_left _ hq)) (hfront q hq)
      rw [hnone, Option.none_or, List.findSome?_cons,
        h.find?_children (hkept m (by simp)) hk hm]

end Renumbers

end Datapack.Ir
