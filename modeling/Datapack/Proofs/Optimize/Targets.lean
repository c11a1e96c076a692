import Datapack.Proofs.Optimize.Soundness

/-!
# What jumps lead to behind edits

An instruction that edits leave in a stream moves to the place that is the number of instructions before
it that stay (`getElem?_edited`).  Where whole regions are dropped, a jump that stays leads to the same
region as before exactly when that region stays (`leadsStill_iff`).
-/

namespace Datapack.Optimize

open Ir ScopeTree Revision

/-- A name leads from the instruction with index `i` to the region `m` and, when the instructions in
`removed` are gone, to the region that opens where the opening delimiter of `m` has moved. -/
structure LeadsStill (removed : Nat → Bool) (t t' : ScopeTree) (i : Nat) (x : String) (m : Nat) : Prop where
  leads : t.resolve (t.nodeAt i) x = some m
  stays : removed (t.node m).first.toNat = false
  still : ∃ m', t'.resolve (t'.nodeAt (rank removed i)) x = some m' ∧
    (t'.node m').first = rank removed (t.node m).first.toNat

namespace Edits

variable {e : Edits} {s : Stream} {t t' : ScopeTree} {gone : Nat → Bool} {pre post : Stream}
  {ins : Instruction}

/-! ## Where instructions move -/

theorem length_after_revision {a b : Revision} (h : e.revision 0 s = a ++ b) :
    (after a).length = rank e.drop (before a).length := by
  induction a using List.reverseRecOn generalizing b with
  | nil => rfl
  | append_singleton a x ih =>
      obtain ⟨ins, o⟩ := x
      rw [List.append_assoc, List.singleton_append] at h
      have hlength := ih h
      obtain ⟨-, ho⟩ := revision_split h
      have hbefore : (before (a ++ [(ins, o)])).length = (before a).length + 1 := by
        rw [before_append, List.length_append]
        rfl
      rw [hbefore, after_append, List.length_append, hlength]
      cases hdrop : e.drop (before a).length with
      | true =>
          rw [if_pos hdrop] at ho
          rw [rank_succ_of_gone hdrop, ho]
          rfl
      | false =>
          rw [if_neg (by simp [hdrop])] at ho
          rw [rank_succ_of_kept hdrop, ho]
          rfl

/-- The revision around an instruction of the stream. -/
theorem exists_revision_split (e : Edits) (hs : s = pre ++ ins :: post) :
    ∃ a o b, e.revision 0 s = a ++ (ins, o) :: b ∧ before a = pre ∧
      (after a).length = rank e.drop pre.length ∧
      o = if e.drop pre.length then none else some ((e.replace pre.length).getD ins) := by
  obtain ⟨a, o, b, hw, rfl, rfl⟩ := exists_of_before_eq ((before_revision e 0 s).trans hs)
  exact ⟨a, o, b, hw, rfl, length_after_revision hw, (revision_split hw).2⟩

theorem edited_split {a b : Revision} {new : Instruction} (hw : e.revision 0 s = a ++ (ins, some new) :: b) :
    e.edited 0 s = after a ++ new :: after b := by
  rw [← after_revision, hw, after_append]
  rfl

/-- An instruction that stays stands, edited, behind those before it that stay. -/
theorem getElem?_edited {i : Nat} (hi : s[i]? = some ins) (hkept : e.drop i = false) :
    (e.edited 0 s)[rank e.drop i]? = some ((e.replace i).getD ins) := by
  obtain ⟨pre, post, hs, rfl⟩ := exists_split hi
  obtain ⟨a, o, b, hw, -, hlength, ho⟩ := exists_revision_split e hs
  rw [hkept, if_neg (by simp)] at ho
  subst ho
  rw [edited_split hw, ← hlength]
  simp

theorem length_edited (e : Edits) (s : Stream) : (e.edited 0 s).length = rank e.drop s.length := by
  have hlength := length_after_revision (List.append_nil (e.revision 0 s)).symm
  rwa [after_revision, before_revision] at hlength

/-! ## Where jumps lead -/

theorem renumbers (h : Thins t gone (e.revision 0 s)) (ht : ofStream s = .ok t)
    (ht' : ofStream (e.edited 0 s) = .ok t') : Renumbers gone t t' :=
  h.renumbers ((before_revision e 0 s).symm ▸ ht) ((after_revision e 0 s).symm ▸ ht')

/-- A region stays with its opening delimiter. -/
theorem drop_first (h : Thins t gone (e.revision 0 s)) (ht : ofStream s = .ok t) {m : Nat} (hm : m ∈ t.inner) :
    e.drop (t.node m).first.toNat = gone m := by
  obtain ⟨hroot, hlt⟩ := mem_inner hm
  obtain ⟨pre, b, post, hs, hop, rfl⟩ := exists_begin ht hroot hlt
  obtain ⟨a, o, rest, hw, rfl, -, ho⟩ := exists_revision_split e hs
  have hsame := h.delimiter _ _ _ _ hw (by simp [isDelimiter, hop])
  rw [Position.owner, if_pos hop, ho] at hsame
  rw [first_begin ht hs hop, Int.toNat_natCast]
  cases hdrop : e.drop (before a).length with
  | true =>
      cases hgone : gone ((Position.start.after (before a)).opened + 1) with
      | true => rfl
      | false => simp [hdrop, hgone] at hsame
  | false =>
      cases hgone : gone ((Position.start.after (before a)).opened + 1) with
      | true => simp [hdrop, hgone] at hsame
      | false => rfl

/-- A region that stays opens where its opening delimiter has moved. -/
theorem first_rank (h : Thins t gone (e.revision 0 s)) (ht : ofStream s = .ok t)
    (ht' : ofStream (e.edited 0 s) = .ok t') {m : Nat} (hm : m ∈ t.inner) (hkept : gone m = false) :
    (t'.node (rank gone m)).first = rank e.drop (t.node m).first.toNat := by
  obtain ⟨hroot, hlt⟩ := mem_inner hm
  obtain ⟨pre, b, post, hs, hop, rfl⟩ := exists_begin ht hroot hlt
  obtain ⟨a, o, rest, hw, rfl, hlength, -⟩ := exists_revision_split e hs
  have ho := h.delimiter _ _ _ _ hw (by simp [isDelimiter, hop])
  rw [Position.owner, if_pos hop, if_neg (by simp [hkept])] at ho
  subst ho
  have hfirst := first_begin ht' (edited_split hw) hop
  rw [(h.follows hw).opened] at hfirst
  rw [hfirst, hlength, first_begin ht hs hop, Int.toNat_natCast]

/-- The region of an instruction that stays is one that stays. -/
theorem nodeAt_rank (h : Thins t gone (e.revision 0 s)) (ht : ofStream s = .ok t)
    (ht' : ofStream (e.edited 0 s) = .ok t') {i : Nat} (hi : s[i]? = some ins)
    (hplain : isDelimiter ins = false) (hkept : e.drop i = false) :
    gone (t.nodeAt i) = false ∧ t'.nodeAt (rank e.drop i) = rank gone (t.nodeAt i) := by
  obtain ⟨pre, post, hs, rfl⟩ := exists_split hi
  rw [nodeAt_length ht hs, Position.owner_plain _ hplain]
  obtain ⟨a, o, b, hw, rfl, hlength, ho⟩ := exists_revision_split e hs
  rw [hkept, if_neg (by simp)] at ho
  subst ho
  have htop := h.kept_top hw hplain
  have hnew := h.plain ins ((e.replace (before a).length).getD ins) (by rw [hw]; simp) hplain
  refine ⟨htop, ?_⟩
  rw [← hlength, nodeAt_length ht' (edited_split hw), Position.owner_plain _ hnew, (h.follows hw).top htop]

theorem mem_inner_of_resolve (ht : ofStream s = .ok t) {i : Nat} (hi : s[i]? = some ins)
    (hplain : isDelimiter ins = false) {x : String} {m : Nat}
    (hm : t.resolve (t.nodeAt i) x = some m) : m ∈ t.inner := by
  obtain ⟨pre, post, hs, rfl⟩ := exists_split hi
  rw [nodeAt_length ht hs, Position.owner_plain _ hplain] at hm
  exact mem_inner_iff.2 ⟨(name_of_resolve ht hm).1, lt_of_resolve ht hs hplain hm⟩

/-- A jump that stays leads to the same region as before exactly when that region stays. -/
theorem leadsStill_iff (h : Thins t gone (e.revision 0 s)) (ht : ofStream s = .ok t)
    (ht' : ofStream (e.edited 0 s) = .ok t') {i : Nat} (hi : s[i]? = some ins)
    (hplain : isDelimiter ins = false) (hkept : e.drop i = false) {x : String} {m : Nat}
    (hm : t.resolve (t.nodeAt i) x = some m) : LeadsStill e.drop t t' i x m ↔ gone m = false := by
  have hinner := mem_inner_of_resolve ht hi hplain hm
  have hfirst := drop_first h ht hinner
  constructor
  · intro hleads
    rw [← hfirst]
    exact hleads.stays
  · intro hstays
    refine ⟨hm, hfirst.trans hstays, rank gone m, ?_, first_rank h ht ht' hinner hstays⟩
    obtain ⟨hnode, hmoved⟩ := nodeAt_rank h ht ht' hi hplain hkept
    rw [hmoved]
    exact (renumbers h ht ht').resolve hnode hstays hm

/-- Where regions go as a whole, a jump that stays leads to the same region as before unless that region is
one of them. -/
theorem leadsStill_iff_not_mem {regions : List Nat} (h : Thins t (swept t regions) (e.revision 0 s))
    (ht : ofStream s = .ok t) (ht' : ofStream (e.edited 0 s) = .ok t') {i : Nat} (hi : s[i]? = some ins)
    (hplain : isDelimiter ins = false) (hkept : e.drop i = false) {x : String} {m : Nat}
    (hm : t.resolve (t.nodeAt i) x = some m) : LeadsStill e.drop t t' i x m ↔ m ∉ regions := by
  rw [leadsStill_iff h ht ht' hi hplain hkept hm, Bool.eq_false_iff]
  refine not_congr ⟨fun hswept => ?_, fun hmem => swept_eq_true.2 ⟨m, hmem, List.mem_cons_self⟩⟩
  exact mem_of_resolve_swept ht hm (nodeAt_rank h ht ht' hi hplain hkept).1 hswept

end Edits

end Datapack.Optimize
