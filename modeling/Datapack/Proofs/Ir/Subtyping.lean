import Datapack.Proofs.Ir.Hierarchy

/-!
# Subtyping

A class is a subclass of another exactly if links lead from it to the other, on every hierarchy, with cycles
or without.  The search enters no class twice.  What keeps it complete is its frontier: from a class it has
seen, the target is still to be reached through a class it has yet to visit, or not at all.
-/

namespace Datapack.Ir.Hierarchy

open Relation

variable {h : Hierarchy} {target c d : ClassRef} {work seen : List ClassRef}

/-- Links lead from a class to another, or it is that class. -/
def Reaches (h : Hierarchy) : ClassRef → ClassRef → Prop := ReflTransGen h.Linked

/-- No class seen is the target, and every link of one leads to a class seen, to one that is yet to be
visited, or to one from which the target is not reached. -/
def Frontier (h : Hierarchy) (target : ClassRef) (work seen : List ClassRef) : Prop :=
  ∀ c ∈ seen, c ≠ target ∧ ∀ d, h.Linked c d → d ∈ seen ∨ d ∈ work ∨ ¬h.Reaches d target

theorem reaches_iff : h.Reaches c target ↔ c = target ∨ ∃ d, h.Linked c d ∧ h.Reaches d target := by
  constructor
  · intro hreach
    rcases ReflTransGen.cases_head hreach with heq | hlink
    · exact .inl heq
    · exact .inr hlink
  · rintro (rfl | ⟨d, hlink, hreach⟩)
    · exact .refl
    · exact .head hlink hreach

theorem not_linked_of_find?_eq_none (hc : h.find? c = none) (d : ClassRef) : ¬h.Linked c d := by
  rintro ⟨k, hk, -⟩
  cases hc.symm.trans hk

theorem linked_of_find? {k : ClassDecl} (hk : h.find? c = some k) : h.Linked c d ↔ d ∈ k.links := by
  rw [linked_iff, hk, Option.map_some, Option.getD_some]

namespace Frontier

theorem exists_work (hf : h.Frontier target work seen) (hc : c ∈ seen) (hreach : h.Reaches c target) :
    ∃ d ∈ work, h.Reaches d target := by
  induction hreach using ReflTransGen.head_induction_on with
  | refl => exact absurd rfl (hf target hc).1
  | @head c d hlink hrest ih =>
      rcases (hf c hc).2 d hlink with hseen | hwork | hnot
      · exact ih hseen
      · exact ⟨d, hwork, hrest⟩
      · exact absurd hrest hnot

/-- A class that has been seen, or from which the target is not reached, need not be visited. -/
theorem drop (hf : h.Frontier target (c :: work) seen) (hc : c ∈ seen ∨ ¬h.Reaches c target) :
    h.Frontier target work seen := by
  refine fun x hx => ⟨(hf x hx).1, fun d hlink => ?_⟩
  rcases (hf x hx).2 d hlink with hseen | hwork | hnot
  · exact .inl hseen
  · rcases List.mem_cons.1 hwork with rfl | hwork
    · exact hc.imp_right .inr
    · exact .inr (.inl hwork)
  · exact .inr (.inr hnot)

theorem enter {k : ClassDecl} (hf : h.Frontier target (c :: work) seen) (hne : c ≠ target)
    (hk : h.find? c = some k) : h.Frontier target (k.links ++ work) (c :: seen) := by
  intro x hx
  rcases List.mem_cons.1 hx with rfl | hx
  · refine ⟨hne, fun d hlink => .inr (.inl ?_)⟩
    exact List.mem_append_left _ ((linked_of_find? hk).1 hlink)
  · refine ⟨(hf x hx).1, fun d hlink => ?_⟩
    rcases (hf x hx).2 d hlink with hseen | hwork | hnot
    · exact .inl (List.mem_cons_of_mem _ hseen)
    · rcases List.mem_cons.1 hwork with rfl | hwork
      · exact .inl List.mem_cons_self
      · exact .inr (.inl (List.mem_append_right _ hwork))
    · exact .inr (.inr hnot)

end Frontier

/-- A search finds the target exactly if a class that is yet to be visited reaches it. -/
theorem search_iff (hf : h.Frontier target work seen) :
    h.search target work seen = true ↔ ∃ c ∈ work, h.Reaches c target := by
  fun_induction search h target work seen with
  | case1 seen => simp
  | case2 seen c work hc ih =>
      have hrest := hf.drop (.inl hc)
      rw [ih hrest, List.exists_mem_cons_iff]
      -- a class that has been seen adds nothing to the classes behind it
      exact ⟨.inr, fun hreach => hreach.elim (hrest.exists_work hc) id⟩
  | case3 seen work hc => exact iff_of_true rfl ⟨target, List.mem_cons_self, .refl⟩
  | case4 seen c work hc hne hk ih =>
      have hnot : ¬h.Reaches c target := by
        rw [reaches_iff]
        rintro (heq | ⟨d, hlink, -⟩)
        · exact hne heq
        · exact not_linked_of_find?_eq_none hk d hlink
      rw [ih (hf.drop (.inr hnot)), List.exists_mem_cons_iff, or_iff_right hnot]
  | case5 seen c work hc hne k hk ih =>
      have hlinks : h.Reaches c target ↔ ∃ d ∈ k.links, h.Reaches d target := by
        rw [reaches_iff, or_iff_right hne]
        simp only [linked_of_find? hk]
      rw [ih (hf.enter hne hk), List.exists_mem_cons_iff, hlinks]
      simp only [List.mem_append, or_and_right, exists_or]

theorem isSubclass_iff : h.isSubclass c d = true ↔ h.Reaches c d := by
  have hstart : h.Frontier d [c] [] := List.forall_mem_nil _
  rw [isSubclass, search_iff hstart, List.exists_mem_cons_iff]
  simp

/-- Nothing but a value of the type itself, a boolean for an integer, null for an object, or an object of a
subclass is accepted. -/
theorem accepts_iff {dst src : Ty} :
    h.accepts dst src = true ↔ src = dst ∨ (dst = .data .int ∧ src = .data .boolean) ∨
      ∃ d, dst = .object d ∧ (src = .data .null ∨ ∃ c, src = .object c ∧ h.Reaches c d) := by
  cases dst with
  | data d =>
      cases src with
      | data s => simp [accepts, @eq_comm _ d s]
      | object s => simp [accepts]
  | object d =>
      cases src with
      | data s => simp [accepts]
      | object s =>
          simp only [accepts, isSubclass_iff, Ty.object.injEq, reduceCtorEq, false_and, false_or]
          constructor
          · exact fun hreach => .inr ⟨d, rfl, s, rfl, hreach⟩
          · rintro (rfl | ⟨_, rfl, _, rfl, hreach⟩)
            · exact .refl
            · exact hreach

theorem accepts_trans {r s t : Ty} (hrs : h.accepts r s = true) (hst : h.accepts s t = true) :
    h.accepts r t = true := by
  rw [accepts_iff] at *
  rcases hst with rfl | ⟨rfl, rfl⟩ | ⟨c, rfl, ht⟩
  · exact hrs
  · rcases hrs with rfl | ⟨-, hs⟩ | ⟨d, -, hs | ⟨c, hs, -⟩⟩
    · exact .inr (.inl ⟨rfl, rfl⟩)
    all_goals cases hs
  · -- an object type stands only below an object type
    obtain ⟨d, rfl, hcd⟩ : ∃ d, r = .object d ∧ h.Reaches c d := by
      rcases hrs with rfl | ⟨-, hs⟩ | ⟨d, rfl, hs | ⟨c', hs, hreach⟩⟩
      · exact ⟨c, rfl, .refl⟩
      · cases hs
      · cases hs
      · cases hs
        exact ⟨d, rfl, hreach⟩
    refine .inr (.inr ⟨d, rfl, ht.imp_right ?_⟩)
    rintro ⟨b, rfl, hbc⟩
    exact ⟨b, rfl, hbc.trans hcd⟩

/-- On every hierarchy, whatever cycles its links form, the search for a subclass decides whether links lead
from one class to the other.  Accepting values is therefore reflexive and transitive on the primitive types
and the classes; an integer accepts a boolean, and every class null. -/
theorem isSubclass_iff_reaches_accepts_preorder (h : Hierarchy) :
    (∀ c d, h.isSubclass c d = true ↔ ReflTransGen h.Linked c d) ∧
      (∀ t, h.accepts t t = true) ∧
      (∀ r s t, h.accepts r s = true → h.accepts s t = true → h.accepts r t = true) ∧
      h.accepts (.data .int) (.data .boolean) = true ∧
      ∀ c, h.accepts (.object c) (.data .null) = true := by
  refine ⟨fun c d => isSubclass_iff, fun t => accepts_iff.2 (.inl rfl), fun r s t => accepts_trans, ?_, ?_⟩
  · exact accepts_iff.2 (.inr (.inl ⟨rfl, rfl⟩))
  · exact fun c => accepts_iff.2 (.inr (.inr ⟨c, rfl, .inl rfl⟩))

/-- A class that extends one class and implements another, each of which leads to a third. From that one
links lead back to the first of the two, and from the second to the class itself. -/
def cyclicDiamond : Hierarchy :=
  [{ ref := ⟨"0", "Crate"⟩, parent := some ⟨"1", "Box"⟩, interfaces := [⟨"2", "Open"⟩] },
    { ref := ⟨"1", "Box"⟩, parent := some ⟨"3", "Thing"⟩ },
    { ref := ⟨"2", "Open"⟩, interfaces := [⟨"0", "Crate"⟩, ⟨"3", "Thing"⟩], isInterface := true },
    { ref := ⟨"3", "Thing"⟩, parent := some ⟨"1", "Box"⟩ }]

theorem isSubclass_iff_reaches_accepts_preorder_cyclicDiamond :
    ReflTransGen cyclicDiamond.Linked ⟨"2", "Open"⟩ ⟨"1", "Box"⟩ ∧
      ¬ReflTransGen cyclicDiamond.Linked ⟨"3", "Thing"⟩ ⟨"2", "Open"⟩ ∧
      cyclicDiamond.accepts (.object ⟨"1", "Box"⟩) (.object ⟨"0", "Crate"⟩) = true := by
  obtain ⟨hreach, -, htrans, -⟩ := isSubclass_iff_reaches_accepts_preorder cyclicDiamond
  have hthere : cyclicDiamond.accepts (.object ⟨"3", "Thing"⟩) (.object ⟨"0", "Crate"⟩) = true := by cbv
  have hback : cyclicDiamond.accepts (.object ⟨"1", "Box"⟩) (.object ⟨"3", "Thing"⟩) = true := by cbv
  have happart : cyclicDiamond.isSubclass ⟨"3", "Thing"⟩ ⟨"2", "Open"⟩ = false := by cbv
  refine ⟨(hreach _ _).1 (by cbv), fun h => ?_, htrans _ _ _ hback hthere⟩
  exact Bool.false_ne_true (happart.symm.trans ((hreach _ _).2 h))

end Datapack.Ir.Hierarchy
