import Datapack.Ir.Hierarchy
import Datapack.Proofs.Except
import Mathlib.Data.List.Perm.Subperm
import Mathlib.Logic.Relation

/-!
# Classes without cycles

The depth-first walk that looks for cycles lists a class after the classes it links to.  In such a list no
class reaches itself, so a hierarchy on which the walk succeeds has no cycle below its start.  The walk
never runs out of fuel: the classes being visited are different declared ones.
-/

namespace Datapack.Ir.Hierarchy

open Relation

variable {h : Hierarchy}

/-- The first class has the second as its parent or among its interfaces. -/
def Linked (h : Hierarchy) (c d : ClassRef) : Prop := ∃ k, h.find? c = some k ∧ d ∈ k.links

theorem linked_iff {c d : ClassRef} :
    h.Linked c d ↔ d ∈ ((h.find? c).map ClassDecl.links).getD [] := by
  unfold Linked
  cases h.find? c <;> simp

theorem ref_of_find? {c : ClassRef} {k : ClassDecl} (hk : h.find? c = some k) : k ∈ h ∧ k.ref = c := by
  refine ⟨List.mem_of_find?_eq_some hk, ?_⟩
  have href := List.find?_some (p := fun k : ClassDecl => decide (k.ref = c)) hk
  exact of_decide_eq_true href

theorem Linked.declared {c d : ClassRef} (hlink : h.Linked c d) : c ∈ h.map ClassDecl.ref := by
  obtain ⟨k, hk, -⟩ := hlink
  exact List.mem_map.2 ⟨k, ref_of_find? hk⟩

/-- Every class of a list links only to classes behind it, and is there once. -/
inductive Layered (h : Hierarchy) : List ClassRef → Prop
  | nil : Layered h []
  | cons {c : ClassRef} {rest : List ClassRef} (hlinks : ∀ d, h.Linked c d → d ∈ rest) (hnew : c ∉ rest)
      (hrest : Layered h rest) : Layered h (c :: rest)

namespace Layered

theorem mem_of_linked {classes : List ClassRef} (hl : h.Layered classes) {c d : ClassRef}
    (hc : c ∈ classes) (hlink : h.Linked c d) : d ∈ classes := by
  induction hl with
  | nil => exact absurd hc List.not_mem_nil
  | cons hlinks hnew _ ih =>
      rcases List.mem_cons.1 hc with rfl | hc
      · exact List.mem_cons_of_mem _ (hlinks d hlink)
      · exact List.mem_cons_of_mem _ (ih hc)

theorem mem_of_reaches {classes : List ClassRef} (hl : h.Layered classes) {c d : ClassRef}
    (hc : c ∈ classes) (hreach : ReflTransGen h.Linked c d) : d ∈ classes := by
  induction hreach with
  | refl => exact hc
  | tail _ hlink ih => exact hl.mem_of_linked ih hlink

theorem not_reaches_self {classes : List ClassRef} (hl : h.Layered classes) {c : ClassRef}
    (hc : c ∈ classes) : ¬ TransGen h.Linked c c := by
  induction hl with
  | nil => exact absurd hc List.not_mem_nil
  | cons hlinks hnew hrest ih =>
      rcases List.mem_cons.1 hc with rfl | hc
      · intro hcycle
        obtain ⟨d, hlink, hback⟩ := TransGen.head'_iff.1 hcycle
        exact hnew (hrest.mem_of_reaches (hlinks d hlink) hback)
      · exact ih hc

end Layered

/-- What a walk keeps: the classes it has finished are layered, those it is visiting are different declared
ones, and none is both. -/
structure Walks (h : Hierarchy) (path finished : List ClassRef) : Prop where
  layered : h.Layered finished
  distinct : path.Nodup
  declared : path ⊆ h.map ClassDecl.ref
  apart : ∀ c ∈ path, c ∉ finished

namespace Walks

variable {path finished after : List ClassRef} {c d : ClassRef}

theorem start : h.Walks [] [] := ⟨.nil, .nil, List.nil_subset _, List.forall_mem_nil _⟩

theorem enter (hw : h.Walks path finished) (hlink : h.Linked c d) (hpath : c ∉ path)
    (hfinished : c ∉ finished) : h.Walks (c :: path) finished where
  layered := hw.layered
  distinct := List.nodup_cons.2 ⟨hpath, hw.distinct⟩
  declared := List.cons_subset.2 ⟨hlink.declared, hw.declared⟩
  apart := List.forall_mem_cons.2 ⟨hfinished, hw.apart⟩

theorem leave (hw : h.Walks (c :: path) finished) : h.Walks path finished where
  layered := hw.layered
  distinct := (List.nodup_cons.1 hw.distinct).2
  declared := (List.cons_subset.1 hw.declared).2
  apart := (List.forall_mem_cons.1 hw.apart).2

theorem finish (hw : h.Walks path finished) (hlinks : ∀ d, h.Linked c d → d ∈ finished) (hpath : c ∉ path)
    (hfinished : c ∉ finished) : h.Walks path (c :: finished) where
  layered := .cons hlinks hfinished hw.layered
  distinct := hw.distinct
  declared := hw.declared
  apart := by
    intro x hx
    refine List.not_mem_cons_of_ne_of_not_mem ?_ (hw.apart x hx)
    rintro rfl
    exact hpath hx

/-- A visit that succeeds adds its class and keeps what was finished. -/
theorem visit {fuel : Nat} (hw : h.Walks path finished) (hfuel : h.length + 2 ≤ fuel + path.length)
    (hvisit : h.visit fuel path finished c = .ok after) :
    h.Walks path after ∧ finished ⊆ after ∧ c ∈ after := by
  induction fuel generalizing path finished after c with
  | zero =>
      -- the classes being visited are too few for the fuel to be used up
      have hle := (List.subperm_of_subset hw.distinct hw.declared).length_le
      rw [List.length_map] at hle
      omega
  | succ fuel ih =>
      unfold Hierarchy.visit at hvisit
      split at hvisit
      · exact nomatch hvisit
      split at hvisit
      · next hdone =>
          obtain rfl := Except.ok.inj hvisit
          exact ⟨hw, List.Subset.refl _, hdone⟩
      · next hpath hdone =>
          obtain ⟨linked, hfold, hvisit⟩ := bind_eq_ok_iff.1 hvisit
          obtain rfl := pure_eq_ok_iff.1 hvisit
          obtain ⟨hwalks, hkept, hnew, hlinks⟩ := foldlM_induction
            (P := fun links done => h.Walks path done ∧ finished ⊆ done ∧ c ∉ done ∧ links ⊆ done)
            hfold ⟨hw, List.Subset.refl _, hdone, List.nil_subset _⟩ (by
              rintro links d done next hd ⟨hwalks, hkept, hnew, hlinks⟩ hstep
              obtain ⟨hwalks', hgrown, hmem⟩ := ih (hwalks.enter (linked_iff.2 hd) hpath hnew)
                (by rw [List.length_cons]; omega) hstep
              refine ⟨hwalks'.leave, List.Subset.trans hkept hgrown, hwalks'.apart c List.mem_cons_self, ?_⟩
              exact List.append_subset.2
                ⟨List.Subset.trans hlinks hgrown, List.cons_subset.2 ⟨hmem, List.nil_subset _⟩⟩)
          refine ⟨hwalks.finish ?_ hpath hnew, ?_, List.mem_cons_self⟩
          · exact fun d hlink => hlinks (linked_iff.1 hlink)
          · exact List.Subset.trans hkept (List.subset_cons_self c linked)

end Walks

theorem not_reaches_cycle_of_acyclic {c d : ClassRef} (hc : h.acyclic c = .ok ())
    (hreach : ReflTransGen h.Linked c d) : ¬ TransGen h.Linked d d := by
  obtain ⟨finished, hvisit, -⟩ := map_eq_ok_iff.1 hc
  obtain ⟨hwalks, -, hmem⟩ := Walks.start.visit (by simp) hvisit
  exact hwalks.layered.not_reaches_self (hwalks.layered.mem_of_reaches hmem hreach)

/-- A class below which no cycle was found does not reach itself. -/
theorem not_reaches_self_of_acyclic {c : ClassRef} (hc : h.acyclic c = .ok ()) : ¬ TransGen h.Linked c c :=
  not_reaches_cycle_of_acyclic hc .refl

end Datapack.Ir.Hierarchy
