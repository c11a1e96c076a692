import Datapack.Proofs.Ir.Hierarchy

/-!
# Cycles of links

The walk over the links of a class fails exactly if a class that it can reach reaches itself.  `Ends` is the
walk without a bound on its depth: it ends, in one way, on every hierarchy, and the bounded walk gives its
answer.  A walk that fails has met a class that it was still visiting, and every class that is being visited
reaches the ones that are met behind it.  One that succeeds has listed what it met without a cycle.
-/

namespace Datapack.Ir.Hierarchy

open Relation

variable {h : Hierarchy} {path finished : List ClassRef} {c d : ClassRef}

/-- The classes a class links to, none if it is not declared. -/
def linksOf (h : Hierarchy) (c : ClassRef) : List ClassRef := ((h.find? c).map ClassDecl.links).getD []

/-- How a walk over classes in a row ends, while those of `path` are being visited and those of `finished`
are done: with the class that closes a cycle, or with all that is done then. -/
inductive Ends (h : Hierarchy) :
    List ClassRef → List ClassRef → List ClassRef → Except ClassRef (List ClassRef) → Prop
  | nil {path finished : List ClassRef} : Ends h path finished [] (.ok finished)
  | closes {path finished row : List ClassRef} {c : ClassRef} (hpath : c ∈ path) :
      Ends h path finished (c :: row) (.error c)
  | passes {path finished row : List ClassRef} {c : ClassRef} {result : Except ClassRef (List ClassRef)}
      (hpath : c ∉ path) (hdone : c ∈ finished) (hrow : Ends h path finished row result) :
      Ends h path finished (c :: row) result
  | fails {path finished row : List ClassRef} {c d : ClassRef} (hpath : c ∉ path) (hnew : c ∉ finished)
      (hlinks : Ends h (c :: path) finished (h.linksOf c) (.error d)) :
      Ends h path finished (c :: row) (.error d)
  | finishes {path finished row linked : List ClassRef} {c : ClassRef}
      {result : Except ClassRef (List ClassRef)} (hpath : c ∉ path) (hnew : c ∉ finished)
      (hlinks : Ends h (c :: path) finished (h.linksOf c) (.ok linked))
      (hrow : Ends h path (c :: linked) row result) : Ends h path finished (c :: row) result

namespace Ends

variable {row : List ClassRef} {result result' : Except ClassRef (List ClassRef)}

theorem deterministic (hends : h.Ends path finished row result) (hends' : h.Ends path finished row result') :
    result = result' := by
  induction hends generalizing result' with
  | nil =>
      cases hends'
      rfl
  | closes hpath =>
      cases hends' with
      | closes => rfl
      | passes hnot => exact absurd hpath hnot
      | fails hnot => exact absurd hpath hnot
      | finishes hnot => exact absurd hpath hnot
  | passes hpath hdone _ ih =>
      cases hends' with
      | closes hmem => exact absurd hmem hpath
      | passes _ _ hrow => exact ih hrow
      | fails _ hnew => exact absurd hdone hnew
      | finishes _ hnew => exact absurd hdone hnew
  | fails hpath hnew _ ih =>
      cases hends' with
      | closes hmem => exact absurd hmem hpath
      | passes _ hdone => exact absurd hdone hnew
      | fails _ _ hlinks => exact congrArg _ (Except.error.inj (ih hlinks))
      | finishes _ _ hlinks => exact nomatch ih hlinks
  | finishes hpath hnew _ _ ihlinks ihrow =>
      cases hends' with
      | closes hmem => exact absurd hmem hpath
      | passes _ hdone => exact absurd hdone hnew
      | fails _ _ hlinks => exact nomatch ihlinks hlinks
      | finishes _ _ hlinks hrow =>
          obtain rfl := Except.ok.inj (ihlinks hlinks)
          exact ihrow hrow

/-- A walk goes on behind a class that is done. -/
theorem cons_ok {next : List ClassRef} (hfirst : h.Ends path finished [c] (.ok next))
    (hrow : h.Ends path next row result) : h.Ends path finished (c :: row) result := by
  cases hfirst with
  | passes hpath hdone hnil =>
      cases hnil
      exact .passes hpath hdone hrow
  | finishes hpath hnew hlinks hnil =>
      cases hnil
      exact .finishes hpath hnew hlinks hrow

theorem cons_error (hfirst : h.Ends path finished [c] (.error d)) :
    h.Ends path finished (c :: row) (.error d) := by
  cases hfirst with
  | closes hpath => exact .closes hpath
  | passes _ _ hnil => exact nomatch hnil
  | fails hpath hnew hlinks => exact .fails hpath hnew hlinks
  | finishes _ _ _ hnil => exact nomatch hnil

/-- The class at which a walk fails reaches itself, and is reached from a class of the row: what is being
visited reaches whatever is met. -/
theorem reaches_cycle (hends : h.Ends path finished row (.error d))
    (hpath : ∀ p ∈ path, ∀ c ∈ row, TransGen h.Linked p c) :
    (∃ c ∈ row, ReflTransGen h.Linked c d) ∧ TransGen h.Linked d d := by
  generalize hresult : Except.error d = result at hends
  induction hends with
  | nil => exact nomatch hresult
  | closes hmem =>
      obtain rfl := Except.error.inj hresult
      exact ⟨⟨d, List.mem_cons_self, .refl⟩, hpath d hmem d List.mem_cons_self⟩
  | passes _ _ _ ih =>
      obtain ⟨⟨c, hc, hreach⟩, hcycle⟩ :=
        ih (fun p hp x hx => hpath p hp x (List.mem_cons_of_mem _ hx)) hresult
      exact ⟨⟨c, List.mem_cons_of_mem _ hc, hreach⟩, hcycle⟩
  | @fails path _ _ c _ _ _ _ ih =>
      have hlinked : ∀ x ∈ h.linksOf c, h.Linked c x := fun x hx => linked_iff.2 hx
      obtain ⟨⟨x, hx, hreach⟩, hcycle⟩ := ih (by
        intro p hp x hx
        rcases List.mem_cons.1 hp with rfl | hp
        · exact .single (hlinked x hx)
        · exact (hpath p hp c List.mem_cons_self).tail (hlinked x hx)) hresult
      exact ⟨⟨c, List.mem_cons_self, .head (hlinked x hx) hreach⟩, hcycle⟩
  | finishes _ _ _ _ _ ih =>
      obtain ⟨⟨c, hc, hreach⟩, hcycle⟩ :=
        ih (fun p hp x hx => hpath p hp x (List.mem_cons_of_mem _ hx)) hresult
      exact ⟨⟨c, List.mem_cons_of_mem _ hc, hreach⟩, hcycle⟩

end Ends

/-- The bounded walk over a row, if each of its visits is one without a bound. -/
theorem ends_foldlM {fuel : Nat} {row : List ClassRef} (hw : h.Walks path finished)
    (hfuel : h.length + 2 ≤ fuel + path.length)
    (hvisit : ∀ c ∈ row, ∀ done, h.Walks path done → h.Ends path done [c] (h.visit fuel path done c)) :
    h.Ends path finished row (row.foldlM (fun done c => h.visit fuel path done c) finished) := by
  induction row generalizing finished with
  | nil => exact .nil
  | cons c row ih =>
      rw [List.forall_mem_cons] at hvisit
      have hfirst := hvisit.1 finished hw
      rw [List.foldlM_cons]
      cases hnext : h.visit fuel path finished c with
      | error d =>
          rw [hnext] at hfirst
          exact hfirst.cons_error
      | ok next =>
          rw [hnext] at hfirst
          exact hfirst.cons_ok (ih (hw.visit hfuel hnext).1 hvisit.2)

/-- The fuel suffices: a bounded visit ends as the one without a bound. -/
theorem ends_visit {fuel : Nat} (hw : h.Walks path finished) (hfuel : h.length + 2 ≤ fuel + path.length) :
    h.Ends path finished [c] (h.visit fuel path finished c) := by
  induction fuel generalizing path finished c with
  | zero =>
      have hle := (List.subperm_of_subset hw.distinct hw.declared).length_le
      rw [List.length_map] at hle
      omega
  | succ fuel ih =>
      unfold Hierarchy.visit
      split
      · next hpath => exact .closes hpath
      split
      · next hpath hdone => exact .passes hpath hdone .nil
      · next hpath hnew =>
          change h.Ends path finished [c] ((h.linksOf c).foldlM (fun done x => h.visit fuel (c :: path) done x)
            finished >>= fun linked => pure (c :: linked))
          have hlinks : h.Ends (c :: path) finished (h.linksOf c)
              ((h.linksOf c).foldlM (fun done x => h.visit fuel (c :: path) done x) finished) := by
            -- a class without links need not be declared
            cases hrow : h.linksOf c with
            | nil => exact .nil
            | cons d row =>
                have hlink : h.Linked c d := by
                  have hmem : d ∈ h.linksOf c := hrow ▸ List.mem_cons_self
                  exact linked_iff.2 hmem
                have hfuel' : h.length + 2 ≤ fuel + (c :: path).length := by
                  rw [List.length_cons]
                  omega
                exact ends_foldlM (hw.enter hlink hpath hnew) hfuel' fun x _ done hdone => ih hdone hfuel'
          generalize (h.linksOf c).foldlM (fun done x => h.visit fuel (c :: path) done x) finished = result
            at hlinks ⊢
          cases result with
          | error d => exact .fails hpath hnew hlinks
          | ok linked => exact .finishes hpath hnew hlinks .nil

/-- On every hierarchy the walk from a class ends, and in one way only.  It fails exactly if links lead from
the class to one that reaches itself, and then it names such a class. -/
theorem acyclic_fails_iff_reaches_cycle (h : Hierarchy) (c : ClassRef) :
    (∃ result, (∀ result', h.Ends [] [] [c] result' ↔ result' = result) ∧
        h.acyclic c = result.map fun _ => ()) ∧
      ((∃ d, h.acyclic c = .error d) ↔ ∃ d, ReflTransGen h.Linked c d ∧ TransGen h.Linked d d) ∧
      ∀ d, h.acyclic c = .error d → ReflTransGen h.Linked c d ∧ TransGen h.Linked d d := by
  have hends : h.Ends [] [] [c] (h.visit (h.length + 2) [] [] c) := ends_visit .start (by simp)
  have hnamed : ∀ d, h.acyclic c = .error d → ReflTransGen h.Linked c d ∧ TransGen h.Linked d d := by
    intro d hd
    unfold acyclic at hd
    cases hvisit : h.visit (h.length + 2) [] [] c with
    | ok finished =>
        rw [hvisit] at hd
        exact nomatch hd
    | error d' =>
        rw [hvisit] at hd hends
        obtain rfl := Except.error.inj hd
        obtain ⟨⟨x, hx, hreach⟩, hcycle⟩ := hends.reaches_cycle (List.forall_mem_nil _)
        obtain rfl := List.mem_singleton.1 hx
        exact ⟨hreach, hcycle⟩
  refine ⟨⟨_, fun result' => ?_, rfl⟩, ?_, hnamed⟩
  · exact ⟨fun hends' => hends'.deterministic hends, fun heq => heq ▸ hends⟩
  · constructor
    · rintro ⟨d, hd⟩
      exact ⟨d, hnamed d hd⟩
    · rintro ⟨d, hreach, hcycle⟩
      cases hc : h.acyclic c with
      | ok _ => exact absurd hcycle (not_reaches_cycle_of_acyclic hc hreach)
      | error d => exact ⟨d, rfl⟩

/-- A class that extends one class and implements another, which share a base.  The base may lead on. -/
def diamond (onwards : Option ClassRef) : Hierarchy :=
  [{ ref := ⟨"0", "Crate"⟩, parent := some ⟨"1", "Box"⟩, interfaces := [⟨"2", "Open"⟩] },
    { ref := ⟨"1", "Box"⟩, parent := some ⟨"3", "Thing"⟩ },
    { ref := ⟨"2", "Open"⟩, interfaces := [⟨"3", "Thing"⟩], isInterface := true },
    { ref := ⟨"3", "Thing"⟩, parent := onwards }]

/-- A shared base is no cycle, but a base that leads back to one of the two classes is in one. -/
theorem acyclic_fails_iff_reaches_cycle_diamond :
    (¬∃ d, ReflTransGen (diamond none).Linked ⟨"0", "Crate"⟩ d ∧ TransGen (diamond none).Linked d d) ∧
      (diamond (some ⟨"2", "Open"⟩)).acyclic ⟨"0", "Crate"⟩ = .error ⟨"3", "Thing"⟩ ∧
      TransGen (diamond (some ⟨"2", "Open"⟩)).Linked ⟨"3", "Thing"⟩ ⟨"3", "Thing"⟩ := by
  have hshared : (diamond none).acyclic ⟨"0", "Crate"⟩ = .ok () := rfl
  have hback : (diamond (some ⟨"2", "Open"⟩)).acyclic ⟨"0", "Crate"⟩ = .error ⟨"3", "Thing"⟩ := rfl
  refine ⟨fun hcycle => ?_, hback, ?_⟩
  · obtain ⟨d, hd⟩ := (acyclic_fails_iff_reaches_cycle (diamond none) _).2.1.2 hcycle
    exact nomatch hshared.symm.trans hd
  · exact ((acyclic_fails_iff_reaches_cycle (diamond (some ⟨"2", "Open"⟩)) _).2.2 _ hback).2

end Datapack.Ir.Hierarchy
