import Datapack.Optimize.Saturation

/-!
# What saturation finds

`closure` adds candidates until none that is left satisfies the rule.  It keeps the seeds, leaves out no
candidate that satisfies the rule, and adds nothing that the rule does not lead to.
-/

namespace Datapack.Optimize

variable {α : Type} {rule : List α → α → Bool} {found todo skipped seeds candidates : List α} {x : α}

theorem subset_saturate (hx : x ∈ found) : x ∈ saturate rule found todo skipped := by
  fun_induction saturate rule found todo skipped with
  | case1 => exact hx
  | case2 found skipped y rest _ ih => exact ih (List.mem_cons_of_mem y hx)
  | case3 found skipped y rest _ ih => exact ih hx

theorem mem_saturate (hx : x ∈ saturate rule found todo skipped) :
    x ∈ found ∨ x ∈ todo ∨ x ∈ skipped := by
  fun_induction saturate rule found todo skipped with
  | case1 => exact .inl hx
  | case2 found skipped y rest _ ih => grind
  | case3 found skipped y rest _ ih => grind

/-- A candidate that is left out does not satisfy the rule. -/
theorem saturate_closed (hskipped : ∀ y ∈ skipped, rule found y = false) (hx : x ∈ todo ∨ x ∈ skipped)
    (hrule : rule (saturate rule found todo skipped) x = true) :
    x ∈ saturate rule found todo skipped := by
  fun_induction saturate rule found todo skipped with
  | case1 found skipped =>
      rw [hskipped x (hx.resolve_left List.not_mem_nil)] at hrule
      exact Bool.noConfusion hrule
  | case2 found skipped y rest _ ih =>
      by_cases hxy : x = y
      · subst hxy
        exact subset_saturate List.mem_cons_self
      · refine ih (fun z hz => absurd hz List.not_mem_nil) (.inl ?_) hrule
        rcases hx with hx | hx
        · exact List.mem_append_left _ ((List.mem_cons.1 hx).resolve_left hxy)
        · exact List.mem_append_right _ hx
  | case3 found skipped y rest hy ih =>
      refine ih (fun z hz => ?_) ?_ hrule
      · rcases List.mem_cons.1 hz with rfl | hz
        · simpa using hy
        · exact hskipped z hz
      · rcases hx with hx | hx
        · rcases List.mem_cons.1 hx with rfl | hx
          · exact .inr List.mem_cons_self
          · exact .inl hx
        · exact .inr (List.mem_cons_of_mem y hx)

theorem saturate_induction {P : α → Prop} (hfound : ∀ y ∈ found, P y)
    (hstep : ∀ known y, (∀ z ∈ known, P z) → rule known y = true → P y)
    (hx : x ∈ saturate rule found todo skipped) : P x := by
  fun_induction saturate rule found todo skipped with
  | case1 => exact hfound x hx
  | case2 found skipped y rest hy ih =>
      refine ih (fun z hz => ?_) hx
      rcases List.mem_cons.1 hz with rfl | hz
      · exact hstep found z hfound hy
      · exact hfound z hz
  | case3 found skipped y rest _ ih => exact ih hfound hx

theorem saturate_eq_found (h : ∀ y ∈ todo, rule found y = false) :
    saturate rule found todo skipped = found := by
  fun_induction saturate rule found todo skipped with
  | case1 => rfl
  | case2 found skipped y rest hy _ => exact absurd hy (by simp [h y List.mem_cons_self])
  | case3 found skipped y rest _ ih => exact ih fun z hz => h z (List.mem_cons_of_mem y hz)

/-- If no candidate satisfies the rule to begin with, none is added. -/
theorem closure_eq_seeds (h : ∀ y ∈ candidates, rule seeds y = false) :
    closure rule seeds candidates = seeds := saturate_eq_found h

theorem closure_nil (rule : List α → α → Bool) (seeds : List α) : closure rule seeds [] = seeds :=
  closure_eq_seeds fun _ hy => absurd hy List.not_mem_nil

theorem subset_closure (hx : x ∈ seeds) : x ∈ closure rule seeds candidates := subset_saturate hx

theorem mem_closure (hx : x ∈ closure rule seeds candidates) : x ∈ seeds ∨ x ∈ candidates := by
  simpa using mem_saturate hx

theorem closure_closed (hx : x ∈ candidates) (hrule : rule (closure rule seeds candidates) x = true) :
    x ∈ closure rule seeds candidates :=
  saturate_closed (fun _ hy => absurd hy List.not_mem_nil) (.inl hx) hrule

/-- What holds of the seeds and is kept by the rule holds of all that is found. -/
theorem closure_induction {P : α → Prop} (hseeds : ∀ y ∈ seeds, P y)
    (hstep : ∀ known y, (∀ z ∈ known, P z) → rule known y = true → P y)
    (hx : x ∈ closure rule seeds candidates) : P x :=
  saturate_induction hseeds hstep hx

end Datapack.Optimize
