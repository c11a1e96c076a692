import Mathlib.Data.List.Forall2

/-!
# Computations that may fail

What a composed computation that succeeds says about its parts.
-/

namespace Datapack

variable {ε α β : Type}

theorem bind_eq_ok_iff {x : Except ε α} {f : α → Except ε β} {b : β} :
    x >>= f = .ok b ↔ ∃ a, x = .ok a ∧ f a = .ok b := by
  cases x <;> simp [bind, Except.bind]

theorem pure_eq_ok_iff {a b : α} : (pure a : Except ε α) = .ok b ↔ a = b := by
  simp [pure, Except.pure]

theorem guard_eq_ok_iff {c : Prop} [Decidable c] {e : ε} {f : α → Except ε β} {x : Except ε β} {b : β} :
    (if c then throw e >>= f else x) = .ok b ↔ ¬ c ∧ x = .ok b := by
  by_cases hc : c
  · simp [hc, throw, throwThe, MonadExceptOf.throw, bind, Except.bind]
  · simp [hc]

theorem map_eq_ok_iff {f : α → β} {x : Except ε α} {b : β} :
    x.map f = .ok b ↔ ∃ a, x = .ok a ∧ f a = b := by
  cases x <;> simp [Except.map]

/-- The results of a list of computations correspond to their arguments. -/
theorem forall₂_of_mapM {f : α → Except ε β} {xs : List α} {ys : List β} (h : xs.mapM f = .ok ys) :
    List.Forall₂ (fun x y => f x = .ok y) xs ys := by
  induction xs generalizing ys with
  | nil =>
      obtain rfl := pure_eq_ok_iff.1 h
      exact .nil
  | cons x xs ih =>
      rw [List.mapM_cons] at h
      obtain ⟨y, hy, h⟩ := bind_eq_ok_iff.1 h
      obtain ⟨rest, hrest, h⟩ := bind_eq_ok_iff.1 h
      obtain rfl := pure_eq_ok_iff.1 h
      exact .cons hy (ih hrest)

/-- What one step of a fold keeps, given the elements before it, holds of the whole fold. -/
theorem foldlM_induction {f : β → α → Except ε β} {P : List α → β → Prop} {xs : List α} {b b' : β}
    (h : xs.foldlM f b = .ok b') (start : P [] b)
    (step : ∀ done x b b', x ∈ xs → P done b → f b x = .ok b' → P (done ++ [x]) b') : P xs b' := by
  suffices hfrom : ∀ (done rest : List α) (b : β), (∀ x ∈ rest, x ∈ xs) → P done b →
      rest.foldlM f b = .ok b' → P (done ++ rest) b' from hfrom [] xs b (fun _ hx => hx) start h
  intro done rest
  induction rest generalizing done with
  | nil =>
      intro b _ hb hfold
      obtain rfl := pure_eq_ok_iff.1 hfold
      rwa [List.append_nil]
  | cons x rest ih =>
      intro b hmem hb hfold
      rw [List.foldlM_cons] at hfold
      obtain ⟨next, hnext, hfold⟩ := bind_eq_ok_iff.1 hfold
      have hrest := ih (done ++ [x]) next (fun y hy => hmem y (List.mem_cons_of_mem x hy))
        (step done x b next (hmem x List.mem_cons_self) hb hnext) hfold
      rwa [List.append_assoc] at hrest

theorem forall_of_forM {f : α → Except ε Unit} {xs : List α} (h : xs.forM f = .ok ()) :
    ∀ x ∈ xs, f x = .ok () := by
  induction xs with
  | nil => exact List.forall_mem_nil _
  | cons x xs ih =>
      rw [List.forM_eq_forM, List.forM_cons] at h
      obtain ⟨_, hx, hxs⟩ := bind_eq_ok_iff.1 h
      exact List.forall_mem_cons.2 ⟨hx, ih hxs⟩

end Datapack
