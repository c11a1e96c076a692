/-!
# Lookups

Finding a value by its key in a list of pairs.
-/

namespace Datapack

theorem lookup_cons_ite {α β : Type} [BEq α] [LawfulBEq α] [DecidableEq α] (c : α) (y : β)
    (xs : List (α × β)) (a : α) : ((c, y) :: xs).lookup a = if a = c then some y else xs.lookup a := by
  by_cases h : a = c
  · simp [h]
  · have hc : (a == c) = false := by simp [h]
    simp [List.lookup_cons, hc, h]

theorem lookup_filter_fst {α β : Type} [BEq α] [LawfulBEq α] (p : α → Bool) (xs : List (α × β)) (a : α) :
    (xs.filter fun x => p x.1).lookup a = if p a then xs.lookup a else none := by
  induction xs with
  | nil => simp
  | cons x xs ih =>
      classical
      rw [List.filter_cons, lookup_cons_ite x.1 x.2]
      split
      · rw [lookup_cons_ite x.1 x.2, ih]
        split
        · next hp heq => rw [heq, if_pos hp]
        · rfl
      · next hp =>
          rw [ih]
          by_cases heq : a = x.1
          · rw [heq, if_neg hp, if_neg hp]
          · rw [if_neg heq]

theorem lookup_filter_fst_ne {α β : Type} [BEq α] [LawfulBEq α] [DecidableEq α] (xs : List (α × β)) (a b : α) :
    (xs.filter (·.1 ≠ a)).lookup b = if b = a then none else xs.lookup b := by
  rw [lookup_filter_fst (fun x => decide (x ≠ a))]
  by_cases h : b = a <;> simp [h]

theorem lookup_map {α β γ : Type} [DecidableEq α] (f : β → γ) (xs : List (α × β)) (a : α) :
    (xs.map fun x => (x.1, f x.2)).lookup a = (xs.lookup a).map f := by
  induction xs with
  | nil => rfl
  | cons x xs ih =>
      rw [List.map_cons, lookup_cons_ite, lookup_cons_ite, ih]
      split <;> rfl

theorem isSome_lookup {α β : Type} [DecidableEq α] (xs : List (α × β)) (a : α) :
    (xs.lookup a).isSome = decide (a ∈ xs.map Prod.fst) := by
  induction xs with
  | nil => rfl
  | cons x xs ih =>
      rw [lookup_cons_ite]
      by_cases h : a = x.1
      · simp [h]
      · simp [h, ih]

theorem lookup_isSome_iff {α β : Type} [DecidableEq α] (xs : List (α × β)) (a : α) :
    (xs.lookup a).isSome = true ↔ a ∈ xs.map Prod.fst := by
  rw [isSome_lookup, decide_eq_true_eq]

theorem lookup_append_of_some {α β : Type} [DecidableEq α] {xs ys : List (α × β)} {a : α} {b : β}
    (h : xs.lookup a = some b) : (xs ++ ys).lookup a = some b := by
  rw [List.lookup_append, h, Option.some_or]

theorem mem_of_lookup_eq_some {α β : Type} [DecidableEq α] {xs : List (α × β)} {a : α} {b : β}
    (h : xs.lookup a = some b) : (a, b) ∈ xs := by
  obtain ⟨front, rest, rfl, -⟩ := List.lookup_eq_some_iff.1 h
  exact List.mem_append_right front List.mem_cons_self

theorem lookup_eq_some_of_mem {α β : Type} [DecidableEq α] {xs : List (α × β)} {a : α} {b : β}
    (hkeys : (xs.map Prod.fst).Nodup) (h : (a, b) ∈ xs) : xs.lookup a = some b := by
  obtain ⟨front, rest, rfl⟩ := List.append_of_mem h
  rw [List.map_append, List.nodup_append] at hkeys
  refine List.lookup_eq_some_iff.2 ⟨front, rest, rfl, fun p hp => ?_⟩
  rw [bne_iff_ne]
  exact (hkeys.2.2 p.1 (List.mem_map_of_mem hp) a (by simp)).symm

end Datapack
