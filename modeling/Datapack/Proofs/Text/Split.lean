import Datapack.Text.Split

/-!
# Splitting and joining

Splitting a text at a separator and joining pieces that do not hold it undo each other.
-/

namespace Datapack.Text

theorem not_mem_of_mem_splitOn {c : Char} {cs piece : List Char} (h : piece ∈ cs.splitOn c) :
    c ∉ piece := by
  induction cs generalizing piece with
  | nil =>
      rw [List.splitOn_nil, List.mem_singleton] at h
      exact h ▸ List.not_mem_nil
  | cons d cs ih =>
      rw [List.splitOn_cons_eq_if_modifyHead] at h
      split at h
      · rcases List.mem_cons.1 h with rfl | h
        · exact List.not_mem_nil
        · exact ih h
      · next hd =>
        obtain ⟨first, rest, hsplit⟩ := List.exists_cons_of_ne_nil (List.splitOn_ne_nil c cs)
        rw [hsplit, List.modifyHead_cons] at h
        rw [hsplit] at ih
        rcases List.mem_cons.1 h with rfl | h
        · have hfirst := ih List.mem_cons_self
          simp only [beq_iff_eq] at hd
          simp [Ne.symm hd, hfirst]
        · exact ih (List.mem_cons_of_mem _ h)

section Separator

variable {c : Char} {sep : String}

theorem not_mem_of_mem_split {s piece : String} (h : piece ∈ split c s) : c ∉ piece.toList := by
  obtain ⟨cs, hcs, rfl⟩ := List.mem_map.1 h
  rw [String.toList_ofList]
  exact not_mem_of_mem_splitOn hcs

theorem split_of_not_mem {s : String} (h : c ∉ s.toList) : split c s = [s] := by
  rw [split, List.splitOn_eq_singleton h, List.map_singleton, String.ofList_toList]

theorem flatMap_split {xs : List String} (h : ∀ x ∈ xs, c ∉ x.toList) : xs.flatMap (split c) = xs := by
  have hsingle : xs.map (split c) = xs.map fun x => [x] :=
    List.map_congr_left fun x hx => split_of_not_mem (h x hx)
  rw [List.flatMap_def, hsingle, ← List.flatMap_def, List.flatMap_singleton']

theorem split_append (hsep : sep.toList = [c]) (s s' : String) :
    split c (s ++ sep ++ s') = split c s ++ split c s' := by
  simp only [split, String.toList_append, hsep, List.append_assoc, List.singleton_append,
    List.splitOn_append_cons_self, List.map_append]

theorem split_intercalate (hsep : sep.toList = [c]) {xs : List String} (hne : xs ≠ []) :
    split c (sep.intercalate xs) = xs.flatMap (split c) := by
  induction xs with
  | nil => exact absurd rfl hne
  | cons x xs ih =>
      by_cases hxs : xs = []
      · simp [hxs]
      · rw [String.intercalate_cons_of_ne_nil hxs, split_append hsep, ih hxs, List.flatMap_cons]

theorem intercalate_split (hsep : sep.toList = [c]) (s : String) : sep.intercalate (split c s) = s := by
  apply String.toList_inj.1
  have hlists : (split c s).map String.toList = s.toList.splitOn c := by
    simp [split, Function.comp_def]
  rw [String.toList_intercalate, hsep, hlists, List.intercalate_splitOn]

/-- Joined pieces tell the pieces. -/
theorem intercalate_inj (hsep : sep.toList = [c]) {xs ys : List String} (hxs : ∀ x ∈ xs, c ∉ x.toList)
    (hys : ∀ y ∈ ys, c ∉ y.toList) (hx : xs ≠ []) (hy : ys ≠ [])
    (h : sep.intercalate xs = sep.intercalate ys) : xs = ys := by
  have hsplit := congrArg (split c) h
  rwa [split_intercalate hsep hx, split_intercalate hsep hy, flatMap_split hxs, flatMap_split hys] at hsplit

/-- One joined text leads on into another exactly when its pieces do. -/
theorem intercalate_append_iff (hsep : sep.toList = [c]) {xs ys : List String}
    (hxs : ∀ x ∈ xs, c ∉ x.toList) (hys : ∀ y ∈ ys, c ∉ y.toList) (hx : xs ≠ []) (hy : ys ≠ []) :
    (∃ rest, sep.intercalate ys = sep.intercalate xs ++ sep ++ rest) ↔
      ∃ zs, zs ≠ [] ∧ ys = xs ++ zs := by
  constructor
  · rintro ⟨rest, h⟩
    have hsplit := congrArg (split c) h
    rw [split_append hsep, split_intercalate hsep hx, split_intercalate hsep hy, flatMap_split hxs,
      flatMap_split hys] at hsplit
    exact ⟨_, by simp [split], hsplit⟩
  · rintro ⟨zs, hzs, rfl⟩
    exact ⟨sep.intercalate zs, by
      rw [String.intercalate_append_of_ne_nil hx hzs]⟩

/-! ## The first separator -/

theorem ne_of_not_mem {cs : List Char} (h : c ∉ cs) : ∀ d ∈ cs, decide (d ≠ c) = true :=
  fun _ hd => decide_eq_true fun heq => h (heq ▸ hd)

theorem cut_of_not_mem {s : String} (h : c ∉ s.toList) : cut c s = none := by
  have hdrop : (s.toList ++ []).dropWhile (· ≠ c) = [].dropWhile (· ≠ c) :=
    List.dropWhile_append_of_pos (ne_of_not_mem h)
  rw [List.append_nil, List.dropWhile_nil] at hdrop
  rw [cut, hdrop]

theorem cut_append (hsep : sep.toList = [c]) {s : String} (h : c ∉ s.toList) (s' : String) :
    cut c (s ++ sep ++ s') = some (s, s') := by
  rw [cut, String.toList_append, String.toList_append, hsep, List.append_assoc, List.singleton_append,
    List.dropWhile_append_of_pos (ne_of_not_mem h), List.takeWhile_append_of_pos (ne_of_not_mem h),
    List.dropWhile_cons_of_neg (by simp), List.takeWhile_cons_of_neg (by simp), List.append_nil,
    String.ofList_toList]
  dsimp only
  rw [String.ofList_toList]

end Separator

end Datapack.Text
