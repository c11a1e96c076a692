import Datapack.Proofs.Path
import Mathlib.Data.List.Induction

/-!
# Absolute paths

Parts that are cleaned by themselves are names behind some ways up.  Taken on from the parts of a rooted path,
each way up leaves one of these and the names are entered, so that it makes no difference whether a path is
cleaned before it is seen from a directory.  The parent of a clean rooted path has all its parts but the last.
-/

namespace Datapack.Path

variable {acc cleaned : List String} {directory p : String}

/-! ## Parts below others -/

/-- Where cleaned parts lead from others: each way up leaves one of these, and the names are entered.  All
parts are kept in reverse. -/
def enter (acc cleaned : List String) : List String :=
  cleaned.filter (· ≠ "..") ++ acc.drop (cleaned.count "..")

theorem enter_settled {names : List String} (hnames : ∀ x ∈ names, IsName x) (ups : Nat) :
    enter acc (names ++ List.replicate ups "..") = names ++ acc.drop ups := by
  have hfilter : names.filter (· ≠ "..") = names :=
    List.filter_eq_self.2 fun x hx => by simpa using (hnames x hx).2.2
  have hcount : names.count ".." = 0 := List.count_eq_zero_of_not_mem fun hmem => (hnames _ hmem).2.2 rfl
  rw [enter, List.filter_append, hfilter, List.filter_replicate, if_neg (by simp), List.append_nil,
    List.count_append, hcount, List.count_replicate_self, Nat.zero_add]

theorem enter_addPart (hacc : ∀ x ∈ acc, IsName x) (h : Settled false cleaned) (x : String) :
    enter acc (addPart false cleaned x) = addPart true (enter acc cleaned) x := by
  obtain ⟨names, ups, rfl, hnames, -⟩ := h
  by_cases hskip : x = "" ∨ x = "."
  · have hsame : ∀ rooted l, addPart rooted l x = l := by
      rintro rooted l
      rcases hskip with rfl | rfl <;> rfl
    rw [hsame, hsame]
  rw [not_or] at hskip
  by_cases hup : x = ".."
  · subst hup
    cases names with
    | cons name names =>
        have hpop : ∀ rooted l, addPart rooted (name :: l) ".." = l := by
          intro rooted l
          simp [addPart, (hnames name List.mem_cons_self).2.2]
        rw [List.forall_mem_cons] at hnames
        rw [List.cons_append, hpop, enter_settled hnames.2, ← List.cons_append,
          enter_settled (List.forall_mem_cons.2 hnames), List.cons_append, hpop]
    | nil =>
        -- another way up, which leaves one more of the parts that are there
        have hups : addPart false ([] ++ List.replicate ups "..") ".." = [] ++ List.replicate (ups + 1) ".." := by
          cases ups <;> rfl
        rw [hups, enter_settled hnames, enter_settled hnames, List.nil_append, List.nil_append,
          ← List.tail_drop]
        cases hrest : acc.drop ups with
        | nil => rfl
        | cons last rest =>
            have hlast : IsName last := hacc last (List.mem_of_mem_drop (hrest ▸ List.mem_cons_self))
            simp [addPart, hlast.2.2]
  · have hname : IsName x := ⟨hskip.1, hskip.2, hup⟩
    rw [addPart_name hname, addPart_name hname, ← List.cons_append,
      enter_settled (List.forall_mem_cons.2 ⟨hname, hnames⟩), enter_settled hnames, List.cons_append]

theorem settled_nil (rooted : Bool) : Settled rooted [] :=
  ⟨[], 0, rfl, List.forall_mem_nil _, fun _ => rfl⟩

/-- From rooted parts it makes no difference whether further parts are cleaned before. -/
theorem foldl_eq_enter (hacc : ∀ x ∈ acc, IsName x) (xs : List String) :
    xs.foldl (addPart true) acc = enter acc (xs.foldl (addPart false) []) := by
  induction xs using List.reverseRecOn with
  | nil => rfl
  | append_singleton xs x ih =>
      simp only [List.foldl_append, List.foldl_cons, List.foldl_nil]
      rw [ih, enter_addPart hacc (settled_foldl (settled_nil false) xs)]

/-! ## Rooted paths -/

theorem isName_of_mem_cleanParts (h : isRooted p = true) {x : String} (hx : x ∈ cleanParts p) : IsName x := by
  obtain ⟨names, ups, hacc, hnames, hups⟩ := settled_cleanParts p
  obtain rfl := hups h
  rw [← List.mem_reverse, hacc, List.replicate_zero, List.append_nil] at hx
  exact hnames x hx

theorem ne_empty_of_isRooted (h : isRooted p = true) : p ≠ "" := by
  rintro rfl
  exact absurd h (by decide)

theorem join_empty_spec (h : p ≠ "") :
    isRooted (join ["", p]) = isRooted p ∧ cleanParts (join ["", p]) = cleanParts p := by
  have hjoin : join ["", p] = clean p := by simp [join, h]
  rw [hjoin]
  exact ⟨(clean_spec p).1, (clean_spec p).2.1⟩

theorem isRooted_absolute (h : isRooted directory = true) (p : String) :
    isRooted (absolute directory p) = true := by
  unfold absolute
  split
  · next hp => rw [(clean_spec p).1, hp]
  · rw [(join_spec (ne_empty_of_isRooted h) [p]).1, h]

theorem cleanParts_absolute_of_isRooted (directory : String) (h : isRooted p = true) :
    cleanParts (absolute directory p) = cleanParts p := by
  rw [absolute, if_pos h, (clean_spec p).2.1]

theorem cleanParts_join_of_isRooted (h : isRooted directory = true) (p : String) :
    cleanParts (join [directory, p]) =
      (enter (cleanParts directory).reverse ((parts p).foldl (addPart false) [])).reverse := by
  have hnames : ∀ x ∈ (cleanParts directory).reverse, IsName x :=
    fun x hx => isName_of_mem_cleanParts h (List.mem_reverse.1 hx)
  rw [(join_spec (ne_empty_of_isRooted h) [p]).2.2, h, List.flatMap_singleton, foldl_eq_enter hnames]

theorem foldl_parts_of_not_isRooted (h : isRooted p = false) :
    (parts p).foldl (addPart false) [] = (cleanParts p).reverse := by
  rw [cleanParts, h, List.reverse_reverse]

theorem cleanParts_absolute_of_not_isRooted (h : isRooted directory = true) (hp : isRooted p = false) :
    cleanParts (absolute directory p) =
      (enter (cleanParts directory).reverse (cleanParts p).reverse).reverse := by
  rw [absolute, if_neg (by simp [hp]), cleanParts_join_of_isRooted h, foldl_parts_of_not_isRooted hp]

/-- An element below a path leads to the same place whether the path is seen from a directory before it or
after. -/
theorem cleanParts_absolute_join (h : isRooted directory = true) (hp : p ≠ "") (x : String) :
    cleanParts (absolute directory (join [p, x])) = cleanParts (join [absolute directory p, x]) := by
  have habsolute := isRooted_absolute h p
  have hjoin := join_spec hp [x]
  cases hrooted : isRooted p with
  | true =>
      rw [cleanParts_absolute_of_isRooted _ (hjoin.1.trans hrooted), cleanParts_join_of_isRooted hrooted,
        cleanParts_join_of_isRooted habsolute, cleanParts_absolute_of_isRooted _ hrooted]
  | false =>
      have hnames : ∀ y ∈ (cleanParts directory).reverse, IsName y :=
        fun y hy => isName_of_mem_cleanParts h (List.mem_reverse.1 hy)
      have htogether : (cleanParts (join [p, x])).reverse = (parts p ++ parts x).foldl (addPart false) [] := by
        rw [hjoin.2.2, List.reverse_reverse, hrooted, List.flatMap_singleton, List.foldl_append,
          foldl_parts_of_not_isRooted hrooted]
      rw [cleanParts_absolute_of_not_isRooted h (hjoin.1.trans hrooted), htogether, ← foldl_eq_enter hnames,
        List.foldl_append, foldl_eq_enter hnames, foldl_parts_of_not_isRooted hrooted,
        (join_spec (ne_empty_of_isRooted habsolute) [x]).2.2, habsolute, List.flatMap_singleton,
        cleanParts_absolute_of_not_isRooted h hrooted, List.reverse_reverse]

/-! ## Parents -/

theorem clean_clean (p : String) : clean (clean p) = clean p := by
  obtain ⟨hrooted, hparts, -⟩ := clean_spec p
  rw [clean, hrooted, hparts, ← clean]

theorem clean_join (h : p ≠ "") (es : List String) : clean (join (p :: es)) = join (p :: es) := by
  have hjoin : join (p :: es) = clean ("/".intercalate (p :: es)) := by simp [join, h]
  rw [hjoin, clean_clean]

theorem clean_absolute (h : isRooted directory = true) (p : String) :
    clean (absolute directory p) = absolute directory p := by
  unfold absolute
  split
  · exact clean_clean p
  · exact clean_join (ne_empty_of_isRooted h) [p]

theorem eq_iff_cleanParts_eq {q : String} (hp : isRooted p = true) (hq : isRooted q = true)
    (hclean : clean p = p) (hclean' : clean q = q) : p = q ↔ cleanParts p = cleanParts q := by
  refine ⟨fun heq => heq ▸ rfl, fun hparts => ?_⟩
  rw [← hclean, ← hclean', clean, clean, hp, hq, hparts]

theorem parts_of_clean (h : isRooted p = true) (hclean : clean p = p) :
    parts p = "" :: if cleanParts p = [] then [""] else cleanParts p := by
  have htext : p = "" ++ "/" ++ "/".intercalate (cleanParts p) := by
    conv_lhs => rw [← hclean, clean, h, if_pos rfl]
    rw [String.empty_append]
  have hparts : ∀ x ∈ cleanParts p, '/' ∉ x.toList := fun x => slash_not_mem_cleanParts
  have hsplit : parts p = parts "" ++ parts ("/".intercalate (cleanParts p)) := by
    conv_lhs => rw [htext]
    exact Text.split_append toList_slash _ _
  rw [hsplit]
  split
  · next hnil => rw [hnil]; rfl
  · next hne => rw [parts_intercalate hne, flatMap_parts hparts]; rfl

theorem cleanParts_rooted_intercalate {names : List String} (hne : names ≠ []) (hnames : ∀ x ∈ names, IsName x)
    (hslash : ∀ x ∈ names, '/' ∉ x.toList) :
    isRooted ("/".intercalate ("" :: names)) = true ∧ cleanParts ("/".intercalate ("" :: names)) = names := by
  have hrooted : isRooted ("/".intercalate ("" :: names)) = true := by
    rw [String.intercalate_cons_of_ne_nil hne, String.empty_append, isRooted_append (by decide)]
    exact isRooted_iff.2 ⟨[], by decide⟩
  refine ⟨hrooted, ?_⟩
  rw [cleanParts, hrooted, parts_intercalate (List.cons_ne_nil _ _), List.flatMap_cons, flatMap_parts hslash]
  change (names.foldl (addPart true) []).reverse = names
  rw [foldl_names hnames, List.append_nil, List.reverse_reverse]

theorem parent_spec (h : isRooted p = true) (hclean : clean p = p) :
    isRooted (parent p) = true ∧ clean (parent p) = parent p ∧
      cleanParts (parent p) = (cleanParts p).dropLast := by
  -- the text before the last slash, or the root itself
  obtain ⟨front, hparent, hrooted, hfront⟩ : ∃ front, parent p = clean front ∧ isRooted front = true ∧
      cleanParts front = (cleanParts p).dropLast := by
    have hparts := parts_of_clean h hclean
    rcases List.eq_nil_or_concat (cleanParts p) with hnil | ⟨names, last, hlast⟩
    · rw [if_pos hnil] at hparts
      refine ⟨"/", ?_, by decide, ?_⟩
      · unfold parent
        rw [hparts]
        decide
      · rw [hnil]
        decide
    · rw [List.concat_eq_append] at hlast
      rw [if_neg (by simp [hlast]), hlast] at hparts
      have hparent : parent p = clean (if "/".intercalate ("" :: names) = "" then "/"
          else "/".intercalate ("" :: names)) := by
        unfold parent
        rw [hparts]
        simp
      rw [hlast, List.dropLast_concat]
      by_cases hnames : names = []
      · subst hnames
        exact ⟨"/", hparent, by decide, by decide⟩
      · have hmem : ∀ x ∈ names, x ∈ cleanParts p := fun x hx => hlast ▸ List.mem_append_left _ hx
        obtain ⟨hrooted, hfront⟩ := cleanParts_rooted_intercalate hnames
          (fun x hx => isName_of_mem_cleanParts h (hmem x hx)) fun x hx => slash_not_mem_cleanParts (hmem x hx)
        rw [if_neg (ne_empty_of_isRooted hrooted)] at hparent
        exact ⟨_, hparent, hrooted, hfront⟩
  obtain ⟨hrooted', hparts', -⟩ := clean_spec front
  rw [hparent]
  exact ⟨hrooted'.trans hrooted, clean_clean front, hparts'.trans hfront⟩

end Datapack.Path
