import Datapack.Path
import Datapack.Proofs.Text.Split

/-!
# Clean paths

What `clean` leaves of a path: the ways up come first, a rooted path has none, and every other part
names an entry.  Cleaning such a path again changes nothing, so a path that is joined from elements is
the clean path of the first one taken on part by part.  `Below` is containment in a directory, read off
the parts.
-/

namespace Datapack.Path

/-! ## Parts -/

theorem toList_slash : "/".toList = ['/'] := by decide

theorem parts_ne_nil (p : String) : parts p ≠ [] := by
  simp [parts, List.splitOn_ne_nil]

theorem parts_intercalate {xs : List String} (hne : xs ≠ []) :
    parts ("/".intercalate xs) = xs.flatMap parts := Text.split_intercalate toList_slash hne

theorem flatMap_parts {xs : List String} (h : ∀ x ∈ xs, '/' ∉ x.toList) : xs.flatMap parts = xs :=
  Text.flatMap_split h

theorem intercalate_parts (p : String) : "/".intercalate (parts p) = p :=
  Text.intercalate_split toList_slash p

theorem isRooted_iff {p : String} : isRooted p = true ↔ ∃ cs, p.toList = '/' :: cs := by
  rw [isRooted, decide_eq_true_eq, List.head?_eq_some_iff]

theorem isRooted_append {p : String} (h : p ≠ "") (q : String) : isRooted (p ++ q) = isRooted p := by
  obtain ⟨c, cs, hp⟩ := List.exists_cons_of_ne_nil (mt String.toList_eq_nil_iff.1 h)
  rw [Bool.eq_iff_iff, isRooted_iff, isRooted_iff, String.toList_append, hp]
  simp

theorem isRooted_of_not_mem {p : String} (h : '/' ∉ p.toList) : isRooted p = false := by
  rw [Bool.eq_false_iff, ne_eq, isRooted_iff]
  rintro ⟨cs, hcs⟩
  exact h (by simp [hcs])

/-! ## Cleaning -/

def IsName (part : String) : Prop := part ≠ "" ∧ part ≠ "." ∧ part ≠ ".."

/-- Parts in reverse as cleaning keeps them: names behind the ways up, of which a rooted path has
none. -/
def Settled (rooted : Bool) (acc : List String) : Prop :=
  ∃ names ups, acc = names ++ List.replicate ups ".." ∧ (∀ x ∈ names, IsName x) ∧
    (rooted = true → ups = 0)

variable {rooted : Bool} {acc : List String} {p q : String}

theorem addPart_name {x : String} (h : IsName x) : addPart rooted acc x = x :: acc := by
  simp [addPart, h.1, h.2.1, h.2.2]

theorem foldl_names {xs : List String} (h : ∀ x ∈ xs, IsName x) :
    xs.foldl (addPart rooted) acc = xs.reverse ++ acc := by
  induction xs generalizing acc with
  | nil => rfl
  | cons x xs ih =>
      rw [List.forall_mem_cons] at h
      rw [List.foldl_cons, addPart_name h.1, ih h.2, List.reverse_cons, List.append_assoc]
      rfl

theorem foldl_ups (n : Nat) :
    (List.replicate n "..").foldl (addPart false) [] = List.replicate n ".." := by
  induction n with
  | zero => rfl
  | succ n ih =>
      rw [List.replicate_succ', List.foldl_append, ih, List.foldl_cons, List.foldl_nil,
        ← List.replicate_succ']
      cases n <;> rfl

theorem settled_addPart (h : Settled rooted acc) (x : String) : Settled rooted (addPart rooted acc x) := by
  obtain ⟨names, ups, rfl, hnames, hups⟩ := h
  by_cases hskip : x = "" ∨ x = "."
  · have hsame : addPart rooted (names ++ List.replicate ups "..") x
        = names ++ List.replicate ups ".." := by
      rcases hskip with rfl | rfl <;> rfl
    rw [hsame]
    exact ⟨names, ups, rfl, hnames, hups⟩
  · rw [not_or] at hskip
    by_cases hup : x = ".."
    · subst hup
      cases names with
      | cons name names =>
          -- the way up takes back the last name
          rw [List.forall_mem_cons] at hnames
          have hpop : addPart rooted (name :: names ++ List.replicate ups "..") ".."
              = names ++ List.replicate ups ".." := by
            simp [addPart, hnames.1.2.2]
          rw [hpop]
          exact ⟨names, ups, rfl, hnames.2, hups⟩
      | nil =>
          cases rooted with
          | true =>
              obtain rfl := hups rfl
              exact ⟨[], 0, rfl, by simp, fun _ => rfl⟩
          | false =>
              refine ⟨[], ups + 1, ?_, by simp, by simp⟩
              cases ups <;> rfl
    · rw [addPart_name ⟨hskip.1, hskip.2, hup⟩]
      exact ⟨x :: names, ups, rfl, List.forall_mem_cons.2 ⟨⟨hskip.1, hskip.2, hup⟩, hnames⟩, hups⟩

theorem settled_foldl (h : Settled rooted acc) (xs : List String) :
    Settled rooted (xs.foldl (addPart rooted) acc) := by
  induction xs generalizing acc with
  | nil => exact h
  | cons x xs ih => exact ih (settled_addPart h x)

/-- Cleaning leaves clean parts as they are. -/
theorem Settled.foldl_reverse (h : Settled rooted acc) :
    acc.reverse.foldl (addPart rooted) [] = acc := by
  obtain ⟨names, ups, rfl, hnames, hups⟩ := h
  have hfront : (List.replicate ups "..").foldl (addPart rooted) [] = List.replicate ups ".." := by
    cases rooted with
    | true =>
        obtain rfl := hups rfl
        rfl
    | false => exact foldl_ups ups
  rw [List.reverse_append, List.reverse_replicate, List.foldl_append, hfront,
    foldl_names fun x hx => hnames x (List.mem_reverse.1 hx), List.reverse_reverse]

theorem settled_cleanParts (p : String) : Settled (isRooted p) (cleanParts p).reverse := by
  rw [cleanParts, List.reverse_reverse]
  exact settled_foldl ⟨[], 0, rfl, by simp, fun _ => rfl⟩ _

/-- Every part that cleaning keeps is a part of the path or a way up. -/
theorem mem_of_mem_addPart {x y : String} (h : y ∈ addPart rooted acc x) :
    y ∈ acc ∨ y = x := by
  unfold addPart at h
  split at h
  · exact .inl h
  · split at h
    · next hup =>
      split at h
      · split at h
        · exact .inl h
        · exact .inr (by simp_all)
      · split at h
        · rcases List.mem_cons.1 h with rfl | h
          · exact .inr hup.symm
          · exact .inl h
        · exact .inl (List.mem_cons_of_mem _ h)
    · exact (List.mem_cons.1 h).symm

theorem mem_of_mem_foldl {xs : List String} {y : String}
    (h : y ∈ xs.foldl (addPart rooted) acc) : y ∈ acc ∨ y ∈ xs := by
  induction xs generalizing acc with
  | nil => exact .inl h
  | cons x xs ih =>
      rcases ih h with h | h
      · rcases mem_of_mem_addPart h with h | rfl
        · exact .inl h
        · exact .inr List.mem_cons_self
      · exact .inr (List.mem_cons_of_mem _ h)

/-! ## Joined paths -/

theorem slash_not_mem_cleanParts {part : String} (h : part ∈ cleanParts p) : '/' ∉ part.toList := by
  rw [cleanParts, List.mem_reverse] at h
  rcases mem_of_mem_foldl h with h | h
  · exact absurd h List.not_mem_nil
  · exact Text.not_mem_of_mem_split h

theorem ne_empty_of_mem_cleanParts {part : String} (h : part ∈ cleanParts p) : part ≠ "" ∧ part ≠ "." := by
  obtain ⟨names, ups, hacc, hnames, -⟩ := settled_cleanParts p
  rw [← List.mem_reverse, hacc, List.mem_append, List.mem_replicate] at h
  rcases h with h | ⟨-, rfl⟩
  · exact ⟨(hnames part h).1, (hnames part h).2.1⟩
  · decide

theorem foldl_cleanParts (p : String) :
    (cleanParts p).foldl (addPart (isRooted p)) [] = (cleanParts p).reverse := by
  have hfold := (settled_cleanParts p).foldl_reverse
  rwa [List.reverse_reverse] at hfold

/-- A clean path stands where the path does, and cleaning keeps all its parts. -/
theorem clean_spec (p : String) : isRooted (clean p) = isRooted p ∧ cleanParts (clean p) = cleanParts p ∧
    clean p ≠ "" := by
  have hparts : ∀ x ∈ cleanParts p, '/' ∉ x.toList := fun x => slash_not_mem_cleanParts
  have hfold := congrArg List.reverse (foldl_cleanParts p)
  rw [List.reverse_reverse] at hfold
  unfold clean
  dsimp only
  cases hroot : isRooted p with
  | true =>
      rw [hroot] at hfold
      have hslash : isRooted ("/" ++ "/".intercalate (cleanParts p)) = true := by
        rw [isRooted_append (by decide)]
        exact isRooted_iff.2 ⟨[], by decide⟩
      rw [if_pos rfl]
      refine ⟨hslash, ?_, by simp⟩
      rw [cleanParts, hslash, ← String.empty_append (s := "/"), parts, ← Text.split,
        Text.split_append toList_slash, List.foldl_append]
      change ((parts ("/".intercalate (cleanParts p))).foldl (addPart true) []).reverse = _
      by_cases hnil : cleanParts p = []
      · rw [hnil]
        rfl
      · rwa [parts_intercalate hnil, flatMap_parts hparts]
  | false =>
      rw [hroot] at hfold
      rw [if_neg (by simp)]
      by_cases hnil : cleanParts p = []
      · rw [hnil]
        exact ⟨isRooted_of_not_mem (by decide), by decide, by decide⟩
      · obtain ⟨first, rest, hcons⟩ := List.exists_cons_of_ne_nil hnil
        have hmem : first ∈ cleanParts p := by simp [hcons]
        have hfirst := hparts first hmem
        have hne := (ne_empty_of_mem_cleanParts hmem).1
        have htext : ∃ tail, "/".intercalate (cleanParts p) = first ++ tail := by
          rw [hcons]
          by_cases hrest : rest = []
          · exact ⟨"", by simp [hrest]⟩
          · exact ⟨_, by rw [String.intercalate_cons_of_ne_nil hrest, String.append_assoc]⟩
        obtain ⟨tail, htail⟩ := htext
        have hnonempty : "/".intercalate (cleanParts p) ≠ "" := by
          rw [htail]
          simp [hne]
        have hplain : isRooted ("/".intercalate (cleanParts p)) = false := by
          rw [htail, isRooted_append hne, isRooted_of_not_mem hfirst]
        rw [if_neg hnonempty]
        refine ⟨hplain, ?_, hnonempty⟩
        rwa [cleanParts, hplain, parts_intercalate hnil, flatMap_parts hparts]

/-- The path of elements below a first one: the clean path of the first, taken on part by part. -/
theorem join_spec (h : p ≠ "") (es : List String) :
    isRooted (join (p :: es)) = isRooted p ∧ join (p :: es) ≠ "" ∧
      cleanParts (join (p :: es)) =
        ((es.flatMap parts).foldl (addPart (isRooted p)) (cleanParts p).reverse).reverse := by
  -- an empty first element would be left out, and the next one would be the first
  have hjoin : join (p :: es) = clean ("/".intercalate (p :: es)) := by
    simp [join, h]
  have hrooted : isRooted ("/".intercalate (p :: es)) = isRooted p := by
    by_cases hes : es = []
    · simp [hes]
    · rw [String.intercalate_cons_of_ne_nil hes, String.append_assoc, isRooted_append h]
  obtain ⟨hroot, hparts, hne⟩ := clean_spec ("/".intercalate (p :: es))
  rw [hjoin]
  refine ⟨hroot.trans hrooted, hne, ?_⟩
  rw [hparts, cleanParts, hrooted, parts_intercalate (by simp), List.flatMap_cons, List.foldl_append,
    cleanParts, List.reverse_reverse]

/-! ## Containment -/

/-- A path leads into a directory, and not to the directory itself. -/
def Below (directory p : String) : Prop :=
  isRooted p = isRooted directory ∧
    ∃ rest, rest ≠ [] ∧ ".." ∉ rest ∧ cleanParts p = cleanParts directory ++ rest

theorem foldl_of_not_mem {xs : List String} (h : ".." ∉ xs) :
    xs.foldl (addPart rooted) acc = (xs.filter fun x => x ≠ "" ∧ x ≠ ".").reverse ++ acc := by
  induction xs generalizing acc with
  | nil => rfl
  | cons x xs ih =>
      rw [List.mem_cons, not_or] at h
      rw [List.foldl_cons, ih h.2]
      by_cases hskip : x = "" ∨ x = "."
      · have hsame : addPart rooted acc x = acc := by
          rcases hskip with rfl | rfl <;> rfl
        rw [hsame, List.filter_cons_of_neg (by rcases hskip with rfl | rfl <;> simp)]
      · rw [not_or] at hskip
        rw [addPart_name ⟨hskip.1, hskip.2, Ne.symm h.1⟩, List.filter_cons_of_pos (by simpa using hskip)]
        simp

theorem cleanParts_join (h : p ≠ "") {es : List String} (hes : ".." ∉ es.flatMap parts) :
    cleanParts (join (p :: es)) =
      cleanParts p ++ (es.flatMap parts).filter fun x => x ≠ "" ∧ x ≠ "." := by
  rw [(join_spec h es).2.2, foldl_of_not_mem hes, List.reverse_append, List.reverse_reverse,
    List.reverse_reverse]

/-- Elements that never lead upwards lead into the first one. -/
theorem below_join (h : p ≠ "") {es : List String} (hes : ".." ∉ es.flatMap parts)
    (hname : ∃ x ∈ es.flatMap parts, x ≠ "" ∧ x ≠ ".") : Below p (join (p :: es)) := by
  refine ⟨(join_spec h es).1, _, ?_, ?_, cleanParts_join h hes⟩
  · obtain ⟨x, hx, hnot⟩ := hname
    exact List.ne_nil_of_mem (List.mem_filter.2 ⟨hx, by simpa using hnot⟩)
  · exact fun hmem => hes (List.mem_filter.1 hmem).1

/-- Different lists of names below one directory are different paths. -/
theorem eq_of_join_eq (h : p ≠ "") {x y : String} (hx : ∀ part ∈ parts x, IsName part)
    (hy : ∀ part ∈ parts y, IsName part) (heq : join [p, x] = join [p, y]) : x = y := by
  have hparts : ∀ z, (∀ part ∈ parts z, IsName part) →
      cleanParts (join [p, z]) = cleanParts p ++ parts z := by
    intro z hz
    have hups : ".." ∉ [z].flatMap parts := by
      rw [List.flatMap_singleton]
      exact fun hmem => (hz _ hmem).2.2 rfl
    rw [cleanParts_join h hups, List.flatMap_singleton,
      List.filter_eq_self.2 fun part hmem => by simpa using ⟨(hz part hmem).1, (hz part hmem).2.1⟩]
  have hsame := hparts x hx
  rw [heq, hparts y hy, List.append_cancel_left_eq] at hsame
  calc x
    _ = "/".intercalate (parts x) := (intercalate_parts x).symm
    _ = "/".intercalate (parts y) := by rw [hsame]
    _ = y := intercalate_parts y

end Datapack.Path
