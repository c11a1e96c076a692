import Datapack.Proofs.Command.Game

/-!
# Texts in macro lines

A placeholder takes a text as it is, while the data form of a text escapes its quotes and backslashes.  A
text put between two quotes is therefore read as itself exactly when it has neither.
-/

namespace Datapack.Command

open Ir

/-! ## Filling placeholders -/

/-- The characters of a line with a text in the place of every placeholder. -/
def fillChars (texts : String → Option String) (cs : List Char) : Option (List Char) :=
  ((pieces cs).mapM (Piece.fill texts)).map List.flatten

variable {texts : String → Option String} {cs front rest : List Char} {c : Char} {name : String}

theorem fill_ofList (cs : List Char) : fill texts (String.ofList cs) = (fillChars texts cs).map String.ofList := by
  simp [fill, fillChars, Function.comp_def]

theorem fillChars_nil : fillChars texts [] = some [] := by
  simp [fillChars, pieces]

theorem fillChars_cons (h : c ≠ '$') : fillChars texts (c :: cs) = (fillChars texts cs).map (c :: ·) := by
  have hpieces : pieces (c :: cs) = .char c :: pieces cs := by
    cases cs with
    | nil => rw [pieces, pieces]
    | cons d cs => rw [pieces, if_neg fun hopen => h hopen.1]
  cases hrest : (pieces cs).mapM (Piece.fill texts) <;> simp [fillChars, hpieces, Piece.fill, hrest]

theorem fillChars_append (h : '$' ∉ front) :
    fillChars texts (front ++ cs) = (fillChars texts cs).map (front ++ ·) := by
  induction front with
  | nil => simp
  | cons c front ih =>
      rw [List.mem_cons, not_or] at h
      rw [List.cons_append, fillChars_cons (Ne.symm h.1), ih h.2, Option.map_map]
      rfl

theorem fillChars_placeholder (h : placeholder? cs = some (name, rest)) :
    fillChars texts ('$' :: '(' :: cs) = (texts name).bind fun x => (fillChars texts rest).map (x.toList ++ ·) := by
  have hpieces : pieces ('$' :: '(' :: cs) = .placeholder name :: pieces rest := by
    rw [pieces, if_pos ⟨rfl, rfl⟩]
    split
    · next name' rest' heq =>
      cases heq.symm.trans h
      rfl
    · next heq => cases heq.symm.trans h
  cases htext : texts name with
  | none => simp [fillChars, hpieces, Piece.fill, htext]
  | some x => cases hrest : (pieces rest).mapM (Piece.fill texts) <;> simp [fillChars, hpieces, Piece.fill, htext, hrest]

/-! ## Reading texts -/

/-- The characters of a text up to its closing quote, behind which nothing may follow. A backslash stands
before a quote or a backslash that is meant as itself. -/
def readChars : List Char → Option (List Char)
  | [] => none
  | c :: cs =>
    if c = '"' then if cs = [] then some [] else none
    else if c = '\\' then
      match cs with
      | [] => none
      | d :: ds => if d = '"' ∨ d = '\\' then (readChars ds).map (d :: ·) else none
    else (readChars cs).map (c :: ·)

/-- The text between double quotes that a text spells. -/
def readText (s : String) : Option String :=
  match s.toList with
  | '"' :: cs => (readChars cs).map String.ofList
  | _ => none

/-- A text without quotes and backslashes. -/
def IsPlain (s : String) : Prop := '"' ∉ s.toList ∧ '\\' ∉ s.toList

instance (s : String) : Decidable (IsPlain s) :=
  inferInstanceAs (Decidable ('"' ∉ s.toList ∧ '\\' ∉ s.toList))

theorem readChars_quote (cs : List Char) : readChars ('"' :: cs) = if cs = [] then some [] else none := by
  rw [readChars.eq_def]
  rfl

theorem readChars_escape (c : Char) (cs : List Char) :
    readChars ('\\' :: c :: cs) = if c = '"' ∨ c = '\\' then (readChars cs).map (c :: ·) else none := by
  rw [readChars.eq_def]
  rfl

theorem readChars_char (hquote : c ≠ '"') (hescape : c ≠ '\\') :
    readChars (c :: cs) = (readChars cs).map (c :: ·) := by
  rw [readChars.eq_def]
  simp [hquote, hescape]

theorem readChars_quoteChars (cs : List Char) : readChars (quoteChars cs ++ ['"']) = some cs := by
  induction cs with
  | nil => rfl
  | cons c cs ih =>
      rw [quoteChars]
      split
      · next h =>
        have hescaped : c = '"' ∨ c = '\\' := by simpa using h
        rw [List.cons_append, List.cons_append, readChars_escape, if_pos hescaped, ih, Option.map_some]
      · next h =>
        have hplain : c ≠ '"' ∧ c ≠ '\\' := by simpa using h
        rw [List.cons_append, readChars_char hplain.1 hplain.2, ih, Option.map_some]

theorem readText_dataText (s : String) : readText (dataText s) = some s := by
  simp [readText, dataText, readChars_quoteChars]

theorem readChars_plain (hquote : '"' ∉ cs) (hescape : '\\' ∉ cs) : readChars (cs ++ ['"']) = some cs := by
  induction cs with
  | nil => rfl
  | cons c cs ih =>
      rw [List.mem_cons, not_or] at hquote hescape
      rw [List.cons_append, readChars_char (Ne.symm hquote.1) (Ne.symm hescape.1), ih hquote.2 hescape.2,
        Option.map_some]

/-- Reading makes no more characters than there are, and as many only without quotes and backslashes. -/
theorem length_readChars : ∀ {cs ds : List Char}, readChars (cs ++ ['"']) = some ds →
    ds.length ≤ cs.length ∧ (ds.length = cs.length → '"' ∉ cs ∧ '\\' ∉ cs)
  | [], ds, h => by
    cases h
    simp
  | c :: cs, ds, h => by
    by_cases hquote : c = '"'
    · subst hquote
      rw [List.cons_append, readChars_quote, if_neg (by simp)] at h
      cases h
    by_cases hescape : c = '\\'
    · subst hescape
      cases cs with
      | nil => cases h
      | cons d cs =>
          -- two characters are read as one
          rw [List.cons_append, List.cons_append, readChars_escape, Option.ite_none_right_eq_some,
            Option.map_eq_some_iff] at h
          obtain ⟨-, es, hes, rfl⟩ := h
          have hle := (length_readChars hes).1
          simp only [List.length_cons]
          omega
    · rw [List.cons_append, readChars_char hquote hescape, Option.map_eq_some_iff] at h
      obtain ⟨es, hes, rfl⟩ := h
      obtain ⟨hle, hplain⟩ := length_readChars hes
      simpa [Ne.symm hquote, Ne.symm hescape, hle] using hplain

/-- A text put between quotes is read as itself exactly when it has neither quotes nor backslashes. -/
theorem readText_eq_self_iff (s : String) :
    readText (String.ofList ('"' :: s.toList ++ ['"'])) = some s ↔ IsPlain s := by
  have hread : readText (String.ofList ('"' :: s.toList ++ ['"'])) =
      (readChars (s.toList ++ ['"'])).map String.ofList := by
    simp [readText]
  rw [hread, Option.map_eq_some_iff]
  constructor
  · rintro ⟨ds, hds, heq⟩
    have hlength : ds = s.toList := by rw [← heq, String.toList_ofList]
    exact (length_readChars hds).2 (by rw [hlength])
  · rintro ⟨hquote, hescape⟩
    exact ⟨s.toList, readChars_plain hquote hescape, String.ofList_toList⟩

/-- The game reads a line that stores a text in a slot, provided the line spells a text. -/
def Game.ReadsInto (G : Game) (s : Slot) : Prop :=
  ∀ x : String, G.reads ("data modify storage " ++ s.target ++ " " ++ s.path ++ " set value \"" ++ x) =
    (readText ("\"" ++ x)).map fun y => .setData s (.str y)

/-- The command of a line that stores a text in a slot; another line is left as it is. -/
def readInto (s : Slot) (content : String) : Option Command :=
  let front := ("data modify storage " ++ s.target ++ " " ++ s.path ++ " set value ").toList
  if front <+: content.toList then
    (readText (String.ofList (content.toList.drop front.length))).map fun x => .setData s (.str x)
  else some (.line content)

theorem readsInto_of_reads {G : Game} {s : Slot} (h : G.reads = readInto s) : G.ReadsInto s := by
  intro x
  have hquote : ("data modify storage " ++ s.target ++ " " ++ s.path ++ " set value \"" ++ x).toList =
      ("data modify storage " ++ s.target ++ " " ++ s.path ++ " set value ").toList ++ ("\"" ++ x).toList := by
    simp
  rw [h, readInto, hquote, if_pos (List.prefix_append _ _), List.drop_left, String.ofList_toList]

end Datapack.Command
