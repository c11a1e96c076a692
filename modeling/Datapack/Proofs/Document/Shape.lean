import Datapack.Document.Entry
import Datapack.Proofs.Lookup
import Mathlib.Data.List.Forall2

/-!
# Reading lists

A list is read element by element, also over an earlier list.  In particular the instructions of a document
are read one by one from the items of its instruction array.
-/

namespace Datapack.Document

/-- An element is read from an item, over whatever stood in its place before. -/
def Shape.Reads {α : Type} (shape : Shape α) (j : Json) (a : α) : Prop := ∃ before, shape before j = some a

theorem forall₂_of_elements {α : Type} {zero : α} {shape : Shape α} {olds : List α} {js : List Json}
    {slots : Slots α} (h : Shape.elements zero shape olds js = some slots) :
    List.Forall₂ shape.Reads js slots.shown := by
  induction js generalizing olds slots with
  | nil =>
      rw [Shape.elements] at h
      obtain rfl := Option.some.inj h
      exact .nil
  | cons j js ih =>
      cases olds with
      | nil =>
          obtain ⟨a, ha, h⟩ := Option.bind_eq_some_iff.1 h
          obtain ⟨rest, hrest, h⟩ := Option.bind_eq_some_iff.1 h
          obtain rfl := Option.some.inj h
          exact .cons ⟨zero, ha⟩ (ih hrest)
      | cons old olds =>
          obtain ⟨a, ha, h⟩ := Option.bind_eq_some_iff.1 h
          obtain ⟨rest, hrest, h⟩ := Option.bind_eq_some_iff.1 h
          obtain rfl := Option.some.inj h
          exact .cons ⟨old, ha⟩ (ih hrest)

/-- The items of an array; null is an empty one. -/
def arrayItems : Json → List Json
  | .array items _ => items
  | _ => []

theorem forall₂_of_list {α : Type} {zero : α} {shape : Shape α} {before after : Slots α} {j : Json}
    (h : Shape.list zero shape before j = some after) : List.Forall₂ shape.Reads (arrayItems j) after.shown := by
  unfold Shape.list at h
  split at h
  · obtain rfl := Option.some.inj h
    exact .nil
  · obtain rfl := Option.some.inj h
    exact .nil
  · exact forall₂_of_elements h
  · exact nomatch h

/-- The items of the instruction array of a document.  The last field of that name counts. -/
def instructionItems : Json → List Json
  | .object members _ =>
      members.foldl (fun items m => if namesField "instructions" m.1 then arrayItems m.2 else items) []
  | _ => []

theorem namesField_self (field : String) : namesField field field = true := decide_eq_true rfl

theorem namesField_symbols_eq_false {key : String} (h : namesField "instructions" key = true) :
    namesField "symbols" key = false := by
  have hdiffer : ("instructions".toList.map foldChar) ≠ "symbols".toList.map foldChar := by decide +kernel
  have hkey := of_decide_eq_true h
  exact decide_eq_false fun hsymbols => hdiffer (hkey.symm.trans hsymbols)

theorem lookupField_document {α : Type} (symbols instructions : α) (key : String) :
    lookupField [("symbols", symbols), ("instructions", instructions)] key =
      if namesField "instructions" key then some instructions
      else if namesField "symbols" key then some symbols else none := by
  by_cases hkey : key = "instructions"
  · subst hkey
    rw [if_pos (namesField_self _)]
    rfl
  · by_cases hkey' : key = "symbols"
    · subst hkey'
      have hother : ¬ namesField "instructions" "symbols" = true := by decide +kernel
      rw [if_neg hother, if_pos (namesField_self _)]
      rfl
    · have hlookup : List.lookup key [("symbols", symbols), ("instructions", instructions)] = none := by
        rw [lookup_cons_ite, if_neg hkey', lookup_cons_ite, if_neg hkey, List.lookup_nil]
      unfold lookupField
      rw [hlookup]
      by_cases hnames : namesField "instructions" key = true
      · simp [List.find?, hnames, namesField_symbols_eq_false hnames]
      · cases hsymbols : namesField "symbols" key <;> simp [List.find?, hnames, hsymbols]

/-- Reading a field of a document leaves the instructions alone, unless the field gives others. -/
theorem forall₂_of_readFields {symbols : Shape Entries}
    (hsymbols : ∀ before j after, symbols before j = some after → after.instructions = before.instructions)
    {items : List Json} {members : List (String × Json)} {before after : Entries}
    (hbefore : List.Forall₂ InstructionEntry.shape.Reads items before.instructions.shown)
    (h : Shape.readFields true [("symbols", symbols), ("instructions",
      Shape.field (·.instructions) (fun e v => { e with instructions := v })
        (Shape.list {} InstructionEntry.shape))] before members = some after) :
    List.Forall₂ InstructionEntry.shape.Reads (members.foldl (fun items m =>
      if namesField "instructions" m.1 then arrayItems m.2 else items) items) after.instructions.shown := by
  induction members generalizing items before with
  | nil =>
      obtain rfl := Option.some.inj h
      exact hbefore
  | cons m members ih =>
      obtain ⟨key, j⟩ := m
      unfold Shape.readFields at h
      rw [lookupField_document] at h
      rw [List.foldl_cons]
      by_cases hinstructions : namesField "instructions" key = true
      · rw [if_pos hinstructions] at h ⊢
        obtain ⟨next, hnext, h⟩ := Option.bind_eq_some_iff.1 h
        obtain ⟨read, hread, rfl⟩ := Option.map_eq_some_iff.1 hnext
        exact ih (forall₂_of_list hread) h
      · rw [if_neg hinstructions] at h ⊢
        by_cases hkey : namesField "symbols" key = true
        · rw [if_pos hkey] at h
          obtain ⟨next, hnext, h⟩ := Option.bind_eq_some_iff.1 h
          exact ih ((hsymbols before j next hnext).symm ▸ hbefore) h
        · rw [if_neg hkey] at h
          exact nomatch h

theorem forall₂_instructionItems {json : Json} {e : Entries} (h : Entries.shape {} json = some e) :
    List.Forall₂ InstructionEntry.shape.Reads (instructionItems json) e.instructions.shown := by
  cases json with
  | null =>
      obtain rfl := Option.some.inj h
      exact .nil
  | object members source =>
      refine forall₂_of_readFields ?_ .nil h
      intro before j after hread
      obtain ⟨_, _, rfl⟩ := Option.map_eq_some_iff.1 hread
      rfl
  | _ => exact nomatch h

end Datapack.Document
