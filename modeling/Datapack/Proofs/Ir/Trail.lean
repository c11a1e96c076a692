import Datapack.Proofs.Ir.Cursor
import Mathlib.Data.List.Nodup
import Mathlib.Data.List.Perm.Subperm

/-!
# Walks with edits

A cursor that edits the stream it walks over counts places, and every edit moves them.  A trail says the same
without counting: it holds what has been visited, with the current element in it, and what lies ahead.  On a
trail the edits are plain, so what a walk returns, loses and leaves behind is read off it; the cursor does at
every move what the trail does, in both directions.
-/

namespace Datapack.Ir

namespace Cursor

variable {α β : Type}

/-- What is done with a cursor on a walk with edits. -/
inductive Move (α : Type) where
  | next
  | replace (a : α)
  | remove
  | insertHere (a : α)
  | insertAfter (a : α)

namespace Move

def op : Move α → Op α
  | next => .next
  | replace a => .setCurrent a
  | remove => .removeCurrent
  | insertHere a => .insertHere a
  | insertAfter a => .insertAfterCurrent a

def element? : Move α → Option α
  | replace a | insertHere a | insertAfter a => some a
  | next | remove => none

/-- The element that a move inserts behind the current one. -/
def following? : Move α → Option α
  | insertAfter a => some a
  | _ => none

/-- The same move with another element. -/
def map (f : α → β) : Move α → Move β
  | next => next
  | replace a => replace (f a)
  | remove => remove
  | insertHere a => insertHere (f a)
  | insertAfter a => insertAfter (f a)

end Move

def walk (c : Cursor α) (ms : List (Move α)) : List (Answer α) × Cursor α := c.run (ms.map Move.op)

/-- The element that a move takes out of the stream. -/
def discarded (c : Cursor α) : Move α → List α
  | .replace _ | .remove => c.current.toOption.toList
  | _ => []

/-- The element that a move puts into the stream. -/
def admitted (c : Cursor α) (m : Move α) : List α :=
  match (c.apply m.op).1 with
  | .ok _ => m.element?.toList
  | .error _ => []

/-- The elements that a walk takes out of the stream. -/
def lost (c : Cursor α) : List (Move α) → List α
  | [] => []
  | m :: ms => c.discarded m ++ (c.apply m.op).2.lost ms

/-- The elements that a walk puts into the stream. -/
def placed (c : Cursor α) : List (Move α) → List α
  | [] => []
  | m :: ms => c.admitted m ++ (c.apply m.op).2.placed ms

/-- The elements that answers return. -/
def returned (answers : List (Answer α)) : List α := answers.filterMap fun answer => answer.toOption.join

/-- The elements of a stream in the order of a walk. -/
def inWalkOrder (reversed : Bool) (s : List α) : List α := if reversed then s.reverse else s

/-- A cursor before the first element of its walk. -/
def fresh (reversed : Bool) (s : List α) : Cursor α := if reversed then backward s else forward s

/-! ## Trails -/

/-- A walk that has come to a place: the elements passed before the current one, those visited behind it, and
those ahead. -/
structure Trail (α : Type) where
  passed : List α := []
  current : Option α := none
  between : List α := []
  ahead : List α

namespace Trail

/-- The elements that count as visited. -/
def visited (t : Trail α) : List α := t.passed ++ (t.current.toList ++ t.between)

/-- The stream in the order of the walk. -/
def elements (t : Trail α) : List α := t.visited ++ t.ahead

/-- Do one move. -/
def apply (t : Trail α) : Move α → Answer α × Trail α
  | .next =>
    match t.ahead with
    | [] => (.error .endOfStream, t)
    | a :: rest => (.ok (some a), ⟨t.visited, some a, [], rest⟩)
  | .replace a =>
    match t.current with
    | none => (.error .noCurrent, t)
    | some _ => (.ok none, { t with current := some a })
  | .remove =>
    match t.current with
    | none => (.error .noCurrent, t)
    | some _ => (.ok none, { t with current := none })
  | .insertHere a => (.ok none, { t with between := t.between ++ [a] })
  | .insertAfter a =>
    match t.current, t.between with
    | none, _ => (.error .noCurrent, t)
    | some _, [] => (.ok none, { t with ahead := a :: t.ahead })
    | some _, b :: bs => (.ok none, { t with between := a :: b :: bs })

/-- The cursor that stands at the same place. -/
def cursor (reversed : Bool) (t : Trail α) : Cursor α where
  stream := inWalkOrder reversed t.elements
  pos := t.visited.length
  cur := t.current.map fun _ => t.passed.length
  reversed := reversed

variable {t : Trail α} {a x : α} {l r : List α}

/-! ### The cursor follows the trail -/

theorem set_middle (l r : List α) (x a : α) : (l ++ x :: r).set l.length a = l ++ a :: r := by
  rw [List.set_append_right _ _ (Nat.le_refl _), Nat.sub_self, List.set_cons_zero]

theorem eraseIdx_middle (l r : List α) (x : α) : (l ++ x :: r).eraseIdx l.length = l ++ r := by
  rw [List.eraseIdx_append_of_length_le (Nat.le_refl _), Nat.sub_self, List.eraseIdx_cons_zero]

theorem insertIdx_middle (l r : List α) (a : α) : (l ++ r).insertIdx l.length a = l ++ a :: r := by
  induction l with
  | nil => rfl
  | cons b l ih => rw [List.cons_append, List.length_cons, List.insertIdx_succ_cons, ih, List.cons_append]

theorem getElem?_middle (l r : List α) (x : α) : (l ++ x :: r)[l.length]? = some x := by
  simp

theorem elements_of_current (h : t.current = some x) : t.elements = t.passed ++ x :: (t.between ++ t.ahead) := by
  simp [elements, visited, h]

theorem length_visited (h : t.current = some x) :
    t.visited.length = t.passed.length + 1 + t.between.length := by
  simp only [visited, h, Option.toList_some, List.length_append, List.length_singleton]
  omega

theorem cursor_true (t : Trail α) : t.cursor true = (t.cursor false).mirror := rfl

theorem inBounds_cursor (t : Trail α) : (t.cursor false).InBounds := by
  have hlength : t.elements.length = t.visited.length + t.ahead.length := List.length_append
  refine ⟨Int.natCast_nonneg _, Int.ofNat_le.2 ?_, fun w hw => ?_⟩
  · change t.visited.length ≤ t.elements.length
    omega
  · obtain ⟨x, hx, rfl⟩ := Option.map_eq_some_iff.1 hw
    change t.passed.length < t.elements.length
    rw [elements_of_current hx, List.length_append, List.length_cons]
    omega

theorem current_cursor (t : Trail α) (reversed : Bool) : (t.cursor reversed).current.toOption = t.current := by
  have hforward : (t.cursor false).current.toOption = t.current := by
    cases hx : t.current with
    | none => simp [Cursor.current, cursor, hx, Except.toOption]
    | some x =>
        have helement : (t.cursor false).element? t.passed.length = some x := by
          change t.elements[t.passed.length]? = some x
          rw [elements_of_current hx, getElem?_middle]
        have hcur : (t.cursor false).cur = some t.passed.length := by simp [cursor, hx]
        rw [Cursor.current, hcur, Option.bind_some, helement]
        rfl
  cases reversed with
  | false => exact hforward
  | true => rw [cursor_true, (inBounds_cursor t).current_mirror, hforward]

theorem eq_cursor {c : Cursor α} (hstream : c.stream = t.elements) (hpos : c.pos = t.visited.length)
    (hcur : c.cur = t.current.map fun _ => t.passed.length) (hforward : c.reversed = false) :
    c = t.cursor false := by
  cases c
  simp_all [cursor, inWalkOrder]

theorem next_cursor (t : Trail α) :
    (t.cursor false).apply (Move.next : Move α).op = ((t.apply .next).1, (t.apply .next).2.cursor false) := by
  change ((t.cursor false).next.1.map some, (t.cursor false).next.2) = _
  cases hahead : t.ahead with
  | nil =>
      have hnext : (t.cursor false).hasNext = false := by
        simp [hasNext, cursor, inWalkOrder, elements, hahead]
      simp [Cursor.next, hnext, apply, hahead, Except.map]
  | cons a rest =>
      have helements : t.elements = t.visited ++ a :: rest := by rw [elements, hahead]
      have hlength : t.elements.length = t.visited.length + (rest.length + 1) := by
        rw [helements, List.length_append, List.length_cons]
      have hnext : (t.cursor false).hasNext = true := by
        refine decide_eq_true (Int.ofNat_lt.2 ?_)
        change t.visited.length < t.elements.length
        omega
      have helement : (t.cursor false).element? t.visited.length = some a := by
        change t.elements[t.visited.length]? = some a
        rw [helements, getElem?_middle]
      have hpeek : (t.cursor false).peek = .ok a := by
        have hpos : (t.cursor false).pos = .ofNat t.visited.length := rfl
        rw [peek, if_pos hnext, hpos]
        dsimp only
        rw [helement]
      have hpos : ¬(t.cursor false).pos < 0 := Int.not_lt.2 (Int.natCast_nonneg _)
      rw [Cursor.next, if_pos hnext, hpeek, if_neg hpos]
      simp only [apply, hahead, Except.map]
      refine congrArg _ (eq_cursor ?_ ?_ rfl rfl)
      · change t.elements = _
        rw [helements]
        simp [elements, visited]
      · simp [cursor, visited]
        omega

theorem replace_cursor (t : Trail α) (a : α) :
    (t.cursor false).apply (Move.replace a).op =
      ((t.apply (.replace a)).1, (t.apply (.replace a)).2.cursor false) := by
  change (t.cursor false).edited ((t.cursor false).setCurrent a) = _
  cases hx : t.current with
  | none => simp [Cursor.setCurrent, edited, apply, cursor, hx]
  | some x =>
      have hcur : (t.cursor false).cur = some t.passed.length := by simp [cursor, hx]
      simp only [Cursor.setCurrent, hcur, edited, apply, hx]
      refine congrArg _ (eq_cursor ?_ ?_ rfl rfl)
      · change t.elements.set t.passed.length a = _
        rw [elements_of_current hx, set_middle]
        simp [elements, visited]
      · simp [cursor, visited, hx]

theorem remove_cursor (t : Trail α) :
    (t.cursor false).apply (Move.remove : Move α).op =
      ((t.apply .remove).1, (t.apply .remove).2.cursor false) := by
  change (t.cursor false).edited (t.cursor false).removeCurrent = _
  cases hx : t.current with
  | none => simp [Cursor.removeCurrent, edited, apply, cursor, hx]
  | some x =>
      have hcur : (t.cursor false).cur = some t.passed.length := by simp [cursor, hx]
      have hlength := length_visited hx
      have hlt : (t.passed.length : Int) < (t.cursor false).pos := by
        change (t.passed.length : Int) < t.visited.length
        omega
      simp only [Cursor.removeCurrent, hcur, if_pos hlt, edited, apply, hx]
      refine congrArg _ (eq_cursor ?_ ?_ rfl rfl)
      · change t.elements.eraseIdx t.passed.length = _
        rw [elements_of_current hx, eraseIdx_middle]
        simp [elements, visited]
      · change (t.visited.length : Int) - 1 = _
        simp only [visited, Option.toList_none, List.nil_append, List.length_append] at hlength ⊢
        omega

theorem insertHere_cursor (t : Trail α) (a : α) :
    (t.cursor false).apply (Move.insertHere a).op =
      ((t.apply (.insertHere a)).1, (t.apply (.insertHere a)).2.cursor false) := by
  change (t.cursor false).edited ((t.cursor false).insertHere a) = _
  have hbehind : (t.cursor false).cur.map (fun (w : Nat) => if (t.cursor false).pos ≤ (w : Int) then w + 1 else w) =
      (t.cursor false).cur := by
    cases hx : t.current with
    | none => simp [cursor, hx]
    | some x =>
        have hlength := length_visited hx
        have hnot : ¬(t.cursor false).pos ≤ (t.passed.length : Int) := by
          change ¬(t.visited.length : Int) ≤ t.passed.length
          omega
        have hcur : (t.cursor false).cur = some t.passed.length := by simp [cursor, hx]
        rw [hcur, Option.map_some, if_neg hnot]
  rw [Cursor.insertHere, if_pos (inBounds_cursor t).inRange, hbehind]
  simp only [edited, apply]
  refine congrArg _ (eq_cursor ?_ ?_ rfl rfl)
  · change (t.visited ++ t.ahead).insertIdx t.visited.length a = _
    rw [insertIdx_middle]
    simp [elements, visited]
  · simp [cursor, visited]
    omega

theorem insertAfter_cursor (t : Trail α) (a : α) :
    (t.cursor false).apply (Move.insertAfter a).op =
      ((t.apply (.insertAfter a)).1, (t.apply (.insertAfter a)).2.cursor false) := by
  change (t.cursor false).edited ((t.cursor false).insertAfterCurrent a) = _
  cases hx : t.current with
  | none => simp [Cursor.insertAfterCurrent, edited, apply, cursor, hx]
  | some x =>
      have hcur : (t.cursor false).cur = some t.passed.length := by simp [cursor, hx]
      have hlength := length_visited hx
      have hstream : t.elements.insertIdx (t.passed.length + 1) a =
          t.passed ++ x :: a :: (t.between ++ t.ahead) := by
        have hmiddle := insertIdx_middle (t.passed ++ [x]) (t.between ++ t.ahead) a
        rw [List.length_append, List.length_singleton] at hmiddle
        simpa [elements_of_current hx] using hmiddle
      have hpos : (t.cursor false).pos = t.visited.length := rfl
      simp only [Cursor.insertAfterCurrent, hcur, edited, hpos]
      -- behind the last visited element it lies ahead, otherwise among those visited
      cases hbetween : t.between with
      | nil =>
          rw [hbetween, List.length_nil] at hlength
          simp only [apply, hx, hbetween]
          refine congrArg _ (eq_cursor ?_ ?_ ?_ rfl)
          · refine Eq.trans hstream ?_
            simp [elements, visited, hbetween]
          · rw [if_neg (by omega)]
            simp [visited, hx, hbetween]
          · simp
      | cons b bs =>
          rw [hbetween, List.length_cons] at hlength
          simp only [apply, hx, hbetween]
          refine congrArg _ (eq_cursor ?_ ?_ ?_ rfl)
          · refine Eq.trans hstream ?_
            simp [elements, visited, hbetween]
          · rw [if_pos (by omega), hlength]
            simp [visited]
            omega
          · simp

theorem apply_cursor (t : Trail α) (reversed : Bool) (m : Move α) :
    (t.cursor reversed).apply m.op = ((t.apply m).1, (t.apply m).2.cursor reversed) := by
  have hforward : (t.cursor false).apply m.op = ((t.apply m).1, (t.apply m).2.cursor false) := by
    cases m with
    | next => exact next_cursor t
    | replace a => exact replace_cursor t a
    | remove => exact remove_cursor t
    | insertHere a => exact insertHere_cursor t a
    | insertAfter a => exact insertAfter_cursor t a
  cases reversed with
  | false => exact hforward
  | true => rw [cursor_true, (inBounds_cursor t).apply_mirror, hforward, cursor_true]

def run (t : Trail α) : List (Move α) → List (Answer α) × Trail α
  | [] => ([], t)
  | m :: ms =>
    let (answer, t') := t.apply m
    let (answers, t'') := t'.run ms
    (answer :: answers, t'')

theorem walk_cursor (t : Trail α) (reversed : Bool) (ms : List (Move α)) :
    (t.cursor reversed).walk ms = ((t.run ms).1, (t.run ms).2.cursor reversed) := by
  induction ms generalizing t with
  | nil => rfl
  | cons m ms ih =>
      have hrest := ih (t.apply m).2
      rw [walk] at hrest
      rw [walk, List.map_cons, Cursor.run, apply_cursor]
      simp only [hrest, run]

/-! ### What a move returns, takes and puts -/

theorem discarded_cursor (t : Trail α) (reversed : Bool) (m : Move α) :
    (t.cursor reversed).discarded m =
      match m with
      | .replace _ | .remove => t.current.toList
      | _ => [] := by
  cases m <;> simp only [discarded, current_cursor]

theorem admitted_cursor (t : Trail α) (reversed : Bool) (m : Move α) :
    (t.cursor reversed).admitted m =
      match (t.apply m).1 with
      | .ok _ => m.element?.toList
      | .error _ => [] := by
  rw [admitted, apply_cursor]

/-- What a move returns was the first element ahead, and only one that is inserted behind the last element
visited comes to lie ahead. -/
theorem ahead_apply (t : Trail α) (m : Move α) :
    returned [(t.apply m).1] ++ (t.apply m).2.ahead = t.ahead ∨
      ∃ a, m = .insertAfter a ∧ returned [(t.apply m).1] ++ (t.apply m).2.ahead = a :: t.ahead := by
  cases m with
  | next => cases hahead : t.ahead <;> simp [apply, returned, hahead, Except.toOption]
  | replace a | remove => cases hx : t.current <;> simp [apply, returned, hx, Except.toOption]
  | insertHere a => simp [apply, returned, Except.toOption]
  | insertAfter a =>
      cases hx : t.current with
      | none => simp [apply, returned, hx, Except.toOption]
      | some x => cases hbetween : t.between <;> simp [apply, returned, hx, hbetween, Except.toOption]

/-- A move puts what it admits into the place of what it discards. -/
theorem exists_edit (t : Trail α) (reversed : Bool) (m : Move α) :
    ∃ front back, t.elements = front ++ ((t.cursor reversed).discarded m ++ back) ∧
      (t.apply m).2.elements = front ++ ((t.cursor reversed).admitted m ++ back) := by
  rw [discarded_cursor, admitted_cursor]
  cases m with
  | next =>
      refine ⟨[], t.elements, rfl, ?_⟩
      cases hahead : t.ahead <;> simp [apply, hahead, elements, visited, Move.element?]
  | replace a =>
      cases hx : t.current with
      | none => exact ⟨[], t.elements, rfl, by simp [apply, hx]⟩
      | some x =>
          refine ⟨t.passed, t.between ++ t.ahead, elements_of_current hx, ?_⟩
          simp [apply, hx, elements, visited, Move.element?]
  | remove =>
      cases hx : t.current with
      | none => exact ⟨[], t.elements, rfl, by simp [apply, hx]⟩
      | some x =>
          refine ⟨t.passed, t.between ++ t.ahead, elements_of_current hx, ?_⟩
          simp [apply, hx, elements, visited, Move.element?]
  | insertHere a =>
      refine ⟨t.visited, t.ahead, rfl, ?_⟩
      simp [apply, elements, visited, Move.element?]
  | insertAfter a =>
      cases hx : t.current with
      | none => exact ⟨[], t.elements, rfl, by simp [apply, hx]⟩
      | some x =>
          refine ⟨t.passed ++ [x], t.between ++ t.ahead, ?_, ?_⟩
          · simp [elements_of_current hx]
          · cases hbetween : t.between <;> simp [apply, hx, hbetween, elements, visited, Move.element?]

/-! ### What a walk returns, takes and puts -/

theorem returned_run_cons (t : Trail α) (m : Move α) (ms : List (Move α)) :
    returned (t.run (m :: ms)).1 = returned [(t.apply m).1] ++ returned ((t.apply m).2.run ms).1 :=
  List.filterMap_append (l := [(t.apply m).1])

/-- Everything ahead is returned in order, or still lies ahead in order. -/
theorem ahead_sublist_run (t : Trail α) (ms : List (Move α)) :
    t.ahead.Sublist (returned (t.run ms).1 ++ (t.run ms).2.ahead) := by
  induction ms generalizing t with
  | nil => exact List.Sublist.refl _
  | cons m ms ih =>
      have hfirst : t.ahead.Sublist (returned [(t.apply m).1] ++ (t.apply m).2.ahead) := by
        rcases ahead_apply t m with heq | ⟨a, -, heq⟩
        · rw [heq]
        · rw [heq]
          exact List.sublist_cons_self a t.ahead
      rw [returned_run_cons, List.append_assoc]
      exact hfirst.trans ((ih (t.apply m).2).append_left _)

/-- Nothing is returned or comes to lie ahead but what lay ahead and what is inserted behind a current
element, each of it once. -/
theorem run_subperm_ahead (t : Trail α) (ms : List (Move α)) :
    (returned (t.run ms).1 ++ (t.run ms).2.ahead).Subperm (t.ahead ++ ms.filterMap Move.following?) := by
  induction ms generalizing t with
  | nil => exact (List.append_nil t.ahead).symm ▸ List.Subperm.refl t.ahead
  | cons m ms ih =>
      have hrest := (List.subperm_append_left (returned [(t.apply m).1])).2 (ih (t.apply m).2)
      rw [returned_run_cons, List.append_assoc]
      refine hrest.trans ?_
      rw [← List.append_assoc]
      rcases ahead_apply t m with heq | ⟨a, rfl, heq⟩
      · rw [heq]
        exact ((List.sublist_cons_self m ms).filterMap _).append_left t.ahead |>.subperm
      · rw [heq]
        exact List.perm_middle.symm.subperm

/-- The elements at the end and those lost on the way are those at the start and those placed on the way. -/
theorem run_perm_elements (t : Trail α) (reversed : Bool) (ms : List (Move α)) :
    ((t.run ms).2.elements ++ (t.cursor reversed).lost ms).Perm (t.elements ++ (t.cursor reversed).placed ms) := by
  induction ms generalizing t with
  | nil => exact List.Perm.refl _
  | cons m ms ih =>
      obtain ⟨front, back, hbefore, hafter⟩ := exists_edit t reversed m
      rw [lost, placed, apply_cursor]
      set discarded := (t.cursor reversed).discarded m
      set admitted := (t.cursor reversed).admitted m
      set lost := ((t.apply m).2.cursor reversed).lost ms
      set placed := ((t.apply m).2.cursor reversed).placed ms
      have hexchange : (discarded ++ ((t.apply m).2.elements ++ placed)).Perm
          (t.elements ++ (admitted ++ placed)) := by
        classical
        rw [hbefore, hafter]
        refine List.perm_iff_count.2 fun x => ?_
        simp only [List.count_append]
        omega
      have hrest := (ih (t.apply m).2).append_left discarded
      exact (List.perm_append_comm_assoc ..).trans (hrest.trans hexchange)

/-- What stays in the stream stays in order. -/
theorem filter_sublist_run {p : α → Bool} (t : Trail α) (reversed : Bool) {ms : List (Move α)}
    (hp : ∀ x ∈ (t.cursor reversed).lost ms, p x = false) :
    (t.elements.filter p).Sublist (t.run ms).2.elements := by
  induction ms generalizing t with
  | nil => exact List.filter_sublist
  | cons m ms ih =>
      obtain ⟨front, back, hbefore, hafter⟩ := exists_edit t reversed m
      rw [lost, apply_cursor, List.forall_mem_append] at hp
      have hgone : ((t.cursor reversed).discarded m).filter p = [] :=
        List.filter_eq_nil_iff.2 fun x hx => by simp [hp.1 x hx]
      have hstep : (t.elements.filter p).Sublist ((t.apply m).2.elements.filter p) := by
        rw [hbefore, hafter]
        simp only [List.filter_append, hgone, List.nil_append]
        exact (List.sublist_append_right _ _).append_left _
      exact hstep.trans (ih (t.apply m).2 hp.2)

theorem placed_sublist (c : Cursor α) (ms : List (Move α)) : (c.placed ms).Sublist (ms.filterMap Move.element?) := by
  induction ms generalizing c with
  | nil => exact List.Sublist.refl _
  | cons m ms ih =>
      have helements : (m :: ms).filterMap Move.element? = m.element?.toList ++ ms.filterMap Move.element? := by
        cases m <;> rfl
      have hadmitted : (c.admitted m).Sublist m.element?.toList := by
        unfold admitted
        split
        · exact List.Sublist.refl _
        · exact List.nil_sublist _
      rw [placed, helements]
      exact hadmitted.append (ih (c.apply m.op).2)

theorem run_append (t : Trail α) (ms ns : List (Move α)) :
    t.run (ms ++ ns) = ((t.run ms).1 ++ ((t.run ms).2.run ns).1, ((t.run ms).2.run ns).2) := by
  induction ms generalizing t with
  | nil => rfl
  | cons m ms ih => simp only [List.cons_append, run, ih]

theorem lost_append (t : Trail α) (reversed : Bool) (ms ns : List (Move α)) :
    (t.cursor reversed).lost (ms ++ ns) =
      (t.cursor reversed).lost ms ++ ((t.run ms).2.cursor reversed).lost ns := by
  induction ms generalizing t with
  | nil => rfl
  | cons m ms ih =>
      rw [List.cons_append, lost, lost, apply_cursor, ih, List.append_assoc]
      rfl

/-! ### Other elements in the same places -/

/-- The same place of a walk over other elements. -/
def map (f : α → β) (t : Trail α) : Trail β where
  passed := t.passed.map f
  current := t.current.map f
  between := t.between.map f
  ahead := t.ahead.map f

theorem visited_map (f : α → β) (t : Trail α) : (t.map f).visited = t.visited.map f := by
  cases hx : t.current <;> simp [visited, map, hx]

theorem elements_map (f : α → β) (t : Trail α) : (t.map f).elements = t.elements.map f := by
  rw [elements, visited_map, elements, List.map_append]
  rfl

theorem apply_map (f : α → β) (t : Trail α) (m : Move α) :
    (t.map f).apply (m.map f) = ((t.apply m).1.map (Option.map f), (t.apply m).2.map f) := by
  cases m with
  | next =>
      have hvisited := visited_map f t
      cases hahead : t.ahead <;> simp [Move.map, apply, map, hahead, Except.map]
      exact hvisited
  | replace a | remove => cases hx : t.current <;> simp [Move.map, apply, map, hx, Except.map]
  | insertHere a => simp [Move.map, apply, map, Except.map]
  | insertAfter a =>
      cases hx : t.current with
      | none => simp [Move.map, apply, map, hx, Except.map]
      | some x => cases hbetween : t.between <;> simp [Move.map, apply, map, hx, hbetween, Except.map]

/-- A walk does not look at the elements. -/
theorem run_map (f : α → β) (t : Trail α) (ms : List (Move α)) :
    (t.map f).run (ms.map (Move.map f)) = ((t.run ms).1.map (Except.map (Option.map f)), (t.run ms).2.map f) := by
  induction ms generalizing t with
  | nil => rfl
  | cons m ms ih => simp only [List.map_cons, run, apply_map, ih]

/-- The trail of a walk that has not begun. -/
def start (reversed : Bool) (s : List α) : Trail α := { ahead := inWalkOrder reversed s }

theorem fresh_eq_cursor (reversed : Bool) (s : List α) : fresh reversed s = (start reversed s).cursor reversed := by
  cases reversed with
  | false => rfl
  | true =>
      have hstream : s = s.reverse.reverse := s.reverse_reverse.symm
      exact congrArg (fun s => Cursor.mk s 0 none true) hstream

theorem start_map (f : α → β) (reversed : Bool) (s : List α) :
    start reversed (s.map f) = (start reversed s).map f := by
  cases reversed <;> simp [start, map, inWalkOrder]

theorem ahead_eq_nil (reversed : Bool) (h : (t.cursor reversed).next.1 = .error .endOfStream) : t.ahead = [] := by
  have hnext : (t.cursor reversed).next.1.map some = (t.apply .next).1 :=
    congrArg Prod.fst (apply_cursor t reversed .next)
  rw [h] at hnext
  cases hahead : t.ahead with
  | nil => rfl
  | cons a rest =>
      rw [apply, hahead] at hnext
      cases hnext

end Trail

/-! ## Labels -/

/-- Where an element of a stream comes from: a place of the stream at the start, or a move of the walk. -/
inductive Origin where
  | given (i : Nat)
  | placed (k : Nat)
  deriving DecidableEq

/-- Whether an element was in the stream at the start. -/
def Origin.isGiven : Origin → Bool
  | given _ => true
  | placed _ => false

/-- A stream with the places of its elements. -/
def labelled (s : List α) : List (Origin × α) := s.zipIdx.map fun x => (.given x.2, x.1)

/-- The moves of a walk, each element with the number of its move. -/
def labelledMoves (ms : List (Move α)) : List (Move (Origin × α)) :=
  ms.zipIdx.map fun x => x.1.map fun a => (.placed x.2, a)

theorem map_snd_labelled (s : List α) : (labelled s).map Prod.snd = s := by
  simp [labelled, Function.comp_def]

theorem map_snd_labelledMoves (ms : List (Move α)) : (labelledMoves ms).map (Move.map Prod.snd) = ms := by
  have hmap : ∀ x : Move α × Nat, ((x.1.map fun a => (Origin.placed x.2, a)).map Prod.snd) = x.1 := by
    rintro ⟨m, k⟩
    cases m <;> rfl
  simp [labelledMoves, Function.comp_def, hmap]

theorem map_fst_labelled (s : List α) : (labelled s).map Prod.fst = (List.range' 0 s.length).map .given := by
  rw [← List.zipIdx_map_snd, labelled, List.map_map, List.map_map]
  rfl

theorem getElem?_labelledMoves (ms : List (Move α)) (k : Nat) :
    (labelledMoves ms)[k]? = ms[k]?.map (Move.map fun a => (.placed k, a)) := by
  simp [labelledMoves, Function.comp_def]

/-- The label of an element leads to the move that brings it along. -/
theorem getElem?_of_mem_labelledMoves {ms : List (Move α)} {m : Move (Origin × α)} {x : Origin × α}
    (hm : m ∈ labelledMoves ms) (hx : m.element? = some x) :
    ∃ k, x.1 = .placed k ∧ (labelledMoves ms)[k]? = some m := by
  obtain ⟨k, hk⟩ := List.mem_iff_getElem?.1 hm
  refine ⟨k, ?_, hk⟩
  rw [getElem?_labelledMoves] at hk
  obtain ⟨n, -, rfl⟩ := Option.map_eq_some_iff.1 hk
  cases n <;> cases hx <;> rfl

theorem labels_sublist (ms : List (Move α)) :
    (((labelledMoves ms).filterMap Move.element?).map Prod.fst).Sublist
      ((List.range' 0 ms.length).map .placed) := by
  unfold labelledMoves
  generalize 0 = k
  induction ms generalizing k with
  | nil => exact List.Sublist.refl _
  | cons m ms ih =>
      have hrest := ih (k + 1)
      rw [List.length_cons, List.range'_succ, List.zipIdx_cons, List.map_cons, List.map_cons]
      cases m with
      | next | remove => exact hrest.cons _
      | replace a | insertHere a | insertAfter a => exact hrest.cons_cons _

theorem inWalkOrder_perm (reversed : Bool) (s : List α) : (inWalkOrder reversed s).Perm s := by
  unfold inWalkOrder
  split
  · exact s.reverse_perm
  · exact .refl s

theorem isGiven_of_mem_labelled {s : List α} {x : Origin × α} (hx : x ∈ labelled s) : x.1.isGiven = true := by
  obtain ⟨y, -, rfl⟩ := List.mem_map.1 hx
  rfl

theorem isGiven_of_mem_labelledMoves {ms : List (Move α)} {x : Origin × α}
    (hx : x ∈ (labelledMoves ms).filterMap Move.element?) : x.1.isGiven = false := by
  obtain ⟨m, hm, hx⟩ := List.mem_filterMap.1 hx
  obtain ⟨k, hk, -⟩ := getElem?_of_mem_labelledMoves hm hx
  rw [hk, Origin.isGiven]

theorem nodup_labels (reversed : Bool) (s : List α) (ms : List (Move α)) :
    ((inWalkOrder reversed (labelled s) ++ (labelledMoves ms).filterMap Move.element?).map Prod.fst).Nodup := by
  have hgiven : ((inWalkOrder reversed (labelled s)).map Prod.fst).Nodup := by
    rw [((inWalkOrder_perm reversed (labelled s)).map Prod.fst).nodup_iff, map_fst_labelled]
    exact List.Nodup.map (fun i j hij => Origin.given.inj hij) List.nodup_range'
  have hplaced : (((labelledMoves ms).filterMap Move.element?).map Prod.fst).Nodup :=
    (labels_sublist ms).nodup (List.Nodup.map (fun i j hij => Origin.placed.inj hij) List.nodup_range')
  rw [List.map_append, List.nodup_append]
  refine ⟨hgiven, hplaced, ?_⟩
  intro label hlabel _ hlabel' heq
  obtain ⟨x, hx, rfl⟩ := List.mem_map.1 hlabel
  obtain ⟨y, hy, rfl⟩ := List.mem_map.1 hlabel'
  have hxgiven := isGiven_of_mem_labelled ((inWalkOrder_perm reversed _).mem_iff.1 hx)
  rw [heq, isGiven_of_mem_labelledMoves hy] at hxgiven
  cases hxgiven

theorem following_sublist (ms : List (Move α)) :
    (ms.filterMap Move.following?).Sublist (ms.filterMap Move.element?) := by
  induction ms with
  | nil => exact List.Sublist.refl _
  | cons m ms ih =>
      cases m with
      | next | remove => exact ih
      | replace a | insertHere a => exact ih.cons a
      | insertAfter a => exact ih.cons_cons a

theorem insertAfter_of_mem {ms : List (Move α)} {x : α} (h : x ∈ ms.filterMap Move.following?) :
    .insertAfter x ∈ ms := by
  obtain ⟨m, hm, hx⟩ := List.mem_filterMap.1 h
  cases m <;> cases hx
  exact hm

/-- A list that holds another in order, and besides only what does not pass, passes to the other. -/
theorem filter_eq_of_sublist {p : β → Bool} {l g f : List β} (hsub : g.Sublist l) (hperm : l.Subperm (g ++ f))
    (hg : ∀ x ∈ g, p x = true) (hf : ∀ x ∈ f, p x = false) : l.filter p = g := by
  have hpass : g.filter p = g := List.filter_eq_self.2 hg
  have hfail : f.filter p = [] := List.filter_eq_nil_iff.2 fun x hx => by simp [hf x hx]
  have hle : g.Sublist (l.filter p) := hpass ▸ hsub.filter p
  have hge : (l.filter p).Subperm g := by
    have hfilter := hperm.filter p
    rwa [List.filter_append, hpass, hfail, List.append_nil] at hfilter
  exact (hle.eq_of_length_le hge.length_le).symm

theorem nodup_map_of_subperm {f : α → β} {l r : List α} (h : l.Subperm r) (hr : (r.map f).Nodup) :
    (l.map f).Nodup := by
  obtain ⟨l', hperm, hsub⟩ := h
  exact (hperm.map f).nodup_iff.1 ((hsub.map f).nodup hr)

section Labelled

variable (reversed : Bool) (s : List α) (ms : List (Move α))

theorem walk_eq_run :
    (fresh reversed s).walk ms =
      (((Trail.start reversed (labelled s)).run (labelledMoves ms)).1.map (Except.map (Option.map Prod.snd)),
        (((Trail.start reversed (labelled s)).run (labelledMoves ms)).2.map Prod.snd).cursor reversed) := by
  have hrun := Trail.run_map Prod.snd (Trail.start reversed (labelled s)) (labelledMoves ms)
  rw [map_snd_labelledMoves, ← Trail.start_map, map_snd_labelled] at hrun
  rw [Trail.fresh_eq_cursor, Trail.walk_cursor, hrun]

/-- The labels tell the elements of a walk apart and change nothing else. -/
theorem walk_labelled :
    let w := (fresh reversed (labelled s)).walk (labelledMoves ms)
    ((fresh reversed s).walk ms).1 = w.1.map (Except.map (Option.map Prod.snd)) ∧
      ((fresh reversed s).walk ms).2.stream = w.2.stream.map Prod.snd := by
  intro w
  have hw : w = _ := (congrArg (Cursor.walk · (labelledMoves ms)) (Trail.fresh_eq_cursor reversed (labelled s))).trans
    (Trail.walk_cursor _ reversed (labelledMoves ms))
  rw [walk_eq_run, hw]
  refine ⟨rfl, ?_⟩
  have horder : ∀ l : List (Origin × α), inWalkOrder reversed (l.map Prod.snd) = (inWalkOrder reversed l).map Prod.snd := by
    intro l
    cases reversed <;> simp [inWalkOrder]
  exact (congrArg (inWalkOrder reversed) (Trail.elements_map _ _)).trans (horder _)

variable {reversed s ms}

theorem ahead_of_end (hend : ((fresh reversed s).walk ms).2.next.1 = .error .endOfStream) :
    ((Trail.start reversed (labelled s)).run (labelledMoves ms)).2.ahead = [] := by
  rw [walk_eq_run] at hend
  have hnil := Trail.ahead_eq_nil reversed hend
  exact List.map_eq_nil_iff.1 hnil

/-- Exactly what was in the stream is returned, in order, and besides some of what is inserted behind a current
element, each of it once. -/
theorem returned_of_end (hend : ((fresh reversed s).walk ms).2.next.1 = .error .endOfStream) :
    let answers := ((Trail.start reversed (labelled s)).run (labelledMoves ms)).1
    (inWalkOrder reversed (labelled s)).Sublist (returned answers) ∧
      (returned answers).Subperm
        (inWalkOrder reversed (labelled s) ++ (labelledMoves ms).filterMap Move.following?) := by
  have hsub := Trail.ahead_sublist_run (Trail.start reversed (labelled s)) (labelledMoves ms)
  have hperm := Trail.run_subperm_ahead (Trail.start reversed (labelled s)) (labelledMoves ms)
  rw [ahead_of_end hend, List.append_nil] at hsub hperm
  exact ⟨hsub, hperm⟩

variable (reversed s ms)

/-- What is in the stream at the end or has been lost was in the stream or has been placed, with labels of
their own. -/
theorem nodup_elements_lost :
    let t := Trail.start reversed (labelled s)
    (((t.run (labelledMoves ms)).2.elements ++ (t.cursor reversed).lost (labelledMoves ms)).map Prod.fst).Nodup := by
  intro t
  have hperm := Trail.run_perm_elements t reversed (labelledMoves ms)
  have hsub := (Trail.placed_sublist (t.cursor reversed) (labelledMoves ms)).append_left t.elements
  exact nodup_map_of_subperm (hperm.subperm.trans hsub.subperm) (nodup_labels reversed s ms)

theorem mem_elements_iff (x : Origin × α) :
    let t := Trail.start reversed (labelled s)
    x ∈ (t.run (labelledMoves ms)).2.elements ↔
      (x ∈ labelled s ∨ x ∈ (t.cursor reversed).placed (labelledMoves ms)) ∧
        x ∉ (t.cursor reversed).lost (labelledMoves ms) := by
  intro t
  have hmem := (Trail.run_perm_elements t reversed (labelledMoves ms)).mem_iff (a := x)
  have hstart : x ∈ t.elements ↔ x ∈ labelled s := (inWalkOrder_perm reversed (labelled s)).mem_iff
  rw [List.mem_append, List.mem_append, hstart] at hmem
  have hnot : x ∈ (t.run (labelledMoves ms)).2.elements → x ∉ (t.cursor reversed).lost (labelledMoves ms) :=
    fun hx hlost => List.disjoint_of_nodup_append (nodup_elements_lost reversed s ms).of_map hx hlost
  rw [← hmem]
  constructor
  · exact fun hx => ⟨.inl hx, hnot hx⟩
  · rintro ⟨hx | hx, hlost⟩
    · exact hx
    · exact absurd hx hlost

/-- What is in the stream at any moment and is never lost stands in the same order at the end. -/
theorem filter_sublist_elements (n : Nat) :
    let t := Trail.start reversed (labelled s)
    ((t.run ((labelledMoves ms).take n)).2.elements.filter
        (·.1 ∉ ((t.cursor reversed).lost (labelledMoves ms)).map Prod.fst)).Sublist
      (t.run (labelledMoves ms)).2.elements := by
  intro t
  have hsplit := List.take_append_drop n (labelledMoves ms)
  have hrun : (t.run (labelledMoves ms)).2 =
      ((t.run ((labelledMoves ms).take n)).2.run ((labelledMoves ms).drop n)).2 := by
    rw [← congrArg Prod.snd (Trail.run_append t _ _), hsplit]
  rw [hrun]
  refine Trail.filter_sublist_run _ reversed fun x hx => ?_
  have hlost : x ∈ (t.cursor reversed).lost (labelledMoves ms) := by
    rw [← hsplit, Trail.lost_append]
    exact List.mem_append_right _ hx
  simpa using ⟨x.2, hlost⟩

end Labelled

/-- Whatever edits a walk makes: the elements that were in the stream are returned once each, in the order of
the walk; what is inserted is returned once at most, and never if it was inserted at the boundary; and the
stream ends with exactly what it had or got and has not lost, which has kept its order from every moment of
the walk on.  At every moment the cursor stands where the trail stands: a replacement lands in the place of the
current element, an insertion right behind it or in front of what lies ahead. -/
theorem walk_visits_once (reversed : Bool) (s : List α) (ms : List (Move α))
    (hend : ((fresh reversed s).walk ms).2.next.1 = .error .endOfStream) :
    let c := fresh reversed (labelled s)
    let w := c.walk (labelledMoves ms)
    let lost := c.lost (labelledMoves ms)
    (((fresh reversed s).walk ms).1 = w.1.map (Except.map (Option.map Prod.snd)) ∧
      ((fresh reversed s).walk ms).2.stream = w.2.stream.map Prod.snd) ∧
    (returned w.1).filter (·.1.isGiven) = inWalkOrder reversed (labelled s) ∧
    ((returned w.1).map Prod.fst).Nodup ∧
    (∀ x ∈ returned w.1, x ∉ labelled s → .insertAfter x ∈ labelledMoves ms) ∧
    (∀ x, .insertHere x ∈ labelledMoves ms → x ∉ returned w.1) ∧
    (w.2.stream.map Prod.fst).Nodup ∧
    (∀ x, x ∈ w.2.stream ↔ (x ∈ labelled s ∨ x ∈ c.placed (labelledMoves ms)) ∧ x ∉ lost) ∧
    (∀ n, ((c.walk ((labelledMoves ms).take n)).2.stream.filter (·.1 ∉ lost.map Prod.fst)).Sublist
      w.2.stream) ∧
    ∀ n, let t := (Trail.start reversed (labelled s)).run ((labelledMoves ms).take n)
      c.walk ((labelledMoves ms).take n) = (t.1, t.2.cursor reversed) := by
  rw [Trail.fresh_eq_cursor reversed (labelled s)]
  intro c w lost
  have hwalk : ∀ ns, c.walk ns = _ := Trail.walk_cursor (Trail.start reversed (labelled s)) reversed
  have hanswers : w.1 = ((Trail.start reversed (labelled s)).run (labelledMoves ms)).1 :=
    congrArg Prod.fst (hwalk _)
  have hstream : ∀ ns, (c.walk ns).2.stream =
      inWalkOrder reversed ((Trail.start reversed (labelled s)).run ns).2.elements := by
    intro ns
    rw [hwalk]
    rfl
  have hperm : w.2.stream.Perm ((Trail.start reversed (labelled s)).run (labelledMoves ms)).2.elements :=
    (hstream _) ▸ inWalkOrder_perm reversed _
  obtain ⟨hsub, hsubperm⟩ := returned_of_end hend
  rw [← hanswers] at hsub hsubperm
  have hgiven : ∀ x ∈ inWalkOrder reversed (labelled s), x.1.isGiven = true := fun x hx =>
    isGiven_of_mem_labelled ((inWalkOrder_perm reversed _).mem_iff.1 hx)
  have hfollowing := following_sublist (labelledMoves ms)
  refine ⟨?_, ?_, ?_, fun x hx hnot => ?_, fun x hhere hx => ?_, ?_, fun x => ?_, fun n => ?_,
    fun n => hwalk _⟩
  · have hlabels := walk_labelled reversed s ms
    rwa [Trail.fresh_eq_cursor reversed (labelled s)] at hlabels
  · exact filter_eq_of_sublist hsub hsubperm hgiven fun x hx => isGiven_of_mem_labelledMoves (hfollowing.subset hx)
  · refine nodup_map_of_subperm (hsubperm.trans ?_) (nodup_labels reversed s ms)
    exact (hfollowing.append_left _).subperm
  · rcases List.mem_append.1 (hsubperm.subset hx) with hx | hx
    · exact absurd ((inWalkOrder_perm reversed _).mem_iff.1 hx) hnot
    · exact insertAfter_of_mem hx
  · -- the label of an element leads back to one move only
    obtain ⟨k, hk, hmove⟩ := getElem?_of_mem_labelledMoves hhere rfl
    rcases List.mem_append.1 (hsubperm.subset hx) with hx | hx
    · have hlabel := hgiven x hx
      rw [hk] at hlabel
      cases hlabel
    · obtain ⟨k', hk', hmove'⟩ := getElem?_of_mem_labelledMoves (insertAfter_of_mem hx) rfl
      rw [hk, Origin.placed.injEq] at hk'
      rw [hk', hmove'] at hmove
      cases hmove
  · have hnodup := nodup_elements_lost reversed s ms
    exact (hperm.map Prod.fst).nodup_iff.2 (((List.sublist_append_left _ _).map Prod.fst).nodup hnodup)
  · rw [hperm.mem_iff]
    exact mem_elements_iff reversed s ms x
  · rw [hstream ((labelledMoves ms).take n), hstream (labelledMoves ms)]
    have hkept := filter_sublist_elements reversed s ms n
    cases reversed with
    | false => exact hkept
    | true => simpa [inWalkOrder, List.filter_reverse] using hkept.reverse

/-- A walk that inserts on both sides of its place, takes out what it has inserted, and is refused where no
element is current. -/
def editedWalk : List (Move Nat) :=
  [.remove, .insertHere 10, .next, .insertAfter 20, .next, .replace 21, .insertHere 30, .insertAfter 40, .next,
    .remove, .insertAfter 50, .insertHere 60, .next, .next]

theorem walk_visits_once_backward :
    ((fresh true [1, 2, 3]).walk editedWalk).2.next.1 = .error .endOfStream ∧
      ((fresh true [1, 2, 3]).walk editedWalk).2.stream = [1, 60, 30, 40, 21, 3, 10] ∧
      (returned ((fresh true (labelled [1, 2, 3])).walk (labelledMoves editedWalk)).1).filter (·.1.isGiven) =
        [(.given 2, 3), (.given 1, 2), (.given 0, 1)] := by
  have hend : ((fresh true [1, 2, 3]).walk editedWalk).2.next.1 = .error .endOfStream := rfl
  obtain ⟨-, hgiven, -⟩ := walk_visits_once true [1, 2, 3] editedWalk hend
  exact ⟨hend, rfl, hgiven⟩

end Cursor

end Datapack.Ir
