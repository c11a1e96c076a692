import Datapack.Ir.Cursor
import Mathlib.Data.List.Basic

/-!
# Walks in both directions

A cursor that walks backwards over a stream and one that walks forwards over the reversed stream show the
same at every step.  `Mirrors` relates the two: the boundary and the current element stand at the same
places of the walk, and the streams are reversals of each other.  Every operation keeps the relation, because
every operation edits a place of the walk and a place of the walk is one place of the stream in each of
them.  The positions stay in the stream on the way, so that turning a cursor twice loses nothing.
-/

namespace Datapack.Ir

namespace Cursor

variable {α : Type}

/-! ## Operations -/

/-- The numbers from here on are no machine integers. -/
def wordLimit : Nat := 9223372036854775808

/-- What can be done with a cursor. -/
inductive Op (α : Type) where
  | next
  | peek
  | current
  | setCurrent (a : α)
  | removeCurrent
  | insertHere (a : α)
  | insertAfterCurrent (a : α)
  | insertAndContinueWith (a : α)
  | rollback (n : Fin wordLimit)
  | reverse

/-- What an operation answers: the element it returns, if it returns one, or why it is refused. -/
abbrev Answer (α : Type) := Except CursorError (Option α)

/-- The outcome of an edit; a refused one changes nothing. -/
def edited (c : Cursor α) : Except CursorError (Cursor α) → Answer α × Cursor α
  | .ok c' => (.ok none, c')
  | .error e => (.error e, c)

def apply (c : Cursor α) : Op α → Answer α × Cursor α
  | .next => (c.next.1.map some, c.next.2)
  | .peek => (c.peek.map some, c)
  | .current => (c.current.map some, c)
  | .setCurrent a => c.edited (c.setCurrent a)
  | .removeCurrent => c.edited c.removeCurrent
  | .insertHere a => c.edited (c.insertHere a)
  | .insertAfterCurrent a => c.edited (c.insertAfterCurrent a)
  | .insertAndContinueWith a => c.edited (c.insertAndContinueWith a)
  | .rollback n => (.ok none, c.rollback (n : Nat))
  | .reverse => (.ok none, c.reverse)

/-- Do one thing after the other; the answers in order, and the cursor at the end. -/
def run (c : Cursor α) : List (Op α) → List (Answer α) × Cursor α
  | [] => ([], c)
  | op :: ops =>
    let (answer, c') := c.apply op
    let (answers, c'') := c'.run ops
    (answer :: answers, c'')

/-! ## Edits of a reversed list -/

theorem set_reverse (l : List α) {i : Nat} (h : i < l.length) (a : α) :
    l.reverse.set (l.length - 1 - i) a = (l.set i a).reverse := by
  apply List.ext_getElem?
  intro j
  grind

theorem eraseIdx_reverse (l : List α) {i : Nat} (h : i < l.length) :
    l.reverse.eraseIdx (l.length - 1 - i) = (l.eraseIdx i).reverse := by
  apply List.ext_getElem?
  intro j
  grind

theorem insertIdx_reverse (l : List α) {i : Nat} (h : i ≤ l.length) (a : α) :
    l.reverse.insertIdx (l.length - i) a = (l.insertIdx i a).reverse := by
  apply List.ext_getElem?
  intro j
  grind

/-! ## Positions -/

/-- The boundary and the current element lie in the stream. -/
structure InBounds (c : Cursor α) : Prop where
  nonneg : 0 ≤ c.pos
  le : c.pos ≤ c.stream.length
  cur : ∀ w, c.cur = some w → w < c.stream.length

theorem toInt_ofInt {z : Int} (h : -(wordLimit : Int) ≤ z) (h' : z < wordLimit) :
    (Int64.ofInt z).toInt = z :=
  Int64.toInt_ofInt_of_le h h'

theorem inBounds_forward (s : List α) : (forward s).InBounds :=
  ⟨Int.le_refl 0, Int.natCast_nonneg _, nofun⟩

theorem inBounds_backward (s : List α) : (backward s).InBounds :=
  ⟨Int.le_refl 0, Int.natCast_nonneg _, nofun⟩

namespace InBounds

variable {c : Cursor α}

theorem physical_lt (h : c.InBounds) {w : Nat} (hw : c.cur = some w) : c.physical w < c.stream.length := by
  have hlt := h.cur w hw
  unfold physical
  split <;> omega

theorem inRange (h : c.InBounds) : c.inRange = true := by
  simp [Cursor.inRange, h.nonneg, h.le]

theorem next (h : c.InBounds) : c.next.2.InBounds := by
  unfold Cursor.next
  split
  · next hnext =>
    have hlt : c.pos < c.stream.length := by simpa [hasNext] using hnext
    have hpos := h.nonneg
    refine ⟨by simp only; omega, by simp only; omega, fun w hw => ?_⟩
    simp only [if_neg (Int.not_lt.2 hpos), Option.some.injEq] at hw ⊢
    omega
  · exact h

theorem setCurrent (h : c.InBounds) {a : α} {c' : Cursor α} (hset : c.setCurrent a = .ok c') :
    c'.InBounds ∧ c'.stream.length = c.stream.length := by
  unfold Cursor.setCurrent at hset
  split at hset
  · cases hset
  · cases hset
    simp only [List.length_set, and_true]
    exact ⟨h.nonneg, by simpa using h.le, by simpa using h.cur⟩

theorem removeCurrent (h : c.InBounds) {c' : Cursor α} (hremove : c.removeCurrent = .ok c') :
    c'.InBounds ∧ c'.stream.length ≤ c.stream.length := by
  unfold Cursor.removeCurrent at hremove
  split at hremove
  · cases hremove
  · next w hw =>
    cases hremove
    have hlt := h.cur w hw
    have hlength := List.length_eraseIdx_of_lt (h.physical_lt hw)
    have hnonneg := h.nonneg
    have hle := h.le
    refine ⟨⟨?_, ?_, nofun⟩, ?_⟩
    · simp only
      split <;> omega
    · simp only [hlength]
      split <;> omega
    · simp only [hlength]
      omega

theorem insertHere (h : c.InBounds) {a : α} {c' : Cursor α} (hinsert : c.insertHere a = .ok c') :
    c'.InBounds ∧ c'.stream.length = c.stream.length + 1 ∧ c'.pos = c.pos + 1 := by
  rw [Cursor.insertHere, if_pos h.inRange] at hinsert
  cases hinsert
  have hnonneg := h.nonneg
  have hle := h.le
  have hplace : c.physicalInsert c.pos.toNat ≤ c.stream.length := by
    unfold physicalInsert
    split <;> omega
  have hlength := List.length_insertIdx_of_le_length hplace a
  refine ⟨⟨by simp only; omega, by simp only [hlength]; omega, fun w hw => ?_⟩, hlength, rfl⟩
  obtain ⟨v, hv, rfl⟩ := Option.map_eq_some_iff.1 hw
  have hlt := h.cur v hv
  simp only [hlength]
  split <;> omega

theorem insertAfterCurrent (h : c.InBounds) {a : α} {c' : Cursor α}
    (hinsert : c.insertAfterCurrent a = .ok c') :
    c'.InBounds ∧ c'.stream.length = c.stream.length + 1 := by
  unfold Cursor.insertAfterCurrent at hinsert
  split at hinsert
  · cases hinsert
  · next w hw =>
    cases hinsert
    have hlt := h.cur w hw
    have hnonneg := h.nonneg
    have hle := h.le
    have hplace : c.physicalInsert (w + 1) ≤ c.stream.length := by
      unfold physicalInsert
      split <;> omega
    have hlength := List.length_insertIdx_of_le_length hplace a
    refine ⟨⟨?_, ?_, fun v hv => ?_⟩, hlength⟩
    · simp only
      split <;> omega
    · simp only [hlength]
      split <;> omega
    · have := h.cur v hv
      simp only [hlength]
      omega

theorem rollback (h : c.InBounds) {n : Int} (hn : 0 ≤ n) (hle : n ≤ wordLimit)
    (hsize : c.pos - n < wordLimit) : (c.rollback n).InBounds := by
  have hpos := h.le
  have hnonneg := h.nonneg
  unfold Cursor.rollback
  rw [toInt_ofInt (by omega) hsize]
  exact ⟨by simp only; omega, by simp only; omega, nofun⟩

theorem insertAndContinueWith (h : c.InBounds) {a : α} {c' : Cursor α} (hsize : c.stream.length < wordLimit)
    (hinsert : c.insertAndContinueWith a = .ok c') :
    c'.InBounds ∧ c'.stream.length = c.stream.length + 1 := by
  unfold Cursor.insertAndContinueWith at hinsert
  cases hplaced : c.insertHere a with
  | error e =>
      rw [hplaced] at hinsert
      cases hinsert
  | ok placed =>
      rw [hplaced] at hinsert
      cases hinsert
      obtain ⟨hplaced, hlength, hpos⟩ := h.insertHere hplaced
      have hle := h.le
      exact ⟨hplaced.rollback (by decide) (by decide) (by omega), hlength⟩

theorem reverse (h : c.InBounds) (hsize : c.stream.length < wordLimit) : c.reverse.InBounds := by
  have hnonneg := h.nonneg
  have hle := h.le
  unfold Cursor.reverse
  rw [toInt_ofInt (by omega) (by omega)]
  refine ⟨by simp only; omega, by simp only; omega, fun w hw => ?_⟩
  obtain ⟨v, hv, rfl⟩ := Option.map_eq_some_iff.1 hw
  have hlt := h.cur v hv
  simp only
  omega

theorem edited (h : c.InBounds) {r : Except CursorError (Cursor α)}
    (hr : ∀ c', r = .ok c' → c'.InBounds ∧ c'.stream.length ≤ c.stream.length + 1) :
    (c.edited r).2.InBounds ∧ (c.edited r).2.stream.length ≤ c.stream.length + 1 := by
  cases r with
  | ok c' => exact hr c' rfl
  | error e => exact ⟨h, Nat.le_succ _⟩

/-- No operation leaves the stream, and none adds more than an element to it. -/
theorem apply (h : c.InBounds) (hsize : c.stream.length < wordLimit) (op : Op α) :
    (c.apply op).2.InBounds ∧ (c.apply op).2.stream.length ≤ c.stream.length + 1 := by
  cases op with
  | next =>
      refine ⟨h.next, ?_⟩
      change c.next.2.stream.length ≤ _
      unfold Cursor.next
      split <;> exact Nat.le_succ _
  | peek | current => exact ⟨h, Nat.le_succ _⟩
  | setCurrent a => exact h.edited fun c' hc' => (h.setCurrent hc').imp_right fun heq => by omega
  | removeCurrent => exact h.edited fun c' hc' => (h.removeCurrent hc').imp_right fun heq => by omega
  | insertHere a => exact h.edited fun c' hc' => (h.insertHere hc').imp_right fun heq => by omega
  | insertAfterCurrent a =>
      exact h.edited fun c' hc' => (h.insertAfterCurrent hc').imp_right fun heq => by omega
  | insertAndContinueWith a =>
      exact h.edited fun c' hc' => (h.insertAndContinueWith hsize hc').imp_right fun heq => by omega
  | rollback n =>
      have hle := h.le
      have hn := n.isLt
      exact ⟨h.rollback (by omega) (by omega) (by omega), Nat.le_succ _⟩
  | reverse => exact ⟨h.reverse hsize, Nat.le_succ _⟩

theorem run (h : c.InBounds) {ops : List (Op α)} (hsize : c.stream.length + ops.length < wordLimit) :
    (c.run ops).2.InBounds ∧ (c.run ops).2.stream.length ≤ c.stream.length + ops.length := by
  induction ops generalizing c with
  | nil => exact ⟨h, Nat.le_refl _⟩
  | cons op ops ih =>
      rw [List.length_cons] at hsize
      obtain ⟨happly, hlength⟩ := h.apply (by omega) op
      obtain ⟨hrun, hlength'⟩ := ih happly (by omega)
      exact ⟨hrun, by rw [List.length_cons]; exact Nat.le_trans hlength' (by omega)⟩

/-- Turning a cursor twice loses nothing. -/
theorem reverse_reverse (h : c.InBounds) (hsize : c.stream.length < wordLimit) : c.reverse.reverse = c := by
  have hnonneg := h.nonneg
  have hle := h.le
  have hpos : (c.stream.length : Int) - (c.stream.length - c.pos) = c.pos := by omega
  have hcur : (c.cur.map fun w => c.stream.length - 1 - w).map (fun w => c.stream.length - 1 - w)
      = c.cur := by
    cases hw : c.cur with
    | none => rfl
    | some w =>
        have hlt := h.cur w hw
        have hturned : c.stream.length - 1 - (c.stream.length - 1 - w) = w := by omega
        exact congrArg some hturned
  unfold Cursor.reverse
  simp only [toInt_ofInt (z := c.stream.length - c.pos) (by omega) (by omega), hpos, hcur,
    toInt_ofInt (z := c.pos) (by omega) (by omega), Bool.not_not]

end InBounds

/-! ## The mirrored walk -/

/-- The same place of the same walk over the reversed stream, in the other direction of it. -/
def mirror (c : Cursor α) : Cursor α := { c with stream := c.stream.reverse, reversed := !c.reversed }

variable {c : Cursor α}

theorem cur_mirror (c : Cursor α) : c.mirror.cur = c.cur := rfl

@[simp] theorem hasNext_mirror (c : Cursor α) : c.mirror.hasNext = c.hasNext := by
  simp [hasNext, mirror]

@[simp] theorem inRange_mirror (c : Cursor α) : c.mirror.inRange = c.inRange := by
  simp only [inRange, mirror, List.length_reverse]
  rfl

theorem physical_mirror {w : Nat} (h : w < c.stream.length) :
    c.mirror.physical w = c.stream.length - 1 - c.physical w := by
  unfold physical mirror
  cases c.reversed
  · simp
  · simp only [Bool.not_true, Bool.false_eq_true, if_false, if_true]
    omega

theorem physicalInsert_mirror {w : Nat} (h : w ≤ c.stream.length) :
    c.mirror.physicalInsert w = c.stream.length - c.physicalInsert w := by
  unfold physicalInsert mirror
  cases c.reversed
  · simp
  · simp only [Bool.not_true, Bool.false_eq_true, if_false, if_true]
    omega

theorem element?_mirror {w : Nat} (h : w < c.stream.length) : c.mirror.element? w = c.element? w := by
  have hlt : c.physical w < c.stream.length := by
    unfold physical
    split <;> omega
  unfold element?
  rw [physical_mirror h]
  change c.stream.reverse[_]? = _
  rw [List.getElem?_reverse (by omega)]
  congr 1
  omega

theorem peek_mirror (c : Cursor α) : c.mirror.peek = c.peek := by
  unfold peek
  rw [hasNext_mirror]
  split
  · next hnext =>
    have hmirror : c.mirror.pos = c.pos := rfl
    rw [hmirror]
    cases hpos : c.pos with
    | negSucc _ => rfl
    | ofNat w =>
        have hlt : w < c.stream.length := by simpa [hasNext, hpos] using hnext
        dsimp only
        rw [element?_mirror hlt]
  · rfl

theorem next_mirror (c : Cursor α) : c.mirror.next = (c.next.1, c.next.2.mirror) := by
  unfold next
  rw [hasNext_mirror, peek_mirror]
  split <;> rfl

theorem edited_mirror (c : Cursor α) (r : Except CursorError (Cursor α)) :
    c.mirror.edited (r.map mirror) = ((c.edited r).1, (c.edited r).2.mirror) := by
  cases r <;> rfl

namespace InBounds

theorem current_mirror (h : c.InBounds) : c.mirror.current = c.current := by
  unfold Cursor.current
  rw [cur_mirror]
  cases hw : c.cur with
  | none => rfl
  | some w => rw [Option.bind_some, Option.bind_some, element?_mirror (h.cur w hw)]

theorem index?_mirror (h : c.InBounds) :
    c.mirror.index? = c.index?.map fun i => c.stream.length - 1 - i := by
  unfold index?
  rw [cur_mirror]
  cases hw : c.cur with
  | none => rfl
  | some w => exact congrArg some (physical_mirror (h.cur w hw))

theorem setCurrent_mirror (h : c.InBounds) (a : α) :
    c.mirror.setCurrent a = (c.setCurrent a).map mirror := by
  unfold Cursor.setCurrent
  rw [cur_mirror]
  cases hw : c.cur with
  | none => rfl
  | some w =>
      dsimp only [Except.map]
      rw [physical_mirror (h.cur w hw)]
      have hset := set_reverse c.stream (h.physical_lt hw) a
      simp only [mirror, hset]

theorem removeCurrent_mirror (h : c.InBounds) :
    c.mirror.removeCurrent = c.removeCurrent.map mirror := by
  unfold Cursor.removeCurrent
  rw [cur_mirror]
  cases hw : c.cur with
  | none => rfl
  | some w =>
      dsimp only [Except.map]
      rw [physical_mirror (h.cur w hw)]
      have herase := eraseIdx_reverse c.stream (h.physical_lt hw)
      simp only [mirror, herase]
      rfl

theorem insertHere_mirror (h : c.InBounds) (a : α) :
    c.mirror.insertHere a = (c.insertHere a).map mirror := by
  have hle := h.le
  have hnonneg := h.nonneg
  have hplace : c.physicalInsert c.pos.toNat ≤ c.stream.length := by
    unfold physicalInsert
    split <;> omega
  unfold Cursor.insertHere
  rw [inRange_mirror, if_pos h.inRange, if_pos h.inRange]
  dsimp only [Except.map]
  have hphysical := physicalInsert_mirror (c := c) (w := c.pos.toNat) (by omega)
  have hinsert := insertIdx_reverse c.stream hplace a
  rw [show c.mirror.pos = c.pos from rfl, hphysical]
  simp only [mirror, hinsert]

theorem insertAfterCurrent_mirror (h : c.InBounds) (a : α) :
    c.mirror.insertAfterCurrent a = (c.insertAfterCurrent a).map mirror := by
  unfold Cursor.insertAfterCurrent
  rw [cur_mirror]
  cases hw : c.cur with
  | none => rfl
  | some w =>
      have hlt := h.cur w hw
      have hplace : c.physicalInsert (w + 1) ≤ c.stream.length := by
        unfold physicalInsert
        split <;> omega
      dsimp only [Except.map]
      rw [physicalInsert_mirror hlt]
      have hinsert := insertIdx_reverse c.stream hplace a
      simp only [mirror, hinsert]
      rfl

theorem insertAndContinueWith_mirror (h : c.InBounds) (a : α) :
    c.mirror.insertAndContinueWith a = (c.insertAndContinueWith a).map mirror := by
  unfold Cursor.insertAndContinueWith
  rw [h.insertHere_mirror]
  cases c.insertHere a <;> rfl

theorem reverse_mirror (c : Cursor α) : c.mirror.reverse = c.reverse.mirror := by
  simp only [Cursor.reverse, mirror, List.length_reverse]

/-- Every operation answers the same in both walks and keeps them mirrored. -/
theorem apply_mirror (h : c.InBounds) (op : Op α) :
    c.mirror.apply op = ((c.apply op).1, (c.apply op).2.mirror) := by
  cases op with
  | next => simp only [Cursor.apply, next_mirror]
  | peek => simp only [Cursor.apply, peek_mirror]
  | current => simp only [Cursor.apply, h.current_mirror]
  | setCurrent a => simp only [Cursor.apply, h.setCurrent_mirror, edited_mirror]
  | removeCurrent => simp only [Cursor.apply, h.removeCurrent_mirror, edited_mirror]
  | insertHere a => simp only [Cursor.apply, h.insertHere_mirror, edited_mirror]
  | insertAfterCurrent a => simp only [Cursor.apply, h.insertAfterCurrent_mirror, edited_mirror]
  | insertAndContinueWith a => simp only [Cursor.apply, h.insertAndContinueWith_mirror, edited_mirror]
  | rollback n => rfl
  | reverse => simp only [Cursor.apply, reverse_mirror]

theorem run_mirror (h : c.InBounds) {ops : List (Op α)} (hsize : c.stream.length + ops.length < wordLimit) :
    c.mirror.run ops = ((c.run ops).1, (c.run ops).2.mirror) := by
  induction ops generalizing c with
  | nil => rfl
  | cons op ops ih =>
      rw [List.length_cons] at hsize
      obtain ⟨happly, hlength⟩ := h.apply (by omega) op
      simp only [Cursor.run, h.apply_mirror, ih happly (by omega)]

end InBounds

/-! ## Walks in both directions -/

/-- However a stream that is walked backwards and the reversed stream that is walked forwards are worked
on, the answers are the same, the streams stay reversals of each other, and the current elements stand
at mirrored indices.  Both cursors survive being turned twice. -/
theorem backward_mirrors_forward (s : List α) (ops : List (Op α)) (hsize : s.length + ops.length < wordLimit) :
    let b := (backward s).run ops
    let f := (forward s.reverse).run ops
    b.1 = f.1 ∧ b.2.stream = f.2.stream.reverse
      ∧ (∀ i, b.2.index? = some i → i < b.2.stream.length)
      ∧ f.2.index? = b.2.index?.map (fun i => b.2.stream.length - 1 - i)
      ∧ b.2.reverse.reverse = b.2 ∧ f.2.reverse.reverse = f.2 := by
  intro b f
  have hbounds := inBounds_backward s
  obtain ⟨hb, hlength⟩ : b.2.InBounds ∧ b.2.stream.length ≤ s.length + ops.length := hbounds.run hsize
  have hmirror : f = (b.1, b.2.mirror) := hbounds.run_mirror hsize
  have hreversed : (forward s.reverse).stream.length = s.length := List.length_reverse
  obtain ⟨hf, hlength'⟩ : f.2.InBounds ∧ f.2.stream.length ≤ (forward s.reverse).stream.length + ops.length :=
    (inBounds_forward s.reverse).run (by rwa [hreversed])
  rw [hreversed] at hlength'
  refine ⟨by rw [hmirror], ?_, fun i hi => ?_, ?_, ?_, ?_⟩
  · rw [hmirror]
    exact (List.reverse_reverse _).symm
  · obtain ⟨w, hw, rfl⟩ := Option.map_eq_some_iff.1 hi
    exact hb.physical_lt hw
  · rw [hmirror]
    exact hb.index?_mirror
  · exact hb.reverse_reverse (Nat.lt_of_le_of_lt hlength hsize)
  · exact hf.reverse_reverse (Nat.lt_of_le_of_lt hlength' hsize)

/-- A walk that edits on both sides of the current element, which a turn has left unvisited. -/
def turnedWalk : List (Op Nat) :=
  [.next, .next, .reverse, .insertHere 4, .insertAfterCurrent 5, .removeCurrent, .current,
    .insertAndContinueWith 6, .next, .setCurrent 7, .rollback ⟨2, by decide⟩, .peek]

theorem backward_mirrors_forward_turned :
    [1, 2, 3].length + turnedWalk.length < wordLimit
      ∧ ((backward [1, 2, 3]).run turnedWalk).1 = ((forward [3, 2, 1]).run turnedWalk).1
      ∧ ((backward [1, 2, 3]).run turnedWalk).2.stream = [3, 5, 7, 4, 1].reverse := by
  have hsize : [1, 2, 3].length + turnedWalk.length < wordLimit := by decide
  obtain ⟨hanswers, hstreams, -⟩ := backward_mirrors_forward [1, 2, 3] turnedWalk hsize
  exact ⟨hsize, hanswers, hstreams.trans (congrArg List.reverse (by decide))⟩

end Cursor

end Datapack.Ir
