import Datapack.Proofs.Ir.Cursor

/-!
# What a cursor touches

The positions of a cursor are signed numbers that insertions and removals move by cases, so an index read
off them could lie outside the stream.  `touch` is what an operation does to the list of elements, at a
signed index.  Wherever a run leads, an operation is either refused, as `refusal?` says, and changes
nothing, or it is its touch, at a place that the list has.
-/

namespace Datapack.Ir

namespace Cursor

variable {α : Type}

/-! ## Touches -/

/-- An access to a list of elements at a signed index. -/
inductive Touch (α : Type) where
  | nothing
  | read (i : Int)
  | write (i : Int) (a : α)
  | remove (i : Int)
  | insert (i : Int) (a : α)
  deriving DecidableEq

namespace Touch

/-- Whether a list of `n` elements has the place: an element, or a gap to insert at. -/
def IsWithin (n : Nat) : Touch α → Prop
  | nothing => True
  | read i | write i _ | remove i => 0 ≤ i ∧ i < n
  | insert i _ => 0 ≤ i ∧ i ≤ n

/-- The element an access reads, if it reads one, and the list behind it. -/
def result (l : List α) : Touch α → Option α × List α
  | nothing => (none, l)
  | read i => (l[i.toNat]?, l)
  | write i a => (none, l.set i.toNat a)
  | remove i => (none, l.eraseIdx i.toNat)
  | insert i a => (none, l.insertIdx i.toNat a)

end Touch

/-- The walk index of the current element, `-1` if there is none. -/
def signedCur (c : Cursor α) : Int := c.cur.elim (-1) (↑)

/-- The stream index of a walk index. -/
def place (c : Cursor α) (w : Int) : Int := if c.reversed then c.stream.length - 1 - w else w

/-- The stream index of the gap in front of a walk index. -/
def gap (c : Cursor α) (w : Int) : Int := if c.reversed then c.stream.length - w else w

/-- Why an operation is refused: nothing is left to visit, or no element is current. -/
def refusal? (c : Cursor α) : Op α → Option CursorError
  | .next | .peek => if c.pos = c.stream.length then some .endOfStream else none
  | .current | .setCurrent _ | .removeCurrent | .insertAfterCurrent _ =>
    if c.signedCur = -1 then some .noCurrent else none
  | .insertHere _ | .insertAndContinueWith _ | .rollback _ | .reverse => none

/-- How an operation that is not refused touches the stream. -/
def touch (c : Cursor α) : Op α → Touch α
  | .next | .peek => .read (c.place c.pos)
  | .current => .read (c.place c.signedCur)
  | .setCurrent a => .write (c.place c.signedCur) a
  | .removeCurrent => .remove (c.place c.signedCur)
  | .insertHere a | .insertAndContinueWith a => .insert (c.gap c.pos) a
  | .insertAfterCurrent a => .insert (c.gap (c.signedCur + 1)) a
  | .rollback _ | .reverse => .nothing

/-- The operation answers with what its touch reads and leaves the stream as its touch does. -/
structure Performs (c : Cursor α) (op : Op α) : Prop where
  within : (c.touch op).IsWithin c.stream.length
  answer : (c.apply op).1 = .ok ((c.touch op).result c.stream).1
  stream : (c.apply op).2.stream = ((c.touch op).result c.stream).2

theorem Performs.of_touch {c : Cursor α} {op : Op α} {t : Touch α} (htouch : c.touch op = t)
    (hwithin : t.IsWithin c.stream.length) (hanswer : (c.apply op).1 = .ok (t.result c.stream).1)
    (hstream : (c.apply op).2.stream = (t.result c.stream).2) : c.Performs op := by
  subst htouch
  exact ⟨hwithin, hanswer, hstream⟩

/-- Along the way the number of elements stays a machine integer. -/
def Fits : Cursor α → List (Op α) → Prop
  | c, [] => c.stream.length < wordLimit
  | c, op :: ops => c.stream.length < wordLimit ∧ Fits (c.apply op).2 ops

section Places

variable {c : Cursor α} {w : Nat}

theorem signedCur_of_none (h : c.cur = none) : c.signedCur = -1 := by simp [signedCur, h]

theorem signedCur_of_some (h : c.cur = some w) : c.signedCur = w := by simp [signedCur, h]

theorem signedCur_ne (h : c.cur = some w) : c.signedCur ≠ -1 := by
  rw [signedCur_of_some h]
  omega

theorem place_eq (hw : w < c.stream.length) : c.place w = c.physical w := by
  unfold place physical
  split <;> omega

theorem gap_eq (hw : w ≤ c.stream.length) : c.gap w = c.physicalInsert w := by
  unfold gap physicalInsert
  split <;> omega

theorem physical_lt_length (hw : w < c.stream.length) : c.physical w < c.stream.length := by
  unfold physical
  split <;> omega

theorem physicalInsert_le (hw : w ≤ c.stream.length) : c.physicalInsert w ≤ c.stream.length := by
  unfold physicalInsert
  split <;> omega

end Places

namespace InBounds

variable {c : Cursor α} {op : Op α}

/-! ## Operations that are refused -/

theorem hasNext_eq (h : c.InBounds) : c.hasNext = decide (c.pos ≠ c.stream.length) := by
  have hle := h.le
  rw [hasNext]
  exact decide_eq_decide.2 ⟨fun hlt => by omega, fun hne => by omega⟩

theorem apply_refused (h : c.InBounds) {e : CursorError} (hop : c.refusal? op = some e) :
    c.apply op = (.error e, c) := by
  have hend : c.pos = c.stream.length → c.next = (.error .endOfStream, c) ∧ c.peek = .error .endOfStream := by
    intro hpos
    have hnext : c.hasNext = false := by simp [h.hasNext_eq, hpos]
    simp [Cursor.next, Cursor.peek, hnext]
  have hnone : c.signedCur = -1 → c.cur = none := by
    intro hsigned
    cases hcur : c.cur with
    | none => rfl
    | some w => exact absurd hsigned (signedCur_ne hcur)
  cases op with
  | next =>
      obtain ⟨hpos, he⟩ := Option.ite_none_right_eq_some.1 hop
      obtain rfl : CursorError.endOfStream = e := Option.some.inj he
      rw [Cursor.apply, (hend hpos).1]
      rfl
  | peek =>
      obtain ⟨hpos, he⟩ := Option.ite_none_right_eq_some.1 hop
      obtain rfl : CursorError.endOfStream = e := Option.some.inj he
      rw [Cursor.apply, (hend hpos).2]
      rfl
  | current | setCurrent a | removeCurrent | insertAfterCurrent a =>
      obtain ⟨hsigned, he⟩ := Option.ite_none_right_eq_some.1 hop
      obtain rfl : CursorError.noCurrent = e := Option.some.inj he
      simp [Cursor.apply, Cursor.current, Cursor.setCurrent, Cursor.removeCurrent, Cursor.insertAfterCurrent,
        hnone hsigned, Cursor.edited, Except.map]
  | insertHere a | insertAndContinueWith a | rollback n | reverse => cases hop

/-! ## Operations that are performed -/

theorem exists_pos (h : c.InBounds) : ∃ w : Nat, c.pos = w ∧ w ≤ c.stream.length := by
  obtain ⟨w, hw⟩ := Int.eq_ofNat_of_zero_le h.nonneg
  have hle := h.le
  exact ⟨w, hw, by omega⟩

theorem exists_cur (h : c.InBounds) (hsigned : c.signedCur ≠ -1) :
    ∃ w, c.cur = some w ∧ c.signedCur = w ∧ w < c.stream.length := by
  cases hcur : c.cur with
  | none => exact absurd (signedCur_of_none hcur) hsigned
  | some w => exact ⟨w, rfl, signedCur_of_some hcur, h.cur w hcur⟩

theorem peek_eq (h : c.InBounds) (hpos : c.pos ≠ c.stream.length) :
    ∃ w, c.pos = (w : Nat) ∧ w < c.stream.length ∧
      c.peek.map some = .ok (c.stream[c.physical w]?) ∧ c.next.1 = c.peek := by
  obtain ⟨w, hw, hle⟩ := h.exists_pos
  have hlt : w < c.stream.length := by omega
  have hnext : c.hasNext = true := by simp [h.hasNext_eq, hpos]
  refine ⟨w, hw, hlt, ?_, by simp [Cursor.next, hnext]⟩
  have hget := List.getElem?_eq_getElem (physical_lt_length hlt)
  rw [Cursor.peek, if_pos hnext, hw]
  simp only [element?, hget]
  rfl

theorem performs (h : c.InBounds) (hop : c.refusal? op = none) : c.Performs op := by
  have hnext : c.refusal? .next = none → c.pos ≠ c.stream.length := by
    intro hnone hpos
    simp [refusal?, hpos] at hnone
  have hcurrent : c.refusal? .current = none → c.signedCur ≠ -1 := by
    intro hnone hsigned
    simp [refusal?, hsigned] at hnone
  have hinRange := h.inRange
  cases op with
  | next =>
      obtain ⟨w, hw, hlt, hpeek, hanswer⟩ := h.peek_eq (hnext hop)
      have hphysical := physical_lt_length hlt
      refine .of_touch (t := .read (c.physical w)) (by rw [touch, hw, place_eq hlt]) ⟨by omega, by omega⟩ ?_ ?_
      · rw [Cursor.apply, hanswer, hpeek]
        rfl
      · change c.next.2.stream = c.stream
        unfold Cursor.next
        split <;> rfl
  | peek =>
      obtain ⟨w, hw, hlt, hpeek, -⟩ := h.peek_eq (hnext hop)
      have hphysical := physical_lt_length hlt
      exact .of_touch (t := .read (c.physical w)) (by rw [touch, hw, place_eq hlt]) ⟨by omega, by omega⟩
        hpeek rfl
  | current =>
      obtain ⟨w, hcur, hsigned, hlt⟩ := h.exists_cur (hcurrent hop)
      have hphysical := physical_lt_length hlt
      refine .of_touch (t := .read (c.physical w)) (by rw [touch, hsigned, place_eq hlt])
        ⟨by omega, by omega⟩ ?_ rfl
      simp [Cursor.apply, Cursor.current, hcur, element?, Touch.result, hphysical, Except.map]
  | setCurrent a =>
      obtain ⟨w, hcur, hsigned, hlt⟩ := h.exists_cur (hcurrent hop)
      have hphysical := physical_lt_length hlt
      refine .of_touch (t := .write (c.physical w) a) (by rw [touch, hsigned, place_eq hlt])
        ⟨by omega, by omega⟩ ?_ ?_
      all_goals simp [Cursor.apply, Cursor.setCurrent, hcur, Cursor.edited, Touch.result]
  | removeCurrent =>
      obtain ⟨w, hcur, hsigned, hlt⟩ := h.exists_cur (hcurrent hop)
      have hphysical := physical_lt_length hlt
      refine .of_touch (t := .remove (c.physical w)) (by rw [touch, hsigned, place_eq hlt])
        ⟨by omega, by omega⟩ ?_ ?_
      all_goals simp [Cursor.apply, Cursor.removeCurrent, hcur, Cursor.edited, Touch.result]
  | insertAfterCurrent a =>
      obtain ⟨w, hcur, hsigned, hlt⟩ := h.exists_cur (hcurrent hop)
      have hphysical : c.physicalInsert (w + 1) ≤ c.stream.length := physicalInsert_le hlt
      have hgap : c.gap (c.signedCur + 1) = c.physicalInsert (w + 1) := by
        rw [hsigned, ← gap_eq (Nat.succ_le_of_lt hlt)]
        rfl
      refine .of_touch (t := .insert (c.physicalInsert (w + 1)) a) (by rw [touch, hgap])
        ⟨by omega, by omega⟩ ?_ ?_
      all_goals simp [Cursor.apply, Cursor.insertAfterCurrent, hcur, Cursor.edited, Touch.result]
  | insertHere a =>
      obtain ⟨w, hw, hle⟩ := h.exists_pos
      have hphysical := physicalInsert_le (c := c) hle
      refine .of_touch (t := .insert (c.physicalInsert w) a) (by rw [touch, hw, gap_eq hle])
        ⟨by omega, by omega⟩ ?_ ?_
      all_goals simp [Cursor.apply, Cursor.insertHere, hinRange, hw, Cursor.edited, Touch.result]
  | insertAndContinueWith a =>
      obtain ⟨w, hw, hle⟩ := h.exists_pos
      have hphysical := physicalInsert_le (c := c) hle
      refine .of_touch (t := .insert (c.physicalInsert w) a) (by rw [touch, hw, gap_eq hle])
        ⟨by omega, by omega⟩ ?_ ?_
      all_goals simp [Cursor.apply, Cursor.insertAndContinueWith, Cursor.insertHere, hinRange, hw, Except.map,
        Cursor.rollback, Cursor.edited, Touch.result]
  | rollback n | reverse => exact .of_touch (t := .nothing) rfl trivial rfl rfl

/-! ## Runs -/

theorem run_fits (h : c.InBounds) {ops : List (Op α)} (hfits : c.Fits ops) : (c.run ops).2.InBounds := by
  induction ops generalizing c with
  | nil => exact h
  | cons op ops ih => exact ih (h.apply hfits.1 op).1 hfits.2

theorem fits_of_length (h : c.InBounds) {ops : List (Op α)}
    (hsize : c.stream.length + ops.length < wordLimit) : c.Fits ops := by
  induction ops generalizing c with
  | nil => exact hsize
  | cons op ops ih =>
      rw [List.length_cons] at hsize
      obtain ⟨happly, hlength⟩ := h.apply (by omega) op
      exact ⟨by omega, ih happly (by omega)⟩

end InBounds

/-- Wherever a run leads, in either direction, the positions lie in the stream.  An operation that follows is
refused exactly for want of an element to visit or of a current one, and then changes nothing; otherwise
it does its access at a place that the stream has. -/
theorem run_stays_in_bounds {s : List α} {c₀ : Cursor α} (hstart : c₀ = forward s ∨ c₀ = backward s)
    {ops : List (Op α)} (hfits : c₀.Fits ops) :
    let c := (c₀.run ops).2
    (0 ≤ c.pos ∧ c.pos ≤ c.stream.length)
      ∧ (c.signedCur = -1 ∨ 0 ≤ c.signedCur ∧ c.signedCur < c.stream.length)
      ∧ ∀ op, (∀ e, (c.apply op).1 = .error e ↔ c.refusal? op = some e)
        ∧ (c.refusal? op ≠ none → (c.apply op).2 = c)
        ∧ (c.refusal? op = none → c.Performs op) := by
  intro c
  have hstarts : c₀.InBounds := by
    rcases hstart with rfl | rfl
    · exact inBounds_forward s
    · exact inBounds_backward s
  have h : c.InBounds := hstarts.run_fits hfits
  refine ⟨⟨h.nonneg, h.le⟩, ?_,
    fun op => ⟨fun e => ⟨fun happly => ?_, fun hop => ?_⟩, fun hop => ?_, h.performs⟩⟩
  · cases hcur : c.cur with
    | none => exact .inl (signedCur_of_none hcur)
    | some w =>
        have hlt := h.cur w hcur
        rw [signedCur_of_some hcur]
        exact .inr ⟨by omega, by omega⟩
  · cases hop : c.refusal? op with
    | none =>
        rw [(h.performs hop).answer] at happly
        cases happly
    | some e' =>
        rw [h.apply_refused hop] at happly
        exact congrArg some (Except.error.inj happly)
  · rw [h.apply_refused hop]
  · obtain ⟨e, he⟩ := Option.ne_none_iff_exists'.1 hop
    rw [h.apply_refused he]

/-- A turn leaves the current element unvisited, and an insertion moves it away from the boundary: its removal
moves nothing else. -/
theorem run_stays_in_bounds_turned :
    let c := ((backward [1, 2, 3]).run (turnedWalk.take 5)).2
    (backward [1, 2, 3]).Fits (turnedWalk.take 5)
      ∧ (0 ≤ c.pos ∧ c.pos ≤ c.stream.length) ∧ c.Performs .removeCurrent
      ∧ c.stream = [1, 4, 2, 5, 3] ∧ c.pos = 2 ∧ c.touch .removeCurrent = .remove 2
      ∧ (c.apply .removeCurrent).2.pos = 2 := by
  intro c
  have hfits : (backward [1, 2, 3]).Fits (turnedWalk.take 5) :=
    (inBounds_backward [1, 2, 3]).fits_of_length (by decide)
  obtain ⟨hpos, -, hops⟩ := run_stays_in_bounds (.inr rfl) hfits
  exact ⟨hfits, hpos, (hops .removeCurrent).2.2 (by decide), by decide, by decide, by decide, by decide⟩

end Cursor

end Datapack.Ir
