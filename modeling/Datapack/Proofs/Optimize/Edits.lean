import Mathlib.Data.List.Induction
import Datapack.Optimize.Edits
import Datapack.Proofs.Ir.Spans

/-!
# Making planned edits

`Edits.apply` walks a stream with a cursor and deletes from the list it walks.  `apply_eq` says what
comes out: every dropped instruction is gone, every other one with a replacement is replaced, and a
change is reported when there was something to drop or replace.  Edits that drop the two delimiters of
a region together and replace no delimiter keep a stream balanced.
-/

namespace Datapack.Optimize

open Ir

namespace Edits

variable (e : Edits)

/-- The rest of a stream, from index `i` on, with the changes made. -/
def edited : Nat → Stream → Stream
  | _, [] => []
  | i, ins :: rest =>
    if e.drop i then edited (i + 1) rest else (e.replace i).getD ins :: edited (i + 1) rest

/-- Whether the rest of a stream, from index `i` on, has an instruction to change. -/
def touches : Nat → Stream → Bool
  | _, [] => false
  | i, _ :: rest => e.drop i || (e.replace i).isSome || touches (i + 1) rest

section Walk

variable {α : Type} {done rest : List α} {a b : α} {cur : Option Nat}

theorem next_done :
    Cursor.next ⟨done ++ a :: rest, done.length, cur, false⟩ =
      (.ok a, ⟨done ++ a :: rest, (done.length : Int) + 1, some done.length, false⟩) := by
  have hnext : Cursor.hasNext ⟨done ++ a :: rest, done.length, cur, false⟩ = true := by
    simp only [Cursor.hasNext, List.length_append, List.length_cons, decide_eq_true_eq]
    omega
  have hneg : ¬(done.length : Int) < 0 := by omega
  simp [Cursor.next, Cursor.peek, hnext, hneg, Cursor.element?, Cursor.physical]

theorem next_end : Cursor.next ⟨done, done.length, cur, false⟩ =
    (.error .endOfStream, ⟨done, done.length, cur, false⟩) := by
  simp [Cursor.next, Cursor.hasNext]

theorem removeCurrent_done :
    Cursor.removeCurrent ⟨done ++ a :: rest, (done.length : Int) + 1, some done.length, false⟩ =
      .ok ⟨done ++ rest, done.length, none, false⟩ := by
  have hlt : (done.length : Int) < done.length + 1 := by omega
  have herase : (done ++ a :: rest).eraseIdx done.length = done ++ rest := by
    rw [List.eraseIdx_append_of_length_le (Nat.le_refl _), Nat.sub_self, List.eraseIdx_cons_zero]
  simp [Cursor.removeCurrent, Cursor.physical, herase, hlt]

theorem setCurrent_done :
    Cursor.setCurrent ⟨done ++ a :: rest, (done.length : Int) + 1, some done.length, false⟩ b =
      .ok ⟨done ++ b :: rest, (done.length : Int) + 1, some done.length, false⟩ := by
  simp [Cursor.setCurrent, Cursor.physical]

end Walk

/-- The walk has dealt with `done` and is about to look at `rest`. -/
theorem walk_eq {fuel i : Nat} {done rest : Stream} {cur : Option Nat} {changed : Bool}
    (hfuel : rest.length < fuel) :
    e.walk fuel i ⟨done ++ rest, done.length, cur, false⟩ changed =
      ⟨done ++ e.edited i rest, changed || e.touches i rest⟩ := by
  induction rest generalizing fuel i done cur changed with
  | nil =>
      obtain ⟨fuel, rfl⟩ := Nat.exists_eq_succ_of_ne_zero (by omega : fuel ≠ 0)
      rw [walk, List.append_nil, next_end]
      simp [edited, touches]
  | cons ins rest ih =>
      obtain ⟨fuel, rfl⟩ := Nat.exists_eq_succ_of_ne_zero (by omega : fuel ≠ 0)
      rw [List.length_cons] at hfuel
      have hmoved : ∀ new : Instruction, (done ++ new :: rest) = (done ++ [new]) ++ rest := by simp
      have hlength : ∀ new : Instruction, (done.length : Int) + 1 = (done ++ [new]).length := by simp
      rw [walk, next_done]
      simp only [edited, touches]
      cases hdrop : e.drop i with
      | true =>
          simp only [if_true, removeCurrent_done]
          rw [ih (by omega)]
          simp
      | false =>
          simp only [Bool.false_eq_true, if_false]
          cases hreplace : e.replace i with
          | none =>
              simp only
              rw [hmoved, hlength ins, ih (by omega)]
              simp
          | some new =>
              simp only [setCurrent_done]
              rw [hmoved, hlength new, ih (by omega)]
              simp

theorem apply_eq (s : Stream) : e.apply s = ⟨e.edited 0 s, e.touches 0 s⟩ := by
  have hwalk := @walk_eq e (s.length + 1) 0 [] s none false (by omega)
  simpa [apply, Cursor.forward] using hwalk

theorem edited_eq (i : Nat) (s : Stream) :
    e.edited i s = ((s.zipIdx i).filter fun x => !e.drop x.2).map fun x => (e.replace x.2).getD x.1 := by
  induction s generalizing i with
  | nil => rfl
  | cons ins s ih =>
      rw [edited, List.zipIdx_cons, List.filter_cons, ih]
      cases e.drop i <;> simp

theorem touches_iff (i : Nat) (s : Stream) :
    e.touches i s = true ↔ ∃ k < s.length, e.drop (i + k) = true ∨ (e.replace (i + k)).isSome = true := by
  induction s generalizing i with
  | nil => simp [touches]
  | cons ins s ih =>
      rw [touches, Bool.or_eq_true, Bool.or_eq_true, ih]
      constructor
      · rintro (hhead | ⟨k, hk, htouched⟩)
        · exact ⟨0, Nat.succ_pos _, hhead⟩
        · refine ⟨k + 1, Nat.succ_lt_succ hk, ?_⟩
          rwa [Nat.add_assoc, Nat.add_comm 1 k] at htouched
      · rintro ⟨k, hk, htouched⟩
        cases k with
        | zero => exact .inl htouched
        | succ k =>
            refine .inr ⟨k, Nat.lt_of_succ_lt_succ hk, ?_⟩
            rwa [Nat.add_assoc, Nat.add_comm 1 k]

/-- Edits are made exactly. An instruction is told from all others by its index: what is left are the
instructions that are not dropped, in their order, each in the form of its replacement if it has one. A
change is reported when some instruction was dropped or replaced. -/
theorem apply_filters_replaces (s : Stream) :
    (e.apply s).code
        = ((s.zipIdx).filter fun x => !e.drop x.2).map (fun x => (e.replace x.2).getD x.1)
      ∧ ((e.apply s).changed = true
        ↔ ∃ i < s.length, e.drop i = true ∨ (e.replace i).isSome = true) := by
  have htouches := e.touches_iff 0 s
  simp only [Nat.zero_add] at htouches
  rw [apply_eq]
  exact ⟨e.edited_eq 0 s, htouches⟩

section Drop

variable {drop : Nat → Bool} {i : Nat} {s : Stream}

theorem edited_drop (drop : Nat → Bool) (i : Nat) (s : Stream) :
    edited { drop } i s = ((s.zipIdx i).filter fun x => !drop x.2).map Prod.fst :=
  edited_eq { drop } i s

theorem exists_of_mem_edited_drop {ins : Instruction} (h : ins ∈ edited { drop } 0 s) :
    ∃ i, s[i]? = some ins ∧ drop i = false := by
  rw [edited_drop] at h
  obtain ⟨⟨kept, i⟩, hmem, rfl⟩ := List.mem_map.1 h
  obtain ⟨hzip, hkept⟩ := List.mem_filter.1 hmem
  exact ⟨i, List.mk_mem_zipIdx_iff_getElem?.1 hzip, by simpa using hkept⟩

theorem mem_edited_drop {ins : Instruction} {k : Nat} (hk : s[k]? = some ins)
    (hkept : drop k = false) : ins ∈ edited { drop } 0 s := by
  rw [edited_drop]
  apply List.mem_map.2
  refine ⟨(ins, k), List.mem_filter.2 ⟨?_, by simp [hkept]⟩, rfl⟩
  exact List.mk_mem_zipIdx_iff_getElem?.2 hk

theorem touches_drop_iff : touches { drop } i s = true ↔ ∃ k < s.length, drop (i + k) = true := by
  simp [touches_iff]

/-- Where there is nothing to drop, nothing changes. -/
theorem apply_drop_idle (h : ∀ k < s.length, drop k = false) : apply { drop } s = ⟨s, false⟩ := by
  have hcode : edited { drop } 0 s = s := by
    rw [edited_drop, List.filter_eq_self.2, List.zipIdx_map_fst]
    rintro ⟨ins, k⟩ hmem
    have hk := (List.getElem?_eq_some_iff.1 (List.mk_mem_zipIdx_iff_getElem?.1 hmem)).1
    simp [h k hk]
  have htouches : touches { drop } 0 s = false := by
    rw [Bool.eq_false_iff]
    intro htouches
    obtain ⟨k, hk, hdrop⟩ := touches_drop_iff.1 htouches
    rw [Nat.zero_add, h k hk] at hdrop
    exact Bool.noConfusion hdrop
  rw [apply_eq, hcode, htouches]

end Drop

end Edits

/-! ## Balance -/

theorem balanced_iff (s : Stream) : s.balanced = true ↔ closes [] s = true := by
  rw [← ScopeTree.ofStream_isOk_iff, Stream.balanced]
  cases ScopeTree.ofStream s with
  | error fault => simp [Except.toOption]
  | ok t => simp [Except.toOption]

/-- The delimiters of each region are dropped together or not at all. The flags say of the open regions,
innermost first, whether they are dropped. -/
def Paired (drop : Nat → Bool) : Nat → List Bool → Stream → Prop
  | _, _, [] => True
  | i, flags, ins :: rest =>
    if ins.op = .scopeBegin then Paired drop (i + 1) (drop i :: flags) rest
    else if ins.op = .scopeEnd then
      flags.head? = some (drop i) ∧ Paired drop (i + 1) flags.tail rest
    else Paired drop (i + 1) flags rest

/-- Where the delimiters of a region are dropped together, a closing one goes with the opening one. -/
theorem Paired.split {drop region : Nat → Bool} {s : Stream} (hcloses : closes [] s = true)
    (hpaired : Paired drop 0 [] s)
    (hbegin : ∀ pre ins post, s = pre ++ ins :: post → ins.op = .scopeBegin →
      region ((Position.start.after pre).opened + 1) = drop pre.length)
    {pre post : Stream} (hs : s = pre ++ post) :
    Paired drop pre.length ((Position.start.after pre).stack.dropLast.map region) post := by
  induction pre using List.reverseRecOn generalizing post with
  | nil =>
      rw [hs] at hpaired
      exact hpaired
  | append_singleton pre ins ih =>
      rw [List.append_assoc, List.singleton_append] at hs
      have hrest := ih hs
      rw [hs] at hcloses
      obtain ⟨names, -, hdepth⟩ := @ScopeTree.closes_after [] Position.start pre _ hcloses rfl
      have hne : (Position.start.after pre).stack ≠ [] := by
        intro hnil
        simp [hnil] at hdepth
      rw [Position.after_append, Position.after_cons, Position.after_nil, List.length_append,
        List.length_singleton]
      rw [Paired] at hrest
      rcases ins.delimiter_cases with hop | hop | ⟨hb, he⟩
      · rw [if_pos hop] at hrest
        rw [Position.advance_begin _ hop, List.dropLast_cons_of_ne_nil hne, List.map_cons,
          hbegin pre ins post hs hop]
        exact hrest
      · rw [if_neg (by simp [hop]), if_pos hop] at hrest
        rw [Position.advance_end _ hop, ← List.tail_dropLast, List.map_tail]
        exact hrest.2
      · rw [if_neg hb, if_neg he] at hrest
        rwa [Position.advance_other _ hb he]

/-- The names of the open regions that are not dropped. -/
def remaining : List String → List Bool → List String
  | name :: names, flag :: flags =>
    if flag then remaining names flags else name :: remaining names flags
  | _, _ => []

namespace Edits

variable {e : Edits} {i : Nat} {s : Stream}

/-- Only instructions that delimit nothing are replaced, and by such instructions. -/
def SparesDelimiters (e : Edits) (i : Nat) (s : Stream) : Prop :=
  ∀ k ins new, s[k]? = some ins → e.replace (i + k) = some new →
    isDelimiter ins = false ∧ isDelimiter new = false

theorem SparesDelimiters.tail {ins : Instruction} (h : e.SparesDelimiters i (ins :: s)) :
    e.SparesDelimiters (i + 1) s := by
  intro k old new hk hnew
  refine h (k + 1) old new hk ?_
  rwa [Nat.add_assoc, Nat.add_comm 1 k] at hnew

theorem SparesDelimiters.head {ins : Instruction} (h : e.SparesDelimiters i (ins :: s)) :
    (isDelimiter ins = true → (e.replace i).getD ins = ins) ∧
      (isDelimiter ins = false → isDelimiter ((e.replace i).getD ins) = false) := by
  cases hnew : e.replace i with
  | none => exact ⟨fun _ => rfl, id⟩
  | some new =>
      obtain ⟨hold, hnew⟩ := h 0 ins new rfl hnew
      refine ⟨fun hdelimiter => ?_, fun _ => hnew⟩
      rw [hold] at hdelimiter
      exact Bool.noConfusion hdelimiter

theorem closes_edited {names : List String} {flags : List Bool} (hcloses : closes names s = true)
    (hpaired : Paired e.drop i flags s) (hlength : flags.length = names.length)
    (hspares : e.SparesDelimiters i s) : closes (remaining names flags) (e.edited i s) = true := by
  induction s generalizing i names flags with
  | nil =>
      cases names with
      | nil => rfl
      | cons name names => simp [closes] at hcloses
  | cons ins s ih =>
      obtain ⟨hsame, hplain⟩ := hspares.head
      rcases ins.delimiter_cases with hop | hop | ⟨hb, he⟩
      · rw [closes_begin hop] at hcloses
        rw [Paired, if_pos hop] at hpaired
        have hrest := ih hcloses hpaired (by simp [hlength]) hspares.tail
        rw [edited]
        cases hdrop : e.drop i with
        | true => simpa [remaining, hdrop] using hrest
        | false =>
            rw [if_neg (by simp), hsame (by simp [isDelimiter, hop]), closes_begin hop]
            simpa [remaining, hdrop] using hrest
      · rcases names with _ | ⟨name, names⟩
        · rw [closes_end_nil hop] at hcloses
          exact Bool.noConfusion hcloses
        · obtain ⟨flag, flags, rfl⟩ : ∃ flag rest, flags = flag :: rest :=
            List.exists_cons_of_length_eq_add_one hlength
          rw [closes_end hop, Bool.and_eq_true] at hcloses
          rw [Paired, if_neg (by simp [hop]), if_pos hop] at hpaired
          have hflag : flag = e.drop i := by simpa using hpaired.1
          have hrest := ih hcloses.2 hpaired.2 (by simpa using hlength) hspares.tail
          rw [edited]
          cases hdrop : e.drop i with
          | true => simpa [remaining, hflag, hdrop] using hrest
          | false =>
              rw [if_neg (by simp), hsame (by simp [isDelimiter, hop])]
              simp only [remaining, hflag, hdrop, Bool.false_eq_true, if_false]
              rw [closes_end hop, hcloses.1, Bool.true_and]
              exact hrest
      · rw [closes_other hb he] at hcloses
        rw [Paired, if_neg hb, if_neg he] at hpaired
        have hrest := ih hcloses hpaired hlength hspares.tail
        rw [edited]
        split
        · exact hrest
        · have hnew := hplain (by simp [isDelimiter, hb, he])
          simp only [isDelimiter, Bool.or_eq_false_iff, decide_eq_false_iff_not] at hnew
          rw [closes_other hnew.1 hnew.2]
          exact hrest

/-- Edits that treat the two delimiters of a region alike keep a stream balanced. -/
theorem balanced_apply_of_paired (hs : s.balanced = true) (hpaired : Paired e.drop 0 [] s)
    (hspares : e.SparesDelimiters 0 s) : (e.apply s).code.balanced = true := by
  rw [balanced_iff] at hs ⊢
  rw [apply_eq]
  exact closes_edited hs hpaired rfl hspares

end Edits

/-- Both delimiters of a region are dropped when dropping goes by the innermost region. -/
theorem paired_of_owner {drop region : Nat → Bool} {i : Nat} {p : Ir.Position}
    {names : List String} {s : Stream} (hcloses : closes names s = true) (hdepth : p.stack.length = names.length + 1)
    (hdrop : ∀ k ins, s[k]? = some ins → isDelimiter ins = true →
      drop (i + k) = region ((owners p s)[k]?.getD 0)) :
    Paired drop i (p.stack.dropLast.map region) s := by
  induction s generalizing i p names with
  | nil => trivial
  | cons ins s ih =>
      have htail : ∀ k ins', s[k]? = some ins' → isDelimiter ins' = true →
          drop (i + 1 + k) = region ((owners (p.advance ins) s)[k]?.getD 0) := by
        intro k ins' hk hdelimiter
        have hstep := hdrop (k + 1) ins' hk hdelimiter
        rw [Nat.add_assoc, Nat.add_comm 1 k]
        exact hstep
      rcases ins.delimiter_cases with hop | hop | ⟨hb, he⟩
      · rw [closes_begin hop] at hcloses
        have hhead := hdrop 0 ins rfl (by simp [isDelimiter, hop])
        have hrest := ih hcloses (by rw [Position.advance_begin p hop]; simp [hdepth]) htail
        rw [Paired, if_pos hop]
        rw [Position.advance_begin p hop] at hrest
        have hne : p.stack ≠ [] := by
          intro hnil
          simp [hnil] at hdepth
        rw [List.dropLast_cons_of_ne_nil hne, List.map_cons] at hrest
        simp only [owners, Position.owner, if_pos hop, Nat.add_zero, List.getElem?_cons_zero,
          Option.getD_some] at hhead
        rw [hhead]
        exact hrest
      · cases names with
        | nil =>
            rw [closes_end_nil hop] at hcloses
            exact Bool.noConfusion hcloses
        | cons name names =>
            rw [closes_end hop, Bool.and_eq_true] at hcloses
            have hhead := hdrop 0 ins rfl (by simp [isDelimiter, hop])
            have hrest := ih hcloses.2 (by rw [Position.advance_end p hop]; simp [hdepth]) htail
            rw [Paired, if_neg (by simp [hop]), if_pos hop]
            rw [Position.advance_end p hop] at hrest
            rcases hstack : p.stack with _ | ⟨n, _ | ⟨m, rest⟩⟩
            · simp [hstack] at hdepth
            · simp [hstack] at hdepth
            · rw [hstack] at hrest
              have hnb : ins.op ≠ .scopeBegin := by simp [hop]
              simp only [owners, Position.owner, if_neg hnb, hstack, List.headD_cons, Nat.add_zero,
                List.getElem?_cons_zero, Option.getD_some] at hhead
              refine ⟨?_, ?_⟩
              · rw [hhead]
                rfl
              · exact hrest
      · rw [closes_other hb he] at hcloses
        rw [Paired, if_neg hb, if_neg he]
        have hadvance := Position.advance_other p hb he
        rw [hadvance] at htail
        exact ih hcloses hdepth htail

namespace Edits

variable {e : Edits} {s : Stream} {t : ScopeTree}

theorem balanced_apply_of_owner (ht : ScopeTree.ofStream s = .ok t) (region : Nat → Bool)
    (hdrop : ∀ i ins, s[i]? = some ins → isDelimiter ins = true → e.drop i = region (t.nodeAt i))
    (hspares : e.SparesDelimiters 0 s) : (e.apply s).code.balanced = true := by
  have hcloses := (ScopeTree.ofStream_isOk_iff s).1 ⟨t, ht⟩
  refine balanced_apply_of_paired ((balanced_iff s).2 hcloses) ?_ hspares
  refine @paired_of_owner e.drop region 0 Position.start [] s hcloses rfl ?_
  intro k ins hk hdelimiter
  have hneg : ¬(k : Int) < 0 := by omega
  rw [Nat.zero_add, hdrop k ins hk hdelimiter, ScopeTree.nodeAt, if_neg hneg,
    ScopeTree.ofStream_owner ht]
  rfl

/-- An instruction lies in one of some regions when its innermost region is one of them or inside one. -/
theorem any_inRegion (ht : ScopeTree.ofStream s = .ok t) {regions : List Nat}
    (hregions : ∀ n ∈ regions, n ≠ ScopeTree.root ∧ n < t.nodes.length) {i : Nat} (hi : i < s.length) :
    (regions.map t.node).any (inRegion · i) = regions.any (t.isAncestor · (t.nodeAt i)) := by
  rw [List.any_map, Bool.eq_iff_iff, List.any_eq_true, List.any_eq_true]
  have hiff : ∀ n ∈ regions, inRegion (t.node n) i = true ↔ t.isAncestor n (t.nodeAt i) = true := by
    intro n hn
    obtain ⟨hroot, hnodes⟩ := hregions n hn
    rw [ScopeTree.isAncestor, List.contains_iff_mem, ScopeTree.mem_ancestors_iff ht hroot hnodes hi,
      inRegion, Bool.and_eq_true, decide_eq_true_eq, decide_eq_true_eq]
  constructor
  · rintro ⟨n, hn, hin⟩
    exact ⟨n, hn, (hiff n hn).1 hin⟩
  · rintro ⟨n, hn, hanc⟩
    exact ⟨n, hn, (hiff n hn).2 hanc⟩

/-- Edits that drop whole regions, and else no delimiter, keep a stream balanced. -/
theorem balanced_apply_of_regions (ht : ScopeTree.ofStream s = .ok t) (regions : List Nat)
    (hregions : ∀ n ∈ regions, n ≠ ScopeTree.root ∧ n < t.nodes.length)
    (hdrop : ∀ i ins, s[i]? = some ins → isDelimiter ins = true →
      e.drop i = (regions.map t.node).any (inRegion · i))
    (hspares : e.SparesDelimiters 0 s) : (e.apply s).code.balanced = true := by
  refine balanced_apply_of_owner ht (fun m => regions.any (t.isAncestor · m)) ?_ hspares
  intro i ins hi hdelimiter
  rw [hdrop i ins hi hdelimiter, any_inRegion ht hregions (List.getElem?_eq_some_iff.1 hi).1]

end Edits

end Datapack.Optimize
