import Datapack.Proofs.Command.Game

/-!
# Copying values

What a slot holds, and what the copies of values leave in it.  A copy gives its target the value of its
source, and changes no slot that the target does not overlap.
-/

namespace Datapack.Command

open Ir

namespace Memory

/-- The value of a slot; that of a score is a number. -/
def value? (M : Memory) (s : Slot) : Option Data :=
  match s.space with
  | .score => (M.scores s).map .number
  | .storage => M.data? s

def given? (M : Memory) : Operand → Option Data
  | .literal l => some (.ofLiteral l)
  | .slot s => M.value? s

/-- The state after a copy between two slots of one space. Data that is missing is not copied. -/
def copied (M : Memory) (dst src : Slot) : Memory :=
  if dst = src then M
  else
    match dst.space with
    | .score => { M with scores := M.scores.set dst (M.scores.get src) }
    | .storage => (M.data? src).elim M (M.set dst)

variable {M : Memory} {dst src s : Slot} {v : Data}

theorem value?_of_storage (h : s.space = .storage) : M.value? s = M.data? s := by
  simp [value?, h]

theorem copied_storage (hdst : dst.space = .storage) (hne : dst ≠ src) :
    M.copied dst src = (M.data? src).elim M (M.set dst) := by
  simp [copied, hdst, hne]

/-- A copy gives its target the value of its source, if the target can be set. -/
theorem value?_copied (hspace : dst.space = src.space) (hdst : dst.space = .storage → M.Admits dst)
    (hv : M.value? src = some v) : (M.copied dst src).value? dst = some v := by
  unfold copied
  split
  · next h => rwa [h]
  · unfold value? at hv ⊢
    rw [hspace]
    cases hsrc : src.space with
    | score =>
        rw [hsrc] at hv
        obtain ⟨n, hn, rfl⟩ := Option.map_eq_some_iff.1 hv
        simp [Scores.get_of_eq hn]
    | storage =>
        rw [hsrc] at hv
        dsimp only at hv ⊢
        rw [hv]
        exact data?_set_self (hdst (hspace.trans hsrc)) v

theorem value?_setScore {n : Int64} (h : ¬dst.Overlaps s) :
    Memory.value? { M with scores := M.scores.set dst n } s = M.value? s := by
  unfold value?
  cases hs : s.space with
  | score =>
      have hne : s ≠ dst := by
        rintro rfl
        exact h ⟨rfl, rfl, .inl rfl⟩
      simp [Scores.set_ne _ _ hne]
  | storage => rfl

theorem value?_set (hdst : dst.space = .storage) (h : ¬dst.Overlaps s) (v : Data) :
    (M.set dst v).value? s = M.value? s := by
  unfold value?
  cases hs : s.space with
  | score => rfl
  | storage => exact data?_set_of_not_overlaps hdst hs h v

theorem value?_removed (hdst : dst.space = .storage) (h : ¬dst.Overlaps s) :
    (M.removed dst).value? s = M.value? s := by
  unfold value?
  cases hs : s.space with
  | score => rfl
  | storage => exact data?_removed_of_not_overlaps hdst hs h

/-- A copy leaves the slots as they are that its target does not overlap. -/
theorem value?_copied_of_not_overlaps (h : ¬dst.Overlaps s) : (M.copied dst src).value? s = M.value? s := by
  unfold copied
  split
  · rfl
  · cases hdst : dst.space with
    | score => exact value?_setScore h
    | storage =>
        cases M.data? src with
        | none => rfl
        | some w => exact value?_set hdst h w

/-- The state after several copies, one after the other. -/
def copiedAll (M : Memory) (bs : List (Slot × Slot)) : Memory := bs.foldl (fun M b => M.copied b.1 b.2) M

theorem value?_copiedAll {bs : List (Slot × Slot)} (h : ∀ b ∈ bs, b.1 = b.2 ∨ ¬b.1.Overlaps s) :
    (M.copiedAll bs).value? s = M.value? s := by
  induction bs generalizing M with
  | nil => rfl
  | cons b bs ih =>
      have hrest : ((M.copied b.1 b.2).copiedAll bs).value? s = (M.copied b.1 b.2).value? s :=
        ih fun c hc => h c (List.mem_cons_of_mem b hc)
      have hfirst : (M.copied b.1 b.2).value? s = M.value? s := by
        rcases h b List.mem_cons_self with heq | hnot
        · rw [copied, if_pos heq]
        · exact value?_copied_of_not_overlaps hnot
      exact hrest.trans hfirst

theorem not_contains_self (s : Slot) : ¬s.Contains s := by
  rintro ⟨rest, hrest⟩
  have hlength := congrArg (fun x => x.toList.length) hrest
  simp only [String.toList_append, List.length_append, show ".".toList.length = 1 from rfl] at hlength
  omega

/-- A slot can be set after a copy to itself or to a slot that does not overlap it. -/
theorem admits_copied (hs : s.space = .storage) (h : M.Admits s) (hdst : dst = s ∨ ¬dst.Overlaps s) :
    (M.copied dst src).Admits s := by
  unfold copied
  split
  · exact h
  · cases hspace : dst.space with
    | score => exact h
    | storage =>
        dsimp only
        cases M.data? src with
        | none => exact h
        | some v =>
            refine admits_set h (fun htarget hinside => ?_) v
            rcases hdst with rfl | hnot
            · exact not_contains_self dst hinside
            · exact hnot ⟨hspace.trans hs.symm, htarget, .inr ⟨hspace, .inl hinside⟩⟩

theorem admits_copiedAll {bs : List (Slot × Slot)} (hs : s.space = .storage) (h : M.Admits s)
    (hbs : ∀ b ∈ bs, ¬b.1.Overlaps s) : (M.copiedAll bs).Admits s := by
  induction bs generalizing M with
  | nil => exact h
  | cons b bs ih =>
      exact ih (admits_copied hs h (.inr (hbs b List.mem_cons_self))) fun c hc => hbs c (List.mem_cons_of_mem b hc)

section Result

variable {ret : Slot} {backs front rest : List (Slot × Slot)} (hadmits : dst.space = .storage → M.Admits dst)

include hadmits

/-- A target keeps what has been copied into it first if no later target overlaps it. -/
theorem value?_of_spared (hspace : dst.space = ret.space) (hv : M.value? ret = some v)
    (hspared : ∀ b ∈ backs, b.1 = b.2 ∨ ¬b.1.Overlaps dst) :
    (M.copiedAll ((dst, ret) :: backs)).value? dst = some v := by
  have hfirst : (M.copied dst ret).value? dst = some v := value?_copied hspace hadmits hv
  exact (value?_copiedAll hspared).trans hfirst

/-- A target that is copied into once more gets the value of the later source. -/
theorem value?_of_rebound (hsplit : backs = front ++ (dst, src) :: rest) (hlater : dst.space = src.space)
    (hothers : ∀ b ∈ front ++ rest, ¬b.1.Overlaps dst) (hsrc : ¬dst.Overlaps src)
    (hfront : ∀ b ∈ front, ¬b.1.Overlaps src) (hv : M.value? src = some v) :
    (M.copiedAll ((dst, ret) :: backs)).value? dst = some v := by
  have hvalue : ((M.copied dst ret).copiedAll front).value? src = some v := by
    rw [value?_copiedAll fun b hb => .inr (hfront b hb), value?_copied_of_not_overlaps hsrc, hv]
  have hadmits' : dst.space = .storage → ((M.copied dst ret).copiedAll front).Admits dst := fun hstorage =>
    admits_copiedAll hstorage (admits_copied hstorage (hadmits hstorage) (.inl rfl))
      fun b hb => hothers b (List.mem_append_left _ hb)
  have hrest : M.copiedAll ((dst, ret) :: backs) =
      (((M.copied dst ret).copiedAll front).copied dst src).copiedAll rest := by
    rw [hsplit, copiedAll, List.foldl_cons, List.foldl_append, List.foldl_cons]
    rfl
  rw [hrest, value?_copiedAll fun b hb => .inr (hothers b (List.mem_append_right _ hb))]
  exact value?_copied hlater hadmits' hvalue

end Result

/-- Setting data of one storage does not change what an operand gives from elsewhere. -/
theorem given?_set {o : Operand} (h : ∀ t, o = .slot t → t.target ≠ s.target) :
    (M.set s v).given? o = M.given? o := by
  cases o with
  | literal l => rfl
  | slot t =>
      have hdata : (M.set s v).data? t = M.data? t := by
        rw [data?, data?, data_set_of_ne M v (h t rfl)]
      have hscores : (M.set s v).scores = M.scores := rfl
      cases ht : t.space <;> simp [given?, value?, ht, hdata, hscores]

end Memory

variable {G : Game} {M N U : Memory} {dst src : Slot} {rest : List Command}

theorem isControl_copy : ∀ c ∈ copy dst src, c.isControl = false := by
  intro c hc
  unfold copy at hc
  split at hc
  · cases hc
  · split at hc <;> exact List.eq_of_mem_singleton hc ▸ rfl

theorem runs_copy_iff (hspace : dst.space = src.space) :
    Runs G (copy dst src ++ rest) M U ↔ Runs G rest (M.copied dst src) U := by
  unfold copy Memory.copied
  split
  · rfl
  · rw [← hspace]
    cases dst.space with
    | score => exact runs_plain_iff rfl
    | storage => exact runs_plain_iff rfl

theorem runs_copies_iff {bs : List (Slot × Slot)} (h : ∀ b ∈ bs, b.1.space = b.2.space) :
    Runs G (bs.flatMap fun b => copy b.1 b.2) M U ↔ U = M.copiedAll bs := by
  induction bs generalizing M with
  | nil => exact runs_nil_iff
  | cons b bs ih =>
      rw [List.flatMap_cons, runs_copy_iff (h b List.mem_cons_self)]
      exact ih fun c hc => h c (List.mem_cons_of_mem b hc)

/-- Storing an operand as data sets the target to the value it gives. -/
theorem assign_runs {o : Operand} {v : Data} (hdst : dst.space = .storage) (ho : M.given? o = some v)
    (hne : o ≠ .slot dst) :
    ∃ cs, assign dst o = .ok cs ∧
      ∀ (G : Game) rest U, Runs G (cs ++ rest) M U ↔ Runs G rest (M.set dst v) U := by
  cases o with
  | literal l =>
      obtain rfl : Data.ofLiteral l = v := Option.some.inj ho
      exact ⟨[.setData dst l], by simp [assign, store, hdst], fun _ _ _ => runs_plain_iff rfl⟩
  | slot s =>
      have hslot : dst ≠ s := fun heq => hne (heq ▸ rfl)
      refine ⟨copy dst s, rfl, fun _ _ _ => ?_⟩
      rw [copy, if_neg hslot, hdst]
      cases hs : s.space with
      | score =>
          simp only [Memory.given?, Memory.value?, hs] at ho
          obtain ⟨n, hn, rfl⟩ := Option.map_eq_some_iff.1 ho
          refine runs_plain_iff ?_
          rw [Memory.effect, Scores.get_of_eq hn]
      | storage =>
          rw [Memory.given?, Memory.value?_of_storage hs] at ho
          refine runs_plain_iff ?_
          rw [Memory.effect, ho, Option.elim_some]

end Datapack.Command
