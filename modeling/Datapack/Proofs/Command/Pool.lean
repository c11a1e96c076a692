import Datapack.Command.Pool
import Datapack.Proofs.Command.Copying
import Datapack.Proofs.Text.Characters

/-!
# Literal pools

A pool that has collected a stream has slots for exactly the literals that the instructions of the stream
refer to.  Its init function is a list of fillings behind a guard: every filling puts a literal into a slot
of its own, and the last one marks the others as done.
-/

namespace Datapack.Command

open Ir

namespace Pool

variable {p : Pool} {l k : Literal}

/-! ## What a pool holds -/

theorem mem_insertOnce {α : Type} [DecidableEq α] (lt : α → α → Bool) {a b : α} {as : List α} :
    b ∈ insertOnce lt a as ↔ b = a ∨ b ∈ as := by
  induction as with
  | nil => simp [insertOnce]
  | cons c as ih =>
      unfold insertOnce
      split
      · next heq => simp [heq]
      · split
        · exact List.mem_cons
        · rw [List.mem_cons, ih, List.mem_cons, or_left_comm]

/-- Two literals have one slot in every pool. -/
def SharesSlot (l k : Literal) : Prop :=
  (∃ x, l.str? = some x ∧ k.str? = some x) ∨ ∃ n, l.int? = some n ∧ k.int? = some n

theorem isSome_lookup_iff :
    (p.lookup l).isSome = true ↔ (∃ x ∈ p.texts, l.str? = some x) ∨ ∃ n ∈ p.ints, l.int? = some n := by
  cases l <;> simp [lookup, constant?, Literal.str?, Literal.int?]

theorem mem_texts_intern {x : String} : x ∈ (p.intern k).texts ↔ k.str? = some x ∨ x ∈ p.texts := by
  cases k with
  | str y =>
      simp only [intern, mem_insertOnce, Literal.str?, Option.some.injEq]
      exact or_congr_left eq_comm
  | _ => simp [intern, Literal.str?, Literal.int?]

theorem mem_ints_intern {n : Int64} : n ∈ (p.intern k).ints ↔ k.int? = some n ∨ n ∈ p.ints := by
  have hinsert : ∀ m, n ∈ insertOnce (fun a b => a < b) m p.ints ↔ some m = some n ∨ n ∈ p.ints := by
    intro m
    rw [mem_insertOnce, Option.some.injEq]
    exact or_congr_left eq_comm
  cases k with
  | int m => exact hinsert m
  | bool b => exact hinsert _
  | _ => simp [intern, Literal.int?]

theorem isSome_lookup_intern :
    ((p.intern k).lookup l).isSome = true ↔ SharesSlot l k ∨ (p.lookup l).isSome = true := by
  simp only [isSome_lookup_iff, mem_texts_intern, mem_ints_intern, SharesSlot, or_and_right, exists_or]
  rw [or_or_or_comm]
  simp only [and_comm]

/-- Literals that are added to a pool get slots, and no others. -/
theorem isSome_lookup_foldl (ks : List Literal) :
    ((ks.foldl intern p).lookup l).isSome = true ↔ (∃ k ∈ ks, SharesSlot l k) ∨ (p.lookup l).isSome = true := by
  induction ks generalizing p with
  | nil => simp
  | cons k ks ih =>
      rw [List.foldl_cons, ih, isSome_lookup_intern, List.exists_mem_cons_iff, or_assoc, or_left_comm]

theorem targets_collect (p : Pool) (s : Stream) :
    (p.collect s).objective = p.objective ∧ (p.collect s).storage = p.storage := by
  unfold collect
  generalize s.flatMap Instruction.literals = ls
  induction ls generalizing p with
  | nil => exact ⟨rfl, rfl⟩
  | cons l ls ih =>
      rw [List.foldl_cons, (ih _).1, (ih _).2]
      unfold intern
      split
      · exact ⟨rfl, rfl⟩
      · split <;> exact ⟨rfl, rfl⟩

theorem isSome_lookup_collect {s : Stream} (htexts : p.texts = []) (hints : p.ints = []) :
    ((p.collect s).lookup l).isSome = true ↔
      ∃ ins ∈ s, ∃ r ∈ ins.refs, ∃ k, r.literal? = some k ∧ SharesSlot l k := by
  have hnone : ¬(p.lookup l).isSome = true := by simp [isSome_lookup_iff, htexts, hints]
  rw [collect, isSome_lookup_foldl, or_iff_left hnone]
  simp only [List.mem_flatMap, Instruction.literals, List.mem_filterMap]
  constructor
  · rintro ⟨k, ⟨ins, hins, r, hr, hk⟩, hshares⟩
    exact ⟨ins, hins, r, hr, k, hk, hshares⟩
  · rintro ⟨ins, hins, r, hr, k, hk, hshares⟩
    exact ⟨k, ⟨ins, hins, r, hr, hk⟩, hshares⟩

/-! ## Slots of their own -/

theorem ne_toString {x : String} {c : Char} {n : Int} (hmem : c ∈ x.toList) (hdigit : c.isDigit = false)
    (hsign : c ≠ '-') : x ≠ toString n := by
  rintro rfl
  rcases Text.isDigit_of_mem_toString hmem with h | h
  · exact Bool.false_ne_true (hdigit.symm.trans h)
  · exact hsign h

theorem holder_neg_ne {m n : Int64} (hm : m < 0) (hn : ¬n < 0) : (p.intSlot m).path ≠ (p.intSlot n).path := by
  simp only [intSlot, Slot.score, if_pos hm, if_neg hn]
  intro heq
  rw [show "#n" = "#" ++ "n" from rfl, String.append_assoc, String.append_right_inj] at heq
  exact ne_toString (c := 'n') (by simp) (by decide) (by decide) heq

/-- The integers of 64 bits have different holders. -/
theorem holder_inj {m n : Int64} (h : (p.intSlot m).path = (p.intSlot n).path) : m = n := by
  by_cases hm : m < 0
  · by_cases hn : n < 0
    · simp only [intSlot, Slot.score, if_pos hm, if_pos hn, String.append_right_inj] at h
      exact Int64.neg_inj.1 (Int64.toInt_inj.1 (Text.toString_int_inj h))
    · exact absurd h (holder_neg_ne hm hn)
  · by_cases hn : n < 0
    · exact absurd h.symm (holder_neg_ne hn hm)
    · simp only [intSlot, Slot.score, if_neg hm, if_neg hn, String.append_right_inj] at h
      exact Int64.toInt_inj.1 (Text.toString_int_inj h)

theorem holder_ne_sentinel (n : Int64) : (p.intSlot n).path ≠ p.sentinel.path := by
  have hsentinel : p.sentinel.path = "#" ++ "initialized" := rfl
  rw [hsentinel]
  simp only [intSlot, Slot.score]
  split
  · intro heq
    rw [show "#n" = "#" ++ "n" from rfl, String.append_assoc, String.append_right_inj] at heq
    have hsecond := congrArg (fun x => x.toList.head?) heq
    simp at hsecond
  · intro heq
    rw [String.append_right_inj] at heq
    exact ne_toString (c := 'i') (by decide) (by decide) (by decide) heq.symm

theorem keys_textSlot (x : String) : (p.textSlot x).keys = [(p.textSlot x).path] := by
  apply Text.split_of_not_mem
  have hletter : '.' ∉ "s".toList := by decide
  simp only [textSlot, Slot.storage, String.toList_append, List.mem_append, not_or]
  exact ⟨hletter, Text.dot_not_mem_hex16 _⟩

theorem not_overlaps_textSlot {x y : String}
    (hne : Text.fnv1a (Text.bytes x) ≠ Text.fnv1a (Text.bytes y)) : ¬(p.textSlot x).Overlaps (p.textSlot y) := by
  rw [Slot.overlaps_storage_iff rfl rfl, keys_textSlot, keys_textSlot]
  have hpath : (p.textSlot x).path ≠ (p.textSlot y).path := fun heq =>
    hne (Text.hex16_inj ((String.append_right_inj "s").1 heq))
  simp [hpath, Ne.symm hpath]

/-! ## The init function -/

/-- The texts of a pool are told apart by their hashes. -/
def Separate (p : Pool) : Prop :=
  ∀ x ∈ p.texts, ∀ y ∈ p.texts, Text.fnv1a (Text.bytes x) = Text.fnv1a (Text.bytes y) → x = y

/-- What the init function puts where. -/
def fillings (p : Pool) : List (Slot × Literal) :=
  p.ints.map (fun n => (p.intSlot n, .int n)) ++ p.texts.map (fun x => (p.textSlot x, .str x)) ++
    [(p.sentinel, .int 1)]

def fill (e : Slot × Literal) : Command :=
  match e.1.space with
  | .score => .setScore e.1 (e.2.int?.getD 0)
  | .storage => .setData e.1 e.2

theorem initCommands_eq (p : Pool) :
    p.initCommands =
      .addObjective p.objective :: .guarded .holds p.sentinel (.exactly 1) (.ret 0) :: p.fillings.map fill := by
  rw [fillings, List.map_append, List.map_append, List.map_map, List.map_map]
  rfl

theorem not_overlaps_of_mem_fillings (hseparate : p.Separate) {e f : Slot × Literal} (he : e ∈ p.fillings)
    (hf : f ∈ p.fillings) (hne : e ≠ f) : ¬e.1.Overlaps f.1 := by
  have hscores : ∀ {s t : Slot}, s.space = .score → s.path ≠ t.path → ¬s.Overlaps t := by
    rintro s t hs hpath ⟨-, -, heq | ⟨hstorage, -⟩⟩
    · exact hpath heq
    · cases hs.symm.trans hstorage
  have hspaces : ∀ {s t : Slot}, s.space = .score → t.space = .storage → ¬s.Overlaps t ∧ ¬t.Overlaps s := by
    intro s t hs ht
    unfold Slot.Overlaps
    simp [hs, ht]
  simp only [fillings, List.mem_append, List.mem_map, List.mem_singleton] at he hf
  rcases he with (⟨m, -, rfl⟩ | ⟨x, hx, rfl⟩) | rfl <;> rcases hf with (⟨n, -, rfl⟩ | ⟨y, hy, rfl⟩) | rfl
  · exact hscores rfl fun heq => hne (by rw [holder_inj heq])
  · exact (hspaces rfl rfl).1
  · exact hscores rfl (holder_ne_sentinel m)
  · exact (hspaces rfl rfl).2
  · exact not_overlaps_textSlot fun heq => hne (by rw [hseparate x hx y hy heq])
  · exact (hspaces rfl rfl).2
  · exact hscores rfl (holder_ne_sentinel n).symm
  · exact (hspaces rfl rfl).1
  · exact absurd rfl hne

end Pool

namespace Memory

variable {M : Memory} {e : Slot × Literal} {s : Slot}

/-- The state after a literal has been put into a slot. -/
def filled (M : Memory) (e : Slot × Literal) : Memory :=
  match e.1.space with
  | .score => { M with scores := M.scores.set e.1 (e.2.int?.getD 0) }
  | .storage => M.set e.1 (.ofLiteral e.2)

theorem effect_fill (M : Memory) (e : Slot × Literal) : M.effect (Pool.fill e) = some (M.filled e) := by
  unfold Pool.fill filled
  cases e.1.space <;> rfl

theorem value?_filled_self (hscore : e.1.space = .score → e.2.int?.isSome = true)
    (hstorage : e.1.space = .storage → M.Admits e.1) : (M.filled e).value? e.1 = some (.ofLiteral e.2) := by
  unfold filled value?
  cases hspace : e.1.space with
  | score =>
      obtain ⟨n, hn⟩ := Option.isSome_iff_exists.1 (hscore hspace)
      have hliteral : Data.ofLiteral e.2 = .number n := by
        cases hl : e.2 <;> rw [hl] at hn <;> cases hn <;> rfl
      simp [hn, hliteral]
  | storage => exact data?_set_self (hstorage hspace) _

theorem value?_filled (h : ¬e.1.Overlaps s) : (M.filled e).value? s = M.value? s := by
  unfold filled
  cases hspace : e.1.space with
  | score => exact value?_setScore h
  | storage => exact value?_set hspace h _

theorem opens_filled {id : String} (h : (M.data id).Opens []) : ((M.filled e).data id).Opens [] := by
  unfold filled
  cases e.1.space with
  | score => exact h
  | storage =>
      by_cases htarget : id = e.1.target
      · subst htarget
        exact opens_set h (fun hpre => e.1.keys_ne_nil (List.prefix_nil.1 hpre)) _
      · rw [data_set_of_ne M _ htarget]
        exact h

theorem value?_foldl_filled {es : List (Slot × Literal)} (h : ∀ e ∈ es, ¬e.1.Overlaps s) :
    (es.foldl filled M).value? s = M.value? s := by
  induction es generalizing M with
  | nil => rfl
  | cons f es ih =>
      have hrest : (es.foldl filled (M.filled f)).value? s = (M.filled f).value? s :=
        ih fun e he => h e (List.mem_cons_of_mem f he)
      exact hrest.trans (value?_filled (h f List.mem_cons_self))

end Memory

namespace Pool

variable {p : Pool} {G : Game} {M U : Memory} {es : List (Slot × Literal)}

/-- A filling of a score is an integer, and the slot of a text is an entry of its storage. -/
theorem value?_filled_of_mem_fillings {e : Slot × Literal} (he : e ∈ p.fillings) (hroot : (M.data p.storage).Opens []) :
    (M.filled e).value? e.1 = some (.ofLiteral e.2) := by
  simp only [fillings, List.mem_append, List.mem_map, List.mem_singleton] at he
  rcases he with (⟨n, -, rfl⟩ | ⟨x, -, rfl⟩) | rfl
  · exact Memory.value?_filled_self (fun _ => rfl) (by rintro ⟨⟩)
  · refine Memory.value?_filled_self (by rintro ⟨⟩) fun _ => ?_
    rw [Memory.Admits, keys_textSlot]
    exact hroot
  · exact Memory.value?_filled_self (fun _ => rfl) (by rintro ⟨⟩)

theorem value?_fillings (hseparate : p.Separate) (hes : es ⊆ p.fillings) (hroot : (M.data p.storage).Opens [])
    {e : Slot × Literal} (he : e ∈ es) : (es.foldl Memory.filled M).value? e.1 = some (.ofLiteral e.2) := by
  induction es generalizing M with
  | nil => cases he
  | cons f es ih =>
      have hrest : es ⊆ p.fillings := fun d hd => hes (List.mem_cons_of_mem f hd)
      by_cases hlater : e ∈ es
      · exact ih hrest (Memory.opens_filled hroot) hlater
      · -- the slot is filled here for the last time, and what follows goes to other slots
        obtain rfl : e = f := (List.mem_cons.1 he).resolve_right hlater
        have happart : ∀ d ∈ es, ¬d.1.Overlaps e.1 := by
          intro d hd
          refine not_overlaps_of_mem_fillings hseparate (hrest hd) (hes he) ?_
          rintro rfl
          exact hlater hd
        rw [List.foldl_cons, Memory.value?_foldl_filled happart]
        exact value?_filled_of_mem_fillings (hes he) hroot

theorem exists_filling {l : Literal} {s : Slot} (h : p.lookup l = some s) :
    ∃ e ∈ p.fillings, e.1 = s ∧ Data.ofLiteral e.2 = .ofLiteral l := by
  have hint : ∀ n, p.constant? n = some s → ∃ e ∈ p.fillings, e.1 = s ∧ Data.ofLiteral e.2 = .number n := by
    intro n hn
    obtain ⟨hmem, hslot⟩ := Option.ite_none_right_eq_some.1 hn
    refine ⟨(p.intSlot n, .int n), ?_, Option.some.inj hslot, rfl⟩
    exact List.mem_append_left _ (List.mem_append_left _ (List.mem_map_of_mem hmem))
  cases l with
  | int n => exact hint n h
  | bool b => exact hint _ h
  | null => cases h
  | str x =>
      obtain ⟨hmem, hslot⟩ := Option.ite_none_right_eq_some.1 h
      refine ⟨(p.textSlot x, .str x), ?_, Option.some.inj hslot, rfl⟩
      exact List.mem_append_left _ (List.mem_append_right _ (List.mem_map_of_mem hmem))

theorem runs_initCommands_iff (hobjective : ∀ M N, G.other (.addObjective p.objective) M N ↔ N = M) :
    Runs G p.initCommands M U ↔
      U = if M.scores p.sentinel = some 1 then M else p.fillings.foldl Memory.filled M := by
  have hfill : Runs G (p.fillings.map fill) M U ↔ U = p.fillings.foldl Memory.filled M := by
    rw [← List.append_nil (p.fillings.map fill), runs_map_iff Memory.effect_fill, runs_nil_iff]
  have htest : Polarity.holds.admits ((Test.inRange p.sentinel (.exactly 1)).passes M.scores) = true ↔
      M.scores p.sentinel = some 1 := by
    simp [Polarity.admits, Test.passes, Range.contains, Option.any_eq_true]
  rw [initCommands_eq, runs_other_iff rfl rfl]
  simp only [hobjective, exists_eq_left]
  rw [runs_guarded_iff]
  by_cases hdone : M.scores p.sentinel = some 1
  · rw [if_pos (htest.2 hdone), if_pos hdone, runs_ret_iff]
  · rw [if_neg (mt htest.1 hdone), if_neg hdone, hfill]

/-- A pool that has collected a stream has slots for exactly the literals the stream refers to: texts by
their characters, integers and booleans by their integer view. Different integers have different holders,
and none that of the sentinel. If no two texts have one hash, the init function puts every literal into its
slot and sets the sentinel, from every state in which the sentinel is not one; run once more, it changes
nothing. -/
theorem collect_exact_init_fills (objective storage : String) (s : Stream) :
    let p : Pool := Pool.collect { objective, storage } s
    (∀ l : Literal, (p.lookup l).isSome = true ↔
        ∃ ins ∈ s, ∃ r ∈ ins.refs, ∃ k, r.literal? = some k ∧
          ((∃ x, l.str? = some x ∧ k.str? = some x) ∨ ∃ n, l.int? = some n ∧ k.int? = some n)) ∧
      p.lookup .null = none ∧
      (∀ m n a b, p.lookup (.int m) = some a → p.lookup (.int n) = some b → m ≠ n → a.path ≠ b.path) ∧
      (∀ n a, p.lookup (.int n) = some a → a.path ≠ p.sentinel.path) ∧
      ((∀ x ∈ p.texts, ∀ y ∈ p.texts, Text.fnv1a (Text.bytes x) = Text.fnv1a (Text.bytes y) → x = y) →
        ∀ G : Game, (∀ M N, G.other (.addObjective objective) M N ↔ N = M) →
        ∀ (M : Memory) entries, M.data storage = .compound entries → M.scores p.sentinel ≠ some 1 →
          ∃ N, (∀ U, Runs G p.initCommands M U ↔ U = N) ∧
            (∀ l a, p.lookup l = some a → N.value? a = some (.ofLiteral l)) ∧
            N.scores p.sentinel = some 1 ∧
            ∀ U, Runs G p.initCommands N U ↔ U = N) := by
  intro p
  obtain ⟨hobjective, hstorage⟩ : p.objective = objective ∧ p.storage = storage := targets_collect _ s
  have hholders : ∀ {n a}, p.lookup (.int n) = some a → a = p.intSlot n := by
    intro n a h
    have hconstant : p.constant? n = some a := h
    exact (Option.some.inj (Option.ite_none_right_eq_some.1 hconstant).2).symm
  refine ⟨fun l => isSome_lookup_collect rfl rfl, rfl, fun m n a b hm hn hne hpath => ?_, fun n a hn => ?_, ?_⟩
  · rw [hholders hm, hholders hn] at hpath
    exact hne (holder_inj hpath)
  · rw [hholders hn]
    exact holder_ne_sentinel n
  · intro hseparate G hG M entries hentries hsentinel
    have hroot : (M.data p.storage).Opens [] := Data.opens_nil_iff.2 ⟨entries, hstorage ▸ hentries⟩
    have hfilled : ∀ e ∈ p.fillings, (p.fillings.foldl Memory.filled M).value? e.1 = some (.ofLiteral e.2) :=
      fun e he => value?_fillings hseparate (List.Subset.refl _) hroot he
    have hdone : (p.fillings.foldl Memory.filled M).scores p.sentinel = some 1 := by
      have hvalue := hfilled (p.sentinel, .int 1) (List.mem_append_right _ (List.mem_singleton_self _))
      obtain ⟨n, hn, heq⟩ := Option.map_eq_some_iff.1 hvalue
      cases heq
      exact hn
    rw [← hobjective] at hG
    refine ⟨_, fun U => ?_, fun l a hl => ?_, hdone, fun U => ?_⟩
    · rw [runs_initCommands_iff hG, if_neg hsentinel]
    · obtain ⟨e, he, rfl, hliteral⟩ := exists_filling hl
      rw [hfilled e he, hliteral]
    · rw [runs_initCommands_iff hG, if_pos hdone]

/-- A boolean and an integer of one view, the least integer among the arguments of a call, and two texts. -/
def mixedOperands : Stream :=
  [.binaryOp none .add (some (.literal (.bool true))) (some (.literal (.int (-3)))),
    .compare none .eq (some (.literal (.str "up"))) (some (.literal (.str "down"))),
    .call none default
      [⟨"n", some (.literal (.int (-9223372036854775808)))⟩, ⟨"m", some (.literal (.int 1))⟩],
    .ret (some (.literal .null))]

theorem collect_exact_init_fills_mixed :
    let p : Pool := Pool.collect { objective := "const", storage := "words" } mixedOperands
    let G : Game := ⟨fun _ => none, fun _ => none, fun _ => "", fun _ M N => N = M⟩
    p.ints = [-9223372036854775808, -3, 1] ∧ p.texts = ["down", "up"] ∧
      ∃ N, (∀ U, Runs G p.initCommands ⟨fun _ => none, fun _ => .empty⟩ U ↔ U = N) ∧
        N.value? (.score "#1" "const") = some (.number 1) ∧
        N.value? (.score "#n-9223372036854775808" "const") = some (.number (-9223372036854775808)) ∧
        N.value? (p.textSlot "up") = some (.text "up") := by
  intro p G
  have hints : p.ints = [-9223372036854775808, -3, 1] := by decide
  have htexts : p.texts = ["down", "up"] := by decide
  have hseparate : p.Separate := by
    rw [Separate, htexts]
    decide +kernel
  obtain ⟨-, -, -, -, hfills⟩ := collect_exact_init_fills "const" "words" mixedOperands
  obtain ⟨N, hruns, hvalues, -⟩ :=
    hfills hseparate G (fun _ _ => Iff.rfl) ⟨fun _ => none, fun _ => .empty⟩ _ rfl (by simp)
  have htrue : p.lookup (.bool true) = some (.score "#1" "const") := by decide
  have hleast : p.lookup (.int (-9223372036854775808)) = some (.score "#n-9223372036854775808" "const") := by decide
  have hup : p.lookup (.str "up") = some (p.textSlot "up") := by
    rw [lookup, htexts]
    exact if_pos (by decide)
  exact ⟨hints, htexts, N, hruns, hvalues _ _ htrue, hvalues _ _ hleast, hvalues _ _ hup⟩

end Pool

end Datapack.Command
