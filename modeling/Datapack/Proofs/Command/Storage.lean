import Mathlib.Logic.Function.Basic
import Datapack.Proofs.Command.Execution
import Datapack.Proofs.Generation.Overlap
import Datapack.Proofs.Text.Split

/-!
# Data at run time

A storage holds a tree of data: compounds of values by key, with numbers and texts at the leaves.  Setting
the value at a path makes the compounds on the way, unless a number or a text stands in it, and leaves alone
what lies neither below the path nor above it.
-/

namespace Datapack.Command

open Ir

inductive Data where
  | number (n : Int64)
  | text (s : String)
  | compound (entries : String → Option Data)

namespace Data

def empty : Data := compound fun _ => none

instance : Inhabited Data := ⟨empty⟩

/-- The value a literal stands for in data. -/
def ofLiteral : Literal → Data
  | .int n => number n
  | .bool b => number (if b then 1 else 0)
  | .str s => text s
  | .null => empty

/-- What stands at a path. -/
def at? : Data → List String → Option Data
  | d, [] => some d
  | compound es, k :: ks => (es k).bind (·.at? ks)
  | _, _ :: _ => none

/-- Set the value at a path. -/
def put (v : Data) : Data → List String → Option Data
  | _, [] => some v
  | compound es, k :: ks =>
    (put v ((es k).getD empty) ks).map fun e => compound (Function.update es k (some e))
  | _, _ :: _ => none

/-- Take the value at a path away. -/
def remove : Data → List String → Data
  | compound es, [k] => compound (Function.update es k none)
  | compound es, k :: ks => compound (Function.update es k ((es k).map (·.remove ks)))
  | d, _ => d

/-- Only compounds stand on a path, as far as it leads. -/
def Opens (d : Data) (ks : List String) : Prop :=
  ∀ front, front <+: ks → ∀ e, d.at? front = some e → ∃ es, e = compound es

variable {d d' v : Data} {ks ls rest : List String}

@[simp] theorem at?_nil (d : Data) : d.at? [] = some d := by
  cases d <;> rfl

@[simp] theorem at?_compound (es : String → Option Data) (k : String) (ks : List String) :
    (compound es).at? (k :: ks) = (es k).bind (·.at? ks) := rfl

theorem at?_append (d : Data) (ks ls : List String) : d.at? (ks ++ ls) = (d.at? ks).bind (·.at? ls) := by
  induction ks generalizing d with
  | nil => simp
  | cons k ks ih =>
      cases d with
      | compound es => simp [ih, Option.bind_assoc]
      | _ => rfl

theorem at?_empty (h : ks ≠ []) : empty.at? ks = none := by
  cases ks with
  | nil => exact absurd rfl h
  | cons k ks => rfl

@[simp] theorem put_nil (v d : Data) : put v d [] = some v := by
  cases d <;> rfl

theorem put_cons_eq_some_iff {k : String} :
    put v d (k :: ks) = some d' ↔ ∃ es e, d = compound es ∧ put v ((es k).getD empty) ks = some e ∧
      d' = compound (Function.update es k (some e)) := by
  cases d with
  | compound es => simp [put, eq_comm]
  | _ => simp [put]

/-- A value that has been set is found, with all that it holds. -/
theorem at?_put (h : put v d ks = some d') (rest : List String) : d'.at? (ks ++ rest) = v.at? rest := by
  induction ks generalizing d d' with
  | nil =>
      rw [put_nil, Option.some.injEq] at h
      rw [← h, List.nil_append]
  | cons k ks ih =>
      obtain ⟨es, e, rfl, he, rfl⟩ := put_cons_eq_some_iff.1 h
      rw [List.cons_append, at?_compound, Function.update_self, Option.bind_some, ih he]

theorem at?_put_above (h : put v d (ks ++ ls) = some d') (hls : ls ≠ []) : ∃ es, d'.at? ks = some (compound es) := by
  induction ks generalizing d d' with
  | nil =>
      obtain ⟨k, ls, rfl⟩ := List.exists_cons_of_ne_nil hls
      obtain ⟨es, e, -, -, rfl⟩ := put_cons_eq_some_iff.1 h
      exact ⟨_, at?_nil _⟩
  | cons k ks ih =>
      obtain ⟨es, e, -, he, rfl⟩ := put_cons_eq_some_iff.1 h
      rw [at?_compound, Function.update_self, Option.bind_some]
      exact ih he

/-- What lies neither below a value that has been set nor above it is as before. -/
theorem at?_put_apart (h : put v d ks = some d') (hbelow : ¬ks <+: ls) (habove : ¬ls <+: ks) :
    d'.at? ls = d.at? ls := by
  induction ks generalizing d d' ls with
  | nil => exact absurd List.nil_prefix hbelow
  | cons k ks ih =>
      obtain ⟨es, e, rfl, he, rfl⟩ := put_cons_eq_some_iff.1 h
      cases ls with
      | nil => exact absurd List.nil_prefix habove
      | cons l ls =>
          rw [at?_compound, at?_compound]
          by_cases hl : l = k
          · subst hl
            rw [List.cons_prefix_cons, not_and] at hbelow habove
            have hrest := ih he (hbelow rfl) (habove rfl)
            rw [Function.update_self, Option.bind_some, hrest]
            cases hentry : es l with
            | some f => rfl
            | none =>
                have hne : ls ≠ [] := by
                  rintro rfl
                  exact habove rfl List.nil_prefix
                rw [Option.getD_none, at?_empty hne, Option.bind_none]
          · rw [Function.update_of_ne hl]

theorem opens_empty (ks : List String) : empty.Opens ks := by
  intro front _ e he
  cases front with
  | nil => exact ⟨_, (Option.some.inj he).symm⟩
  | cons k front => cases he

theorem opens_nil_iff : d.Opens [] ↔ ∃ es, d = compound es := by
  constructor
  · exact fun h => h [] List.nil_prefix d (at?_nil d)
  · rintro ⟨es, rfl⟩ front hfront e he
    rw [List.prefix_nil.1 hfront] at he
    exact ⟨es, (Option.some.inj he).symm⟩

theorem opens_cons_iff {k : String} :
    d.Opens (k :: ks) ↔ ∃ es, d = compound es ∧ ((es k).getD empty).Opens ks := by
  constructor
  · intro h
    obtain ⟨es, rfl⟩ := h [] List.nil_prefix d (at?_nil d)
    refine ⟨es, rfl, ?_⟩
    cases hk : es k with
    | none => exact opens_empty ks
    | some f =>
        intro front hfront e he
        exact h (k :: front) (List.cons_prefix_cons.2 ⟨rfl, hfront⟩) e (by rw [at?_compound, hk]; exact he)
  · rintro ⟨es, rfl, h⟩ front hfront e he
    cases front with
    | nil => exact ⟨es, (Option.some.inj he).symm⟩
    | cons l front =>
        obtain ⟨rfl, hrest⟩ := List.cons_prefix_cons.1 hfront
        rw [at?_compound, Option.bind_eq_some_iff] at he
        obtain ⟨f, hf, he⟩ := he
        rw [hf] at h
        exact h front hrest e he

/-- A value can be set where only compounds stand above. -/
theorem exists_put (h : d.Opens ks) (k : String) (v : Data) : ∃ d', put v d (ks ++ [k]) = some d' := by
  induction ks generalizing d with
  | nil =>
      obtain ⟨es, rfl⟩ := h [] List.nil_prefix d (at?_nil d)
      exact ⟨_, put_cons_eq_some_iff.2 ⟨es, v, rfl, put_nil _ _, rfl⟩⟩
  | cons l ks ih =>
      obtain ⟨es, rfl, hentry⟩ := opens_cons_iff.1 h
      obtain ⟨e, he⟩ := ih hentry
      exact ⟨_, put_cons_eq_some_iff.2 ⟨es, e, rfl, he, rfl⟩⟩

/-- Setting a value leaves a path open that does not lead to it. -/
theorem Opens.put (hput : put v d ks = some d') (h : d.Opens ls) (hpre : ¬ks <+: ls) : d'.Opens ls := by
  intro front hfront e he
  by_cases habove : front <+: ks
  · obtain ⟨rest, rfl⟩ := habove
    have hrest : rest ≠ [] := by
      rintro rfl
      exact hpre (by rwa [List.append_nil])
    obtain ⟨es, hes⟩ := at?_put_above hput hrest
    exact ⟨es, Option.some.inj (he.symm.trans hes)⟩
  · rw [at?_put_apart hput (fun hbelow => hpre (hbelow.trans hfront)) habove] at he
    exact h front hfront e he

/-- Where nothing stands at the end of an open path, every path further on is open. -/
theorem Opens.append (h : d.Opens ks) (hnone : d.at? ks = none) (ls : List String) : d.Opens (ks ++ ls) := by
  intro front hfront e he
  rcases List.prefix_or_prefix_of_prefix hfront (List.prefix_append ks ls) with hpre | ⟨rest, rfl⟩
  · exact h front hpre e he
  · rw [at?_append, hnone] at he
    cases he

/-- Setting a value on an open path makes what stands at its end a compound, also where a number or a text
further on is in the way. -/
theorem exists_compound_put (h : d.Opens ks) (hls : ls ≠ []) :
    ∃ es, ((Data.put v d (ks ++ ls)).getD d).at? ks = some (compound es) := by
  cases hput : Data.put v d (ks ++ ls) with
  | some d' => exact at?_put_above hput hls
  | none =>
      cases hat : d.at? ks with
      | some e =>
          obtain ⟨es, rfl⟩ := h ks (List.prefix_refl ks) e hat
          exact ⟨es, hat⟩
      | none =>
          obtain ⟨d', hd⟩ := exists_put (h.append hat ls.dropLast) (ls.getLast hls) v
          rw [List.append_assoc, List.dropLast_append_getLast, hput] at hd
          cases hd

/-- Nothing can be set below a number or a text. -/
theorem put_below_leaf {e : Data} (hat : d.at? ks = some e) (hleaf : ∀ es, e ≠ compound es) (hls : ls ≠ []) :
    Data.put v d (ks ++ ls) = none := by
  rw [Option.eq_none_iff_forall_ne_some]
  intro d' hput
  induction ks generalizing d d' with
  | nil =>
      obtain ⟨k, ls, rfl⟩ := List.exists_cons_of_ne_nil hls
      obtain ⟨es, f, rfl, -⟩ := put_cons_eq_some_iff.1 hput
      exact hleaf es (Option.some.inj hat).symm
  | cons k ks ih =>
      obtain ⟨es, f, rfl, hf, -⟩ := put_cons_eq_some_iff.1 hput
      rw [at?_compound, Option.bind_eq_some_iff] at hat
      obtain ⟨g, hg, hat⟩ := hat
      rw [hg] at hf
      exact ih hat f hf

theorem remove_cons {es : String → Option Data} {k : String} (hne : ks ≠ []) :
    (compound es).remove (k :: ks) = compound (Function.update es k ((es k).map (·.remove ks))) := by
  cases ks with
  | nil => exact absurd rfl hne
  | cons l ks => rfl

theorem at?_remove_self (h : ks ≠ []) : (d.remove ks).at? ks = none := by
  induction ks generalizing d with
  | nil => exact absurd rfl h
  | cons k ks ih =>
      cases d with
      | compound es =>
          by_cases hks : ks = []
          · subst hks
            rw [remove, at?_compound, Function.update_self, Option.bind_none]
          · rw [remove_cons hks, at?_compound, Function.update_self]
            cases es k with
            | none => rfl
            | some e => exact ih hks
      | _ => rfl

/-- What lies neither below a value that has been taken away nor above it is as before. -/
theorem at?_remove_apart (hbelow : ¬ks <+: ls) (habove : ¬ls <+: ks) : (d.remove ks).at? ls = d.at? ls := by
  induction ks generalizing d ls with
  | nil => exact absurd List.nil_prefix hbelow
  | cons k ks ih =>
      cases ls with
      | nil => exact absurd List.nil_prefix habove
      | cons l ls =>
          cases d with
          | compound es =>
              by_cases hl : l = k
              · subst hl
                rw [List.cons_prefix_cons, not_and] at hbelow habove
                have hks : ks ≠ [] := by
                  rintro rfl
                  exact hbelow rfl List.nil_prefix
                rw [remove_cons hks, at?_compound, at?_compound, Function.update_self]
                cases es l with
                | none => rfl
                | some e => exact ih (hbelow rfl) (habove rfl)
              · have hentry : ∀ e : Option Data, Function.update es k e l = es l := fun e => Function.update_of_ne hl ..
                by_cases hks : ks = []
                · rw [hks, remove, at?_compound, at?_compound, hentry]
                · rw [remove_cons hks, at?_compound, at?_compound, hentry]
          | _ => rfl

end Data

namespace Slot

/-- The keys of the path of a slot in a storage. -/
def keys (s : Slot) : List String := Text.split '.' s.path

theorem keys_ne_nil (s : Slot) : s.keys ≠ [] := by
  simp [keys, Text.split, List.splitOn_ne_nil]

theorem keys_child_split (s : Slot) (key : String) : (s.child key).keys = s.keys ++ Text.split '.' key :=
  Text.split_append Generation.toList_dot s.path key

theorem split_ne_nil (key : String) : Text.split '.' key ≠ [] := keys_ne_nil (storage "" key)

theorem keys_child (s : Slot) {key : String} (h : '.' ∉ key.toList) : (s.child key).keys = s.keys ++ [key] := by
  rw [keys_child_split, Text.split_of_not_mem h]

/-- The keys of one slot lead on to another exactly when it is the same or its data lies inside. -/
theorem keys_prefix_iff {s t : Slot} : s.keys <+: t.keys ↔ s.path = t.path ∨ s.Contains t := by
  have hjoin : ∀ r : Slot, ".".intercalate r.keys = r.path := fun r => Text.intercalate_split Generation.toList_dot r.path
  have hnotMem : ∀ r : Slot, ∀ key ∈ r.keys, '.' ∉ key.toList := fun r key => Text.not_mem_of_mem_split
  have hinside := Text.intercalate_append_iff Generation.toList_dot (hnotMem s) (hnotMem t) s.keys_ne_nil t.keys_ne_nil
  rw [hjoin, hjoin] at hinside
  rw [Contains, hinside]
  constructor
  · rintro ⟨rest, hrest⟩
    by_cases hnil : rest = []
    · left
      rw [← hjoin s, ← hjoin t, ← hrest, hnil, List.append_nil]
    · exact .inr ⟨rest, hnil, hrest.symm⟩
  · rintro (hpath | ⟨rest, -, hrest⟩)
    · rw [keys, keys, hpath]
    · exact ⟨rest, hrest.symm⟩

theorem overlaps_storage_iff {s t : Slot} (hs : s.space = .storage) (ht : t.space = .storage) :
    s.Overlaps t ↔ s.target = t.target ∧ (s.keys <+: t.keys ∨ t.keys <+: s.keys) := by
  rw [Overlaps, hs, ht, keys_prefix_iff, keys_prefix_iff]
  grind

theorem not_child_prefix (s : Slot) (key : String) : ¬(s.child key).keys <+: s.keys := by
  intro hpre
  have hle := hpre.length_le
  have hpos := List.length_pos_of_ne_nil (split_ne_nil key)
  rw [s.keys_child_split, List.length_append] at hle
  omega

/-- A slot apart from another is apart from its entries. -/
theorem not_overlaps_of_not_overlaps {s t : Slot} (hs : s.space = .storage) (h : ¬s.Overlaps t) (key : String) :
    ¬(s.child key).Overlaps t := by
  intro hoverlap
  have ht : t.space = .storage := hoverlap.1.symm.trans hs
  rw [overlaps_storage_iff (s := s.child key) hs ht, keys_child_split] at hoverlap
  rw [overlaps_storage_iff hs ht] at h
  refine h ⟨hoverlap.1, ?_⟩
  rcases hoverlap.2 with hpre | hpre
  · exact .inl ((List.prefix_append _ _).trans hpre)
  · exact List.prefix_or_prefix_of_prefix (List.prefix_append _ _) hpre

theorem not_overlaps_child {s : Slot} (hs : s.space = .storage) {k l : String} (hk : '.' ∉ k.toList)
    (hl : '.' ∉ l.toList) (hne : k ≠ l) : ¬(s.child k).Overlaps (s.child l) := by
  have hspace : ∀ key, (s.child key).space = .storage := fun _ => hs
  rw [overlaps_storage_iff (hspace k) (hspace l), s.keys_child hk, s.keys_child hl]
  simp [List.prefix_append_right_inj, List.cons_prefix_cons, hne, Ne.symm hne]

end Slot

/-- The state of the game that commands work on. -/
structure Memory where
  scores : Scores
  /-- The data of every storage. -/
  data : String → Data

namespace Memory

def data? (M : Memory) (s : Slot) : Option Data := (M.data s.target).at? s.keys

/-- A slot of a storage can be set: neither a number nor a text stands above it. -/
def Admits (M : Memory) (s : Slot) : Prop := (M.data s.target).Opens s.keys.dropLast

/-- Set a slot of a storage. Where a number or a text stands above it, nothing happens. -/
def set (M : Memory) (s : Slot) (v : Data) : Memory :=
  let d := M.data s.target
  { M with data := Function.update M.data s.target ((Data.put v d s.keys).getD d) }

/-- What a command that only changes scores and data does to them. Data that is missing is not copied, and
is read as zero. -/
def effect (M : Memory) : Command → Option Memory
  | copyData dst src => some ((M.data? src).elim M (M.set dst))
  | setData dst l => some (M.set dst (.ofLiteral l))
  | scoreToData dst src => some (M.set dst (.number (M.scores.get src)))
  | dataToScore dst src =>
    match M.data? src with
    | some (.number n) => some { M with scores := M.scores.set dst n }
    | none => some { M with scores := M.scores.set dst 0 }
    | some _ => none
  | removeData s => some { M with data := Function.update M.data s.target ((M.data s.target).remove s.keys) }
  | c => (Command.effect M.scores c).map fun S => { M with scores := S }

variable {M : Memory} {s t : Slot} {v w : Data}

theorem data_set_self (M : Memory) (s : Slot) (v : Data) :
    (M.set s v).data s.target = (Data.put v (M.data s.target) s.keys).getD (M.data s.target) :=
  Function.update_self ..

theorem data_set_of_ne (M : Memory) (v : Data) {id : String} (h : id ≠ s.target) : (M.set s v).data id = M.data id :=
  Function.update_of_ne h ..

theorem data?_set_self (h : M.Admits s) (v : Data) : (M.set s v).data? s = some v := by
  obtain ⟨d, hd⟩ := Data.exists_put h (s.keys.getLast s.keys_ne_nil) v
  rw [List.dropLast_append_getLast] at hd
  have hat := Data.at?_put hd []
  rwa [List.append_nil, Data.at?_nil, ← Option.getD_some (a := d) (b := M.data s.target), ← hd,
    ← data_set_self] at hat

theorem data?_set_of_not_overlaps (hs : s.space = .storage) (ht : t.space = .storage) (h : ¬s.Overlaps t)
    (v : Data) : (M.set s v).data? t = M.data? t := by
  rw [Slot.overlaps_storage_iff hs ht] at h
  unfold data?
  by_cases htarget : s.target = t.target
  · simp only [htarget, true_and, not_or] at h
    rw [← htarget, data_set_self]
    cases hput : Data.put v (M.data s.target) s.keys with
    | none => rfl
    | some d => exact Data.at?_put_apart hput h.1 h.2
  · rw [data_set_of_ne M v (Ne.symm htarget)]

/-- Setting a slot leaves a path open that does not lead to it. -/
theorem opens_set {ks : List String} (h : (M.data s.target).Opens ks) (hpre : ¬s.keys <+: ks) (v : Data) :
    ((M.set s v).data s.target).Opens ks := by
  rw [data_set_self]
  cases hput : Data.put v (M.data s.target) s.keys with
  | none => exact h
  | some d => exact h.put hput hpre

/-- A slot can still be set after another was that it does not lie inside. -/
theorem admits_set (h : M.Admits t) (hst : s.target = t.target → ¬s.Contains t) (v : Data) : (M.set s v).Admits t := by
  unfold Admits
  by_cases htarget : t.target = s.target
  · have hpre : ¬s.keys <+: t.keys.dropLast := by
      intro hpre
      rcases Slot.keys_prefix_iff.1 (hpre.trans (List.dropLast_prefix _)) with hpath | hinside
      · have hle := hpre.length_le
        have hpos := List.length_pos_of_ne_nil t.keys_ne_nil
        rw [Slot.keys, hpath, ← Slot.keys, List.length_dropLast] at hle
        omega
      · exact hst htarget.symm hinside
    rw [Admits, htarget] at h
    rw [htarget]
    exact opens_set h hpre v
  · rw [data_set_of_ne M v htarget]
    exact h

/-- An entry of a slot can be set where the slot is open. -/
theorem admits_child {key : String} (hkey : '.' ∉ key.toList) (h : (M.data s.target).Opens s.keys) :
    M.Admits (s.child key) := by
  rw [Admits, s.keys_child hkey, List.dropLast_concat]
  exact h

/-- Setting an entry of a slot leaves the slot open. -/
theorem opens_set_child {key : String} (h : (M.data s.target).Opens s.keys) (v : Data) :
    ((M.set (s.child key) v).data s.target).Opens s.keys :=
  opens_set (s := s.child key) h (s.not_child_prefix key) v

/-- An entry of a slot is as before when another is set. -/
theorem data?_set_child (hs : s.space = .storage) {k l : String} (hk : '.' ∉ k.toList) (hl : '.' ∉ l.toList)
    (hne : k ≠ l) (v : Data) : (M.set (s.child k) v).data? (s.child l) = M.data? (s.child l) :=
  data?_set_of_not_overlaps (s := s.child k) (t := s.child l) hs hs (Slot.not_overlaps_child hs hk hl hne) v

theorem exists_entries {key : String} (hkey : '.' ∉ key.toList) (h : M.data? (s.child key) = some v) :
    ∃ es, M.data? s = some (.compound es) ∧ es key = some v := by
  rw [data?, s.keys_child hkey, Data.at?_append, Option.bind_eq_some_iff] at h
  obtain ⟨d, hd, hv⟩ := h
  cases d with
  | compound es =>
      rw [Data.at?_compound, Option.bind_eq_some_iff] at hv
      obtain ⟨e, he, hv⟩ := hv
      rw [Data.at?_nil, Option.some.injEq] at hv
      exact ⟨es, hd, hv ▸ he⟩
  | _ => cases hv

/-- Setting an entry of a slot that is open makes the slot a compound. -/
theorem exists_compound_set_child {key : String} (h : (M.data s.target).Opens s.keys) :
    ∃ es, (M.set (s.child key) v).data? s = some (.compound es) := by
  rw [data?, show s.target = (s.child key).target from rfl, data_set_self, s.keys_child_split]
  exact Data.exists_compound_put h (Slot.split_ne_nil key)

theorem data?_set_below_leaf (hv : M.data? s = some v) (hleaf : ∀ es, v ≠ .compound es) {ls : List String}
    (hls : ls ≠ []) (htarget : t.target = s.target) (hkeys : t.keys = s.keys ++ ls) :
    (M.set t w).data? s = some v := by
  rw [data?, ← htarget] at hv
  rw [data?, ← htarget, data_set_self, hkeys, Data.put_below_leaf hv hleaf hls, Option.getD_none, hv]

/-- The state after what stands in a slot of a storage has been taken away. -/
def removed (M : Memory) (s : Slot) : Memory :=
  { M with data := Function.update M.data s.target ((M.data s.target).remove s.keys) }

theorem data_removed_self (M : Memory) (s : Slot) :
    (M.removed s).data s.target = (M.data s.target).remove s.keys :=
  Function.update_self ..

theorem data_removed_of_ne (M : Memory) {id : String} (h : id ≠ s.target) : (M.removed s).data id = M.data id :=
  Function.update_of_ne h ..

theorem data?_removed_self (M : Memory) (s : Slot) : (M.removed s).data? s = none := by
  rw [data?, data_removed_self, Data.at?_remove_self s.keys_ne_nil]

theorem data?_removed_of_not_overlaps (hs : s.space = .storage) (ht : t.space = .storage) (h : ¬s.Overlaps t) :
    (M.removed s).data? t = M.data? t := by
  rw [Slot.overlaps_storage_iff hs ht] at h
  unfold data?
  by_cases htarget : s.target = t.target
  · simp only [htarget, true_and, not_or] at h
    rw [← htarget, data_removed_self]
    exact Data.at?_remove_apart h.1 h.2
  · rw [data_removed_of_ne M (Ne.symm htarget)]

end Memory

end Datapack.Command
