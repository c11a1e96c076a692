import Datapack.Ir.Equality
import Datapack.Proofs.Lookup
import Mathlib.Data.List.Forall2
import Mathlib.Data.List.Nodup
import Mathlib.Data.List.Perm.Subperm

/-!
# Equality and hashes of instructions

Structural equality is an equivalence that hashes respect as long as no map holds a nil value.  A missing
key reads as nil, so a map with a nil value equals a map of the same size that lacks its key, but not the
other way round, and the keys enter the hash.

Without nil values, equal maps have the same keys: `exists_perm_of_sameEntries` puts the entries of the
second in the order of the first, which reduces maps to lists of pairs.
-/

namespace Datapack.Ir

/-! ## Operands as trees -/

namespace Operand

/-- Whether an operand is neither a list nor a map. -/
def isLeaf : Operand → Bool
  | list _ => false
  | map _ => false
  | _ => true

theorem nested {motive : Operand → Prop} (leaf : ∀ a, a.isLeaf = true → motive a)
    (list : ∀ items, (∀ a ∈ items, motive a) → motive (.list items))
    (map : ∀ entries, (∀ e ∈ entries, motive e.2) → motive (.map entries)) (a : Operand) : motive a := by
  match a with
  | .list items => exact list items fun a _ => nested leaf list map a
  | .map entries => exact map entries fun e _ => nested leaf list map e.2
  | .absent | .reference _ | .text _ | .binaryOperator _ | .compareOperator _ | .unaryOperator _
  | .scopeKind _ | .dataType _ | .function _ | .classSymbol _ | .arguments _ => exact leaf _ rfl
termination_by sizeOf a
decreasing_by
  · next h =>
      have := List.sizeOf_lt_of_mem h
      simp only [Operand.list.sizeOf_spec]
      omega
  · next h =>
      have := List.sizeOf_lt_of_mem h
      obtain ⟨k, v⟩ := e
      simp only [Operand.map.sizeOf_spec, Prod.mk.sizeOf_spec] at this ⊢
      omega

mutual

def everyMap (check : List (String × Operand) → Bool) : Operand → Bool
  | .list items => everyMapItems check items
  | .map entries => check entries && everyMapEntries check entries
  | _ => true

def everyMapItems (check : List (String × Operand) → Bool) : List Operand → Bool
  | [] => true
  | a :: items => a.everyMap check && everyMapItems check items

def everyMapEntries (check : List (String × Operand) → Bool) : List (String × Operand) → Bool
  | [] => true
  | (_, v) :: entries => v.everyMap check && everyMapEntries check entries

end

variable {check : List (String × Operand) → Bool}

theorem everyMapItems_iff {items : List Operand} :
    everyMapItems check items = true ↔ ∀ a ∈ items, a.everyMap check = true := by
  induction items with
  | nil => simp [everyMapItems]
  | cons a items ih => simp [everyMapItems, ih]

theorem everyMapEntries_iff {entries : List (String × Operand)} :
    everyMapEntries check entries = true ↔ ∀ e ∈ entries, e.2.everyMap check = true := by
  induction entries with
  | nil => simp [everyMapEntries]
  | cons e entries ih => simp [everyMapEntries, ih]

theorem everyMap_list {items : List Operand} :
    (Operand.list items).everyMap check = true ↔ ∀ a ∈ items, a.everyMap check = true := by
  rw [everyMap, everyMapItems_iff]

theorem everyMap_map {entries : List (String × Operand)} :
    (Operand.map entries).everyMap check = true ↔
      check entries = true ∧ ∀ e ∈ entries, e.2.everyMap check = true := by
  rw [everyMap, Bool.and_eq_true, everyMapEntries_iff]

end Operand

def hasDistinctKeys (entries : List (String × Operand)) : Bool := decide (entries.map Prod.fst).Nodup

def hasNoNil (entries : List (String × Operand)) : Bool :=
  entries.all fun e => match e.2 with
    | .absent => false
    | _ => true

/-! ## What the comparison says -/

/-- The entries of a map as a comparison reads them: a missing key has a nil value. -/
def valueAt (entries : List (String × Operand)) (key : String) : Operand := (entries.lookup key).getD .absent

section

attribute [local simp] Operand.same sameItems sameEntries

theorem Operand.same_leaf_iff {a b : Operand} (h : a.isLeaf = true) : a.same b = true ↔ a = b := by
  cases a <;> cases b <;> simp [Operand.isLeaf] at h ⊢

theorem exists_of_sameItems_cons {a : Operand} {as bs : List Operand} (h : sameItems (a :: as) bs = true) :
    ∃ b rest, bs = b :: rest ∧ a.same b = true ∧ sameItems as rest = true := by
  cases bs with
  | nil => simp at h
  | cons b rest => exact ⟨b, rest, rfl, by simpa using h⟩

theorem eq_nil_of_sameItems {bs : List Operand} (h : sameItems [] bs = true) : bs = [] := by
  cases bs with
  | nil => rfl
  | cons b rest => simp at h

theorem sameEntries_iff {xs ys : List (String × Operand)} :
    sameEntries xs ys = true ↔ ∀ e ∈ xs, e.2.same (valueAt ys e.1) = true := by
  induction xs with
  | nil => simp
  | cons e xs ih => simp [ih, valueAt]

theorem Operand.exists_of_list_same {items : List Operand} {b : Operand}
    (h : (Operand.list items).same b = true) :
    ∃ others, b = .list others ∧ sameItems items others = true := by
  cases b with
  | list others => exact ⟨others, rfl, h⟩
  | _ => simp at h

theorem Operand.exists_of_map_same {entries : List (String × Operand)} {b : Operand}
    (h : (Operand.map entries).same b = true) :
    ∃ others, b = .map others ∧ entries.length = others.length ∧
      ∀ e ∈ entries, e.2.same (valueAt others e.1) = true := by
  cases b with
  | map others =>
      simp only [Operand.same, Bool.and_eq_true, decide_eq_true_eq, sameEntries_iff] at h
      exact ⟨others, rfl, h⟩
  | _ => simp at h

end

/-! ## Maps with the same keys -/

/-- Two lists of entries that agree pair by pair. -/
def Paired (xs ys : List (String × Operand)) : Prop :=
  List.Forall₂ (fun x y => x.1 = y.1 ∧ x.2.same y.2 = true) xs ys

theorem Paired.keys {xs ys : List (String × Operand)} (h : Paired xs ys) :
    xs.map Prod.fst = ys.map Prod.fst := by
  induction h with
  | nil => rfl
  | cons hpair _ ih => rw [List.map_cons, List.map_cons, hpair.1, ih]

theorem valueAt_of_mem {entries : List (String × Operand)} (hkeys : (entries.map Prod.fst).Nodup)
    {e : String × Operand} (he : e ∈ entries) : valueAt entries e.1 = e.2 := by
  rw [valueAt, lookup_eq_some_of_mem hkeys he, Option.getD_some]

theorem mem_of_same_valueAt {entries : List (String × Operand)} {key : String} {v : Operand}
    (hv : v ≠ .absent) (h : v.same (valueAt entries key) = true) : (key, valueAt entries key) ∈ entries := by
  unfold valueAt at h ⊢
  cases hlookup : entries.lookup key with
  | some w => exact mem_of_lookup_eq_some hlookup
  | none =>
      rw [hlookup, Option.getD_none] at h
      cases v <;> simp [Operand.same] at h hv

theorem ne_absent_of_hasNoNil {entries : List (String × Operand)} (h : hasNoNil entries = true)
    {e : String × Operand} (he : e ∈ entries) : e.2 ≠ .absent := by
  intro habsent
  have := List.all_eq_true.1 h e he
  rw [habsent] at this
  exact Bool.noConfusion this

/-- A map without nil values equals a map of the same size only if both have the same keys. -/
theorem exists_perm_of_same {xs ys : List (String × Operand)} (hkeys : hasDistinctKeys xs = true)
    (hnil : hasNoNil xs = true) (hlength : xs.length = ys.length)
    (h : ∀ e ∈ xs, e.2.same (valueAt ys e.1) = true) : ∃ zs, zs.Perm ys ∧ Paired xs zs := by
  let zs := xs.map fun e => (e.1, valueAt ys e.1)
  have hsub : zs ⊆ ys := by
    intro z hz
    obtain ⟨e, he, rfl⟩ := List.mem_map.1 hz
    exact mem_of_same_valueAt (ne_absent_of_hasNoNil hnil he) (h e he)
  have hzs : zs.Nodup := by
    refine List.Nodup.of_map Prod.fst ?_
    rw [List.map_map]
    exact of_decide_eq_true hkeys
  refine ⟨zs, ?_, ?_⟩
  · have hle : ys.length ≤ zs.length := by simp [zs, hlength]
    exact (List.subperm_of_subset hzs hsub).perm_of_length_le hle
  · exact List.forall₂_map_right_iff.2 (List.forall₂_same.2 fun e he => ⟨rfl, h e he⟩)

theorem Paired.exists_of_mem {xs ys : List (String × Operand)} (h : Paired xs ys) {y : String × Operand}
    (hy : y ∈ ys) : ∃ x ∈ xs, x.1 = y.1 ∧ x.2.same y.2 = true := by
  induction h with
  | nil => exact absurd hy List.not_mem_nil
  | @cons x _ xs _ hpair _ ih =>
      rcases List.mem_cons.1 hy with rfl | hy
      · exact ⟨x, List.mem_cons_self, hpair⟩
      · obtain ⟨x, hx, hpair⟩ := ih hy
        exact ⟨x, List.mem_cons_of_mem _ hx, hpair⟩

/-! ## Lists of operands

Each is about operands for which the fact is known already: those of a list or of an instruction. -/

theorem sameItems_refl {as : List Operand} (h : ∀ a ∈ as, a.same a = true) : sameItems as as = true := by
  induction as with
  | nil => rfl
  | cons a as ih =>
      obtain ⟨ha, has⟩ := List.forall_mem_cons.1 h
      rw [sameItems, ha, ih has, Bool.and_true]

theorem sameItems_symm {as bs : List Operand} (h : ∀ a ∈ as, ∀ b, a.same b = true → b.same a = true)
    (hsame : sameItems as bs = true) : sameItems bs as = true := by
  induction as generalizing bs with
  | nil =>
      obtain rfl := eq_nil_of_sameItems hsame
      rfl
  | cons a as ih =>
      obtain ⟨ha, has⟩ := List.forall_mem_cons.1 h
      obtain ⟨b, rest, rfl, hab, hrest⟩ := exists_of_sameItems_cons hsame
      rw [sameItems, ha b hab, ih has hrest, Bool.and_true]

theorem sameItems_trans {as bs cs : List Operand}
    (h : ∀ a ∈ as, ∀ b c, a.same b = true → b.same c = true → a.same c = true)
    (hab : sameItems as bs = true) (hbc : sameItems bs cs = true) : sameItems as cs = true := by
  induction as generalizing bs cs with
  | nil =>
      obtain rfl := eq_nil_of_sameItems hab
      exact hbc
  | cons a as ih =>
      obtain ⟨ha, has⟩ := List.forall_mem_cons.1 h
      obtain ⟨b, bs, rfl, hsame, hrest⟩ := exists_of_sameItems_cons hab
      obtain ⟨c, cs, rfl, hsame', hrest'⟩ := exists_of_sameItems_cons hbc
      rw [sameItems, ha b c hsame hsame', ih has hrest hrest', Bool.and_true]

theorem digestItems_eq {as bs : List Operand} (h : ∀ a ∈ as, ∀ b, a.same b = true → a.digest = b.digest)
    (hsame : sameItems as bs = true) : digestItems as = digestItems bs := by
  induction as generalizing bs with
  | nil =>
      obtain rfl := eq_nil_of_sameItems hsame
      rfl
  | cons a as ih =>
      obtain ⟨ha, has⟩ := List.forall_mem_cons.1 h
      obtain ⟨b, rest, rfl, hab, hrest⟩ := exists_of_sameItems_cons hsame
      rw [digestItems, digestItems, ha b hab, ih has hrest]

theorem length_eq_of_sameItems {as bs : List Operand} (h : sameItems as bs = true) :
    as.length = bs.length := by
  induction as generalizing bs with
  | nil =>
      obtain rfl := eq_nil_of_sameItems h
      rfl
  | cons a as ih =>
      obtain ⟨b, rest, rfl, -, hrest⟩ := exists_of_sameItems_cons h
      rw [List.length_cons, List.length_cons, ih hrest]

/-! ## The hash of a map -/

theorem digestEntries_perm {xs ys : List (String × Operand)} (h : xs.Perm ys) :
    digestEntries xs = digestEntries ys := by
  induction h with
  | nil => rfl
  | cons x _ ih => rw [digestEntries, digestEntries, ih]
  | swap x y xs =>
      simp only [digestEntries]
      rw [← UInt64.xor_assoc, ← UInt64.xor_assoc, UInt64.xor_comm (Text.fnv1a _)]
  | trans _ _ ih ih' => exact ih.trans ih'

theorem Paired.digestEntries_eq {xs ys : List (String × Operand)}
    (hvalues : ∀ x ∈ xs, ∀ b, x.2.same b = true → x.2.digest = b.digest) (h : Paired xs ys) :
    digestEntries xs = digestEntries ys := by
  induction h with
  | nil => rfl
  | @cons x y _ _ hpair _ ih =>
      obtain ⟨hx, hxs⟩ := List.forall_mem_cons.1 hvalues
      rw [digestEntries, digestEntries, ih hxs, hpair.1, hx y.2 hpair.2]

/-! ## Operands -/

namespace Operand

theorem same_refl {a : Operand} (hkeys : a.everyMap hasDistinctKeys = true) : a.same a = true := by
  induction a using nested with
  | leaf a hleaf => exact (same_leaf_iff hleaf).2 rfl
  | list items ih =>
      rw [same]
      exact sameItems_refl fun a ha => ih a ha (everyMap_list.1 hkeys a ha)
  | map entries ih =>
      obtain ⟨hdistinct, hkeys⟩ := everyMap_map.1 hkeys
      rw [same, sameEntries_iff.2, decide_eq_true rfl, Bool.and_true]
      intro e he
      rw [valueAt_of_mem (of_decide_eq_true hdistinct) he]
      exact ih e he (hkeys e he)

theorem same_symm {a b : Operand} (hkeys : a.everyMap hasDistinctKeys = true)
    (hnil : a.everyMap hasNoNil = true) (h : a.same b = true) : b.same a = true := by
  induction a using nested generalizing b with
  | leaf a hleaf =>
      obtain rfl := (same_leaf_iff hleaf).1 h
      exact h
  | list items ih =>
      obtain ⟨others, rfl, hitems⟩ := exists_of_list_same h
      rw [same]
      apply sameItems_symm _ hitems
      exact fun a ha b => ih a ha (everyMap_list.1 hkeys a ha) (everyMap_list.1 hnil a ha)
  | map entries ih =>
      obtain ⟨others, rfl, hlength, hvalues⟩ := exists_of_map_same h
      obtain ⟨hdistinct, hkeys⟩ := everyMap_map.1 hkeys
      obtain ⟨hfilled, hnil⟩ := everyMap_map.1 hnil
      obtain ⟨zs, hperm, hpaired⟩ := exists_perm_of_same hdistinct hfilled hlength hvalues
      rw [same, sameEntries_iff.2, decide_eq_true hlength.symm, Bool.and_true]
      intro z hz
      obtain ⟨e, he, hkey, hsame⟩ := hpaired.exists_of_mem (hperm.mem_iff.2 hz)
      rw [← hkey, valueAt_of_mem (of_decide_eq_true hdistinct) he]
      exact ih e he (hkeys e he) (hnil e he) hsame

theorem same_trans {a b c : Operand} (hkeys : a.everyMap hasDistinctKeys = true)
    (hnil : a.everyMap hasNoNil = true) (hab : a.same b = true) (hbc : b.same c = true) :
    a.same c = true := by
  induction a using nested generalizing b c with
  | leaf a hleaf =>
      obtain rfl := (same_leaf_iff hleaf).1 hab
      exact hbc
  | list items ih =>
      obtain ⟨bs, rfl, hitems⟩ := exists_of_list_same hab
      obtain ⟨cs, rfl, hothers⟩ := exists_of_list_same hbc
      rw [same]
      apply sameItems_trans _ hitems hothers
      exact fun a ha b c => ih a ha (everyMap_list.1 hkeys a ha) (everyMap_list.1 hnil a ha)
  | map entries ih =>
      obtain ⟨others, rfl, hlength, hvalues⟩ := exists_of_map_same hab
      obtain ⟨last, rfl, hlength', hvalues'⟩ := exists_of_map_same hbc
      obtain ⟨-, hkeys⟩ := everyMap_map.1 hkeys
      obtain ⟨hfilled, hnil⟩ := everyMap_map.1 hnil
      rw [same, sameEntries_iff.2, decide_eq_true (hlength.trans hlength'), Bool.and_true]
      intro e he
      have hmem := mem_of_same_valueAt (ne_absent_of_hasNoNil hfilled he) (hvalues e he)
      exact ih e he (hkeys e he) (hnil e he) (hvalues e he) (hvalues' _ hmem)

theorem digest_eq_of_same {a b : Operand} (hkeys : a.everyMap hasDistinctKeys = true)
    (hnil : a.everyMap hasNoNil = true) (h : a.same b = true) : a.digest = b.digest := by
  induction a using nested generalizing b with
  | leaf a hleaf =>
      obtain rfl := (same_leaf_iff hleaf).1 h
      rfl
  | list items ih =>
      obtain ⟨others, rfl, hitems⟩ := exists_of_list_same h
      rw [digest, digest, length_eq_of_sameItems hitems, digestItems_eq _ hitems]
      exact fun a ha b => ih a ha (everyMap_list.1 hkeys a ha) (everyMap_list.1 hnil a ha)
  | map entries ih =>
      obtain ⟨others, rfl, hlength, hvalues⟩ := exists_of_map_same h
      obtain ⟨hdistinct, hkeys⟩ := everyMap_map.1 hkeys
      obtain ⟨hfilled, hnil⟩ := everyMap_map.1 hnil
      obtain ⟨zs, hperm, hpaired⟩ := exists_perm_of_same hdistinct hfilled hlength hvalues
      have hentries : digestEntries entries = digestEntries zs :=
        hpaired.digestEntries_eq fun e he b => ih e he (hkeys e he) (hnil e he)
      rw [digest, digest, hentries, digestEntries_perm hperm]

end Operand

/-! ## Instructions -/

namespace Instruction

def everyMap (check : List (String × Operand) → Bool) (ins : Instruction) : Bool :=
  ins.operands.all (·.everyMap check)

theorem same_iff {a b : Instruction} :
    a.same b = true ↔ a.op = b.op ∧ sameItems a.operands b.operands = true := by
  simp [same]

/-- An instruction equals itself.  If its maps hold no nil value, what equals it is equal the other way
round and has its hash, and what equals that equals it. -/
theorem same_congruence (a : Instruction) (hkeys : a.everyMap hasDistinctKeys = true) :
    a.same a = true ∧
      (a.everyMap hasNoNil = true → ∀ b, a.same b = true →
        b.same a = true ∧ a.hash = b.hash ∧ ∀ c, b.same c = true → a.same c = true) := by
  have hkeys := List.all_eq_true.1 hkeys
  constructor
  · exact same_iff.2 ⟨rfl, sameItems_refl fun x hx => Operand.same_refl (hkeys x hx)⟩
  · intro hnil b hab
    have hnil := List.all_eq_true.1 hnil
    obtain ⟨hop, hitems⟩ := same_iff.1 hab
    refine ⟨same_iff.2 ⟨hop.symm, ?_⟩, ?_, ?_⟩
    · exact sameItems_symm (fun x hx y => Operand.same_symm (hkeys x hx) (hnil x hx)) hitems
    · rw [hash, hash, hop,
        digestItems_eq (fun x hx y => Operand.digest_eq_of_same (hkeys x hx) (hnil x hx)) hitems]
    · intro c hbc
      obtain ⟨hop', hitems'⟩ := same_iff.1 hbc
      refine same_iff.2 ⟨hop.trans hop', sameItems_trans ?_ hitems hitems'⟩
      exact fun x hx y z => Operand.same_trans (hkeys x hx) (hnil x hx)

/-- A jump with a list and a map in the place of its target. -/
def nestedJump (entries : List (String × Operand)) : Instruction :=
  ⟨.jump, [.list [.map entries, .absent]], none⟩

/-- The order of the entries of a map does not matter. -/
theorem same_congruence_nested :
    let a := nestedJump [("x", .text "1"), ("y", .reference none)]
    let b := nestedJump [("y", .reference none), ("x", .text "1")]
    a.everyMap hasDistinctKeys = true ∧ a.everyMap hasNoNil = true ∧ a.same b = true ∧
      b.same a = true ∧ a.hash = b.hash := by
  intro a b
  have hkeys : a.everyMap hasDistinctKeys = true := by decide +kernel
  have hnil : a.everyMap hasNoNil = true := by decide +kernel
  have hsame : a.same b = true := by decide +kernel
  obtain ⟨hsymm, hhash, -⟩ := (same_congruence a hkeys).2 hnil b hsame
  exact ⟨hkeys, hnil, hsame, hsymm, hhash⟩

/-- The second of three instructions equals the third, whose map lacks the key with the nil value.  The
third does not equal the second, the first equals the second but not the third, and the hashes of the
second and the third differ. -/
theorem same_missing_key :
    let a : Instruction := ⟨.jump, [.map [("x", .absent), ("y", .text "1")]], none⟩
    let b : Instruction := ⟨.jump, [.map [("y", .text "1"), ("z", .absent)]], none⟩
    let c : Instruction := ⟨.jump, [.map [("x", .text "5"), ("y", .text "1")]], none⟩
    b.same c = true ∧ c.same b = false ∧ a.same b = true ∧ a.same c = false ∧ b.hash ≠ c.hash := by
  decide +kernel

end Instruction

end Datapack.Ir
