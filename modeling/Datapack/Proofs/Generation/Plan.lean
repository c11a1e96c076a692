import Datapack.Proofs.Generation.Regions
import Datapack.Proofs.Generation.Unwinding
import Mathlib.Data.List.Nodup

/-!
# The plan of a function

What is fixed while the body of a function is generated: the tree of the stream, the regions with their
declarations, and from them the names of functions and slots.  Since the regions have distinct names,
the functions and the slots so named are distinct, and a plan gives a `Target` for unwinding.
-/

namespace Datapack.Generation

open Ir Ir.Structured Command

/-- What is fixed while the body of a function is generated. The function is the first region. -/
structure Plan where
  config : Config
  vars : List Variable
  stream : Stream
  tree : ScopeTree
  base : Regions
  integral : ∀ v ∈ vars, Space.ofType v.type = .score
  common : ∀ v ∈ vars, v.kind ≠ .ret
  holders : (vars.map fun v => holder v.name).Nodup
  tree_eq : ScopeTree.ofStream stream = .ok tree
  nodup : (regionNames stream).Nodup
  identifiers : ∀ x ∈ regionNames stream, isIdentifier x = true
  length_eq : base.length = tree.nodes.length
  root : (base.at? 0).outer = []
  node : ∀ n, n ≠ 0 → n < base.length → (base.at? n).name = (tree.node n).name ∧
    (base.at? n).kind = (tree.node n).kind ∧ (base.at? n).outer = (tree.node n).outer ∧
    (base.at? n).occurrence = 0
  symbols : ∀ n, n ≠ 1 → (base.at? n).symbols = []
  declared : ∀ v ∈ vars, ((base.at? 1).symbols.lookup v.name).isSome = true
  functionKind : (base.at? 1).kind = .function
  functionOuter : (base.at? 1).outer = [0]
  functionLt : 1 < base.length

namespace Plan

variable (W : Plan)

def ns : String := W.config.ns

def place (x : String) : Nat := (regionNames W.stream).idxOf x + 1

theorem regionNames_getElem? {n : Nat} (hn : n ≠ 0) (hlt : n < W.base.length) :
    (regionNames W.stream)[n - 1]? = some (W.base.at? n).name := by
  rw [(W.node n hn hlt).1]
  exact ScopeTree.regionNames_getElem? W.tree_eq hn (W.length_eq ▸ hlt)

theorem name_mem {n : Nat} (hn : n ≠ 0) (hlt : n < W.base.length) :
    (W.base.at? n).name ∈ regionNames W.stream :=
  List.mem_of_getElem? (W.regionNames_getElem? hn hlt)

theorem place_name {n : Nat} (hn : n ≠ 0) (hlt : n < W.base.length) :
    W.place (W.base.at? n).name = n := by
  have hget := W.regionNames_getElem? hn hlt
  obtain ⟨hk, helem⟩ := List.getElem?_eq_some_iff.mp hget
  unfold place
  rw [← helem, W.nodup.idxOf_getElem]
  omega

theorem named {n : Nat} (hn : n ≠ 0) (hlt : n < W.base.length) : W.base.Named n := by
  obtain ⟨p, -, houter⟩ := ScopeTree.outer_node W.tree_eq hn (W.length_eq ▸ hlt)
  refine ⟨?_, W.identifiers _ (W.name_mem hn hlt), (W.node n hn hlt).2.2.2⟩
  rw [(W.node n hn hlt).2.2.1, houter]
  simp

theorem distinct : W.base.Distinct := by
  refine ⟨W.root, fun n hn hlt => W.named hn hlt, ?_⟩
  intro n m hn hlt hm hlt' hname
  rw [← W.place_name hn hlt, hname, W.place_name hm hlt']

/-! ## Exits and their flags -/

/-- How the flags of a kind of exit begin. -/
def stem : ExitKind → String
  | .breakLoop => "$break."
  | .continueLoop => "$continue."
  | .returnFunction => "$return."

/-- The exit of the generator behind an exit of the body. -/
def exit : Escape → Exit
  | .leave l => ⟨.breakLoop, W.place l⟩
  | .next l => ⟨.continueLoop, W.place l + 2⟩
  | .ret => ⟨.returnFunction, 1⟩

def flagName (e : Escape) : String :=
  stem (W.exit e).kind ++ holder (W.base.absolutePath (W.exit e).consumer)

/-- Whether a name is that of a loop with its body two places behind. -/
structure IsLoop (l : String) : Prop where
  lt : W.place l + 2 < W.base.length
  name : (W.base.at? (W.place l)).name = l
  loop : (W.base.at? (W.place l)).kind = .loop
  body : (W.base.at? (W.place l + 2)).kind = .loopBody
  parent : W.base.parent? (W.place l + 2) = some (W.place l + 1)

/-- The exits that a body of the plan may take. -/
def valid : Escape → Prop
  | .leave l | .next l => W.IsLoop l
  | .ret => True

/-- The kind of region at which exits of a kind end. -/
def landingKind : ExitKind → ScopeKind
  | .breakLoop => .loop
  | .continueLoop => .loopBody
  | .returnFunction => .function

variable {W}

theorem valid.kind {e : Escape} (h : W.valid e) :
    (W.base.at? (W.exit e).consumer).kind = landingKind (W.exit e).kind := by
  cases e with
  | leave l => exact IsLoop.loop h
  | next l => exact IsLoop.body h
  | ret => exact W.functionKind

theorem valid.lt {e : Escape} (h : W.valid e) : (W.exit e).consumer < W.base.length := by
  cases e with
  | leave l => exact Nat.lt_of_le_of_lt (Nat.le_add_right _ 2) (IsLoop.lt h)
  | next l => exact IsLoop.lt h
  | ret => exact W.functionLt

theorem consumer_ne_zero (e : Escape) : (W.exit e).consumer ≠ 0 := by
  cases e <;> simp [exit, place]

theorem consumer_inj {e e' : Escape} (h : W.valid e) (h' : W.valid e')
    (heq : (W.exit e).consumer = (W.exit e').consumer) : e = e' := by
  have hkind : landingKind (W.exit e).kind = landingKind (W.exit e').kind := by
    rw [← h.kind, ← h'.kind, heq]
  cases e with
  | ret => cases e' <;> simp [exit, landingKind] at hkind ⊢
  | leave l =>
      cases e' with
      | leave m =>
          have hplace : W.place l = W.place m := heq
          rw [← IsLoop.name h, ← IsLoop.name h', hplace]
      | next m => simp [exit, landingKind] at hkind
      | ret => simp [exit, landingKind] at hkind
  | next l =>
      cases e' with
      | next m =>
          have hplace : W.place l = W.place m := Nat.add_right_cancel heq
          rw [← IsLoop.name h, ← IsLoop.name h', hplace]
      | leave m => simp [exit, landingKind] at hkind
      | ret => simp [exit, landingKind] at hkind

/-! ## Texts that differ -/

/-- The characters of a flag. -/
theorem toList_stem (k : ExitKind) (x : String) :
    (stem k ++ x).toList =
      match k with
      | .breakLoop => '$' :: 'b' :: 'r' :: 'e' :: 'a' :: 'k' :: '.' :: x.toList
      | .continueLoop => '$' :: 'c' :: 'o' :: 'n' :: 't' :: 'i' :: 'n' :: 'u' :: 'e' :: '.' :: x.toList
      | .returnFunction => '$' :: 'r' :: 'e' :: 't' :: 'u' :: 'r' :: 'n' :: '.' :: x.toList := by
  cases k <;> simp [stem]

theorem stem_append_inj {k k' : ExitKind} {x y : String} (h : stem k ++ x = stem k' ++ y) :
    k = k' ∧ x = y := by
  have hchars := congrArg String.toList h
  rw [toList_stem, toList_stem] at hchars
  cases k <;> cases k' <;> simp_all

theorem holderChar_ne (c : Char) : holderChar c ≠ '$' := by
  unfold holderChar
  split
  · rename_i hc
    rintro rfl
    exact absurd hc (by decide)
  · split
    · decide
    · decide

/-- What begins with a dollar sign is no holder of a symbol path. -/
theorem holder_ne (p : String) {s : String} (hs : '$' ∈ s.toList) : holder p ≠ s := by
  rintro rfl
  rw [holder, String.toList_map] at hs
  obtain ⟨c, -, hc⟩ := List.mem_map.mp hs
  exact holderChar_ne c hc

theorem digits_ne (n : Nat) {c : Char} (hc : c.isDigit = false) (rest : List Char) :
    (toString n).toList ≠ c :: rest := by
  rw [Nat.toString_eq_repr, Nat.toList_repr]
  intro heq
  have hdigit := @Nat.isDigit_of_mem_toDigits 10 n c (by decide) (by decide) (by simp [heq])
  rw [hc] at hdigit
  exact Bool.noConfusion hdigit

theorem temp_ne_stem (n : Nat) (k : ExitKind) (x : String) : "$c" ++ toString n ≠ stem k ++ x := by
  intro h
  have hchars := congrArg String.toList h
  rw [toList_stem, String.toList_append] at hchars
  cases k with
  | breakLoop => simp at hchars
  | returnFunction => simp at hchars
  | continueLoop =>
      refine digits_ne n (c := 'o') (by decide) ?_ ?_
      · exact 'n' :: 't' :: 'i' :: 'n' :: 'u' :: 'e' :: '.' :: x.toList
      · simpa using hchars

theorem scratch_ne_stem (k : ExitKind) (x : String) : "$r0" ≠ stem k ++ x := by
  intro h
  have hchars := congrArg String.toList h
  rw [toList_stem] at hchars
  cases k <;> simp at hchars

/-! ## The target -/

variable (W)

/-- Where a variable is placed. -/
def slot (v : Variable) : Slot :=
  .score (holder (W.base.absolutePath 1 ++ "." ++ v.name)) W.ns

/-- The flags of exits, of this function and of others. -/
def isFlag (s : Slot) : Prop := ∃ k x, s = .score (stem k ++ x) W.ns

theorem slot_inj {v w : Variable} (hv : v ∈ W.vars) (hw : w ∈ W.vars) (h : W.slot v = W.slot w) :
    v = w := by
  have hpath : holder (W.base.absolutePath 1 ++ "." ++ v.name)
      = holder (W.base.absolutePath 1 ++ "." ++ w.name) := congrArg Slot.path h
  have hchars := congrArg String.toList hpath
  simp only [holder, String.toList_map, String.toList_append, List.map_append,
    List.append_cancel_left_eq] at hchars
  have hholder : holder v.name = holder w.name := by
    apply String.toList_inj.mp
    rw [holder, holder, String.toList_map, String.toList_map, hchars]
  exact List.inj_on_of_nodup_map W.holders hv hw hholder

theorem flag_inj {e e' : Escape} (h : W.valid e) (h' : W.valid e')
    (heq : W.flagName e = W.flagName e') : e = e' := by
  obtain ⟨-, hholder⟩ := stem_append_inj heq
  have hname := Regions.name_eq_of_holder_eq (W.named (consumer_ne_zero e) h.lt)
    (W.named (consumer_ne_zero e') h'.lt) hholder
  have hconsumer := W.distinct.injective _ _ (consumer_ne_zero e) h.lt (consumer_ne_zero e') h'.lt hname
  exact consumer_inj h h' hconsumer

theorem slot_ne (v : Variable) {x : String} (hx : '$' ∈ x.toList) : W.slot v ≠ .score x W.ns :=
  fun h => holder_ne _ hx (congrArg Slot.path h)

def target : Target W.vars W.valid where
  ref x := W.base.functionRef W.ns (W.place x)
  again l := W.base.functionRef W.ns (W.place l + 1)
  slot := W.slot
  temp n := .score ("$c" ++ toString n) W.ns
  scratch := .score "$r0" W.ns
  flag e := .score (W.flagName e) W.ns
  isFlag := W.isFlag
  slot_inj _ hv _ hw h := W.slot_inj hv hw h
  temp_inj m n h := by
    have hpath : "$c" ++ toString m = "$c" ++ toString n := congrArg Slot.path h
    exact Text.toString_nat_inj (String.append_right_inj "$c" |>.mp hpath)
  flag_inj e e' h h' heq := W.flag_inj h h' (congrArg Slot.path heq)
  flag_isFlag e := ⟨_, _, rfl⟩
  slot_not_isFlag v := by
    rintro ⟨k, x, h⟩
    refine W.slot_ne v ?_ h
    rw [toList_stem]
    cases k <;> simp
  temp_not_isFlag n := by
    rintro ⟨k, x, h⟩
    exact temp_ne_stem n k x (congrArg Slot.path h)
  scratch_not_isFlag := by
    rintro ⟨k, x, h⟩
    exact scratch_ne_stem k x (congrArg Slot.path h)
  slot_ne_temp v n := W.slot_ne v (by simp)
  slot_ne_scratch v := W.slot_ne v (by decide)
  temp_ne_scratch n h := by
    have hpath : "$c" ++ toString n = "$r0" := congrArg Slot.path h
    have hchars := congrArg String.toList hpath
    rw [String.toList_append] at hchars
    simp at hchars

end Plan

end Datapack.Generation
