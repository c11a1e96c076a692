import Datapack.Optimize.Builtin
import Datapack.Proofs.Optimize.Edits
import Datapack.Proofs.Optimize.Folding.Step
import Datapack.Proofs.Optimize.Saturation

/-!
# The passes keep streams balanced

Every pass chooses what it drops in its own way: by what is read, by counting open regions, or by whole
regions of the tree.  In each case the two delimiters of a region share their fate, so a balanced stream
stays balanced and no pass ever meets an unbalanced one.
-/

namespace Datapack.Optimize

open Ir

variable {s : Stream} {t : ScopeTree}

theorem withTree_eq (ht : ScopeTree.ofStream s = .ok t) (f : ScopeTree → Outcome) :
    withTree s f = .ok (f t) := by
  rw [withTree, ht]
  rfl

theorem exists_tree (hs : s.balanced = true) : ∃ t, ScopeTree.ofStream s = .ok t := by
  rw [ScopeTree.ofStream_isOk_iff, ← balanced_iff]
  exact hs

theorem balanced_of_tree (ht : ScopeTree.ofStream s = .ok t) : s.balanced = true := by
  rw [balanced_iff, ← ScopeTree.ofStream_isOk_iff]
  exact ⟨t, ht⟩

theorem sparesDelimiters_of_drop (drop : Nat → Bool) :
    Edits.SparesDelimiters { drop } 0 s := by
  intro k ins new _ hnew
  simp at hnew

/-- Dropping instructions that delimit nothing keeps a stream balanced. -/
theorem balanced_drop_plain (ht : ScopeTree.ofStream s = .ok t) {drop : Nat → Bool}
    (hdrop : ∀ i ins, s[i]? = some ins → isDelimiter ins = true → drop i = false) :
    (Edits.apply { drop } s).code.balanced = true :=
  Edits.balanced_apply_of_owner ht (fun _ => false) hdrop (sparesDelimiters_of_drop drop)

theorem DeadCode.isDelimiter_of_isPure {ins : Instruction} (h : ins.op.isPure = true) : isDelimiter ins = false := by
  rw [isDelimiter_eq_false]
  constructor
  · intro hop
    simp [hop, Opcode.isPure] at h
  · intro hop
    simp [hop, Opcode.isPure] at h

theorem DeadCode.isDead_delimiter {known : List Variable} {i : Nat} {ins : Instruction}
    (hi : s[i]? = some ins) (hdelimiter : isDelimiter ins = true) : isDead s t known i = false := by
  have heffect : ins.op.isPure ≠ true := by
    intro hpure
    rw [isDelimiter_of_isPure hpure] at hdelimiter
    exact Bool.noConfusion hdelimiter
  simp [isDead, hi, pureTarget, heffect]

theorem DeadCode.balanced_run (ht : ScopeTree.ofStream s = .ok t) :
    ∃ out, DeadCode.run s = .ok out ∧ out.code.balanced = true :=
  ⟨_, withTree_eq ht _, balanced_drop_plain ht fun _ _ => isDead_delimiter⟩

theorem Declarations.isVain_delimiter {i : Nat} {ins : Instruction} (hi : s[i]? = some ins)
    (hdelimiter : isDelimiter ins = true) : isVain s t i = false := by
  have hnone : DeadCode.declares? ins = none := by
    simp only [isDelimiter, Bool.or_eq_true, decide_eq_true_eq] at hdelimiter
    rcases hdelimiter with hop | hop
    · simp [DeadCode.declares?, hop]
    · simp [DeadCode.declares?, hop]
  simp [isVain, hi, hnone]

theorem Declarations.balanced_run (ht : ScopeTree.ofStream s = .ok t) :
    ∃ out, Declarations.run s = .ok out ∧ out.code.balanced = true :=
  ⟨_, withTree_eq ht _, balanced_drop_plain ht fun _ _ => isVain_delimiter⟩

theorem Folding.balanced_run (ht : ScopeTree.ofStream s = .ok t) :
    ∃ out, Folding.run s = .ok out ∧ out.code.balanced = true := by
  refine ⟨_, withTree_eq ht _, ?_⟩
  have hcloses := (ScopeTree.ofStream_isOk_iff s).1 ⟨t, ht⟩
  rw [balanced_iff, ← closes_delimiters, delimiters_foldFrom, closes_delimiters]
  exact hcloses

/-! ## Code behind an exit -/

namespace Unreachable

/-- Of the open regions, innermost first, whether they opened behind the exit that was passed. -/
def flagsOf (depth : Nat) : Option Nat → List Bool
  | none => List.replicate depth false
  | some k => List.replicate (depth - k) true ++ List.replicate k false

theorem flagsOf_self (depth : Nat) : flagsOf depth (some depth) = flagsOf depth none := by
  simp [flagsOf]

theorem flagsOf_succ {depth : Nat} {behind : Option Nat} (hbehind : ∀ k, behind = some k → k ≤ depth) :
    flagsOf (depth + 1) behind = behind.isSome :: flagsOf depth behind := by
  cases behind with
  | none => rfl
  | some k =>
      have hsucc : depth + 1 - k = depth - k + 1 := Nat.succ_sub (hbehind k rfl)
      rw [flagsOf, hsucc, List.replicate_succ]
      rfl

section Marks

variable {ins : Instruction} {depth : Nat} {behind : Option Nat} {s : Stream}

/-- The flags of the instructions, with the depths counted in `Nat`. -/
def marksAt (depth : Nat) (behind : Option Nat) (s : Stream) : List Bool :=
  marks depth (behind.map Int.ofNat) s

theorem marksAt_begin (hop : ins.op = .scopeBegin) :
    marksAt depth behind (ins :: s) = behind.isSome :: marksAt (depth + 1) behind s := by
  rw [marksAt, marks, hop]
  simp only [Option.isSome_map]
  rfl

theorem marksAt_end (hop : ins.op = .scopeEnd) :
    marksAt (depth + 1) behind (ins :: s) =
      if behind = some (depth + 1) then false :: marksAt depth none s
      else behind.isSome :: marksAt depth behind s := by
  have hdepth : ((depth + 1 : Nat) : Int) - 1 = depth := by omega
  have hiff : behind.map Int.ofNat = some ((depth + 1 : Nat) : Int) ↔ behind = some (depth + 1) := by
    cases behind with
    | none => simp
    | some k =>
        rw [Option.map_some, Option.some_inj, Option.some_inj]
        exact Int.ofNat_inj
  rw [marksAt, marks, hop]
  simp only [hdepth, hiff, Option.isSome_map]
  rfl

theorem marksAt_other (hb : ins.op ≠ .scopeBegin) (he : ins.op ≠ .scopeEnd) :
    marksAt depth behind (ins :: s) =
      behind.isSome ::
        marksAt depth (if behind.isNone && isExit ins.op then some depth else behind) s := by
  rw [marksAt, marks]
  split
  · contradiction
  · contradiction
  · cases behind with
    | some k => rfl
    | none =>
        cases isExit ins.op with
        | false => rfl
        | true => rfl

end Marks

theorem paired_marks {drop : Nat → Bool} {i depth : Nat} {behind : Option Nat} {names : List String}
    {s : Stream} (hcloses : closes names s = true) (hdepth : names.length = depth)
    (hbehind : ∀ k, behind = some k → k ≤ depth)
    (hdrop : ∀ k, drop (i + k) = (marksAt depth behind s)[k]?.getD false) :
    Paired drop i (flagsOf depth behind) s := by
  induction s generalizing i depth behind names with
  | nil => trivial
  | cons ins s ih =>
      have hrest : ∀ {flag : Bool} {marks : List Bool},
          marksAt depth behind (ins :: s) = flag :: marks →
          drop i = flag ∧ ∀ k, drop (i + 1 + k) = marks[k]?.getD false := by
        intro flag marks hmarks
        rw [hmarks] at hdrop
        refine ⟨hdrop 0, fun k => ?_⟩
        rw [Nat.add_assoc, Nat.add_comm 1 k]
        exact hdrop (k + 1)
      rcases ins.delimiter_cases with hop | hop | ⟨hb, he⟩
      · obtain ⟨hhead, htail⟩ := hrest (marksAt_begin hop)
        rw [closes_begin hop] at hcloses
        rw [Paired, if_pos hop, hhead, ← flagsOf_succ hbehind]
        refine ih hcloses (by simp [hdepth]) ?_ htail
        intro k hk
        have hle := hbehind k hk
        omega
      · cases names with
        | nil =>
            rw [closes_end_nil hop] at hcloses
            exact Bool.noConfusion hcloses
        | cons name names =>
            rw [closes_end hop, Bool.and_eq_true] at hcloses
            subst hdepth
            rw [Paired, if_neg (by simp [hop]), if_pos hop]
            by_cases hlast : behind = some (names.length + 1)
            · -- the region of the exit closes: its own delimiters are kept
              obtain ⟨hhead, htail⟩ := hrest ((marksAt_end hop).trans (if_pos hlast))
              rw [hlast, List.length_cons, flagsOf_self, flagsOf_succ (by simp), hhead]
              exact ⟨rfl, ih hcloses.2 rfl (by simp) htail⟩
            · obtain ⟨hhead, htail⟩ := hrest ((marksAt_end hop).trans (if_neg hlast))
              have hle : ∀ k, behind = some k → k ≤ names.length := by
                intro k hk
                have hne : k ≠ names.length + 1 := by
                  rintro rfl
                  exact hlast hk
                have := hbehind k hk
                rw [List.length_cons] at this
                omega
              rw [List.length_cons, flagsOf_succ hle, hhead]
              exact ⟨rfl, ih hcloses.2 rfl hle htail⟩
      · obtain ⟨hhead, htail⟩ := hrest (marksAt_other hb he)
        rw [closes_other hb he] at hcloses
        rw [Paired, if_neg hb, if_neg he]
        split at htail
        · next hexit =>
            rw [Bool.and_eq_true, Option.isNone_iff_eq_none] at hexit
            rw [hexit.1, ← flagsOf_self]
            refine ih hcloses hdepth ?_ htail
            rintro k ⟨⟩
            exact Nat.le_refl _
        · exact ih hcloses hdepth hbehind htail

def drops (s : Stream) (i : Nat) : Bool := (marks 0 none s)[i]?.getD false

theorem paired_drops (hs : s.balanced = true) : Paired (drops s) 0 [] s := by
  refine @paired_marks _ 0 0 none [] s ((balanced_iff s).1 hs) rfl (by simp) ?_
  intro k
  rw [Nat.zero_add]
  rfl

theorem balanced_run (hs : s.balanced = true) : (run s).code.balanced = true :=
  Edits.balanced_apply_of_paired hs (paired_drops hs) (sparesDelimiters_of_drop _)

end Unreachable

/-! ## Whole regions -/

theorem mem_inner {n : Nat} (hn : n ∈ t.inner) : n ≠ ScopeTree.root ∧ n < t.nodes.length := by
  rw [ScopeTree.inner, List.tail_range, List.mem_range'_1] at hn
  exact ⟨fun hroot => absurd (hroot ▸ hn.1) (by decide), by omega⟩

theorem nodeAt_begin (ht : ScopeTree.ofStream s = .ok t) {i : Nat} {ins : Instruction}
    (hi : s[i]? = some ins) (hop : ins.op = .scopeBegin) :
    t.nodeAt i ≠ ScopeTree.root ∧ t.nodeAt i < t.nodes.length := by
  obtain ⟨pre, post, hs, rfl⟩ := exists_split hi
  have hnode := ScopeTree.nodeAt_length ht hs
  have hopened := ScopeTree.opened_lt_length_nodes ht hs hop
  rw [Position.owner, if_pos hop] at hnode
  rw [hnode]
  exact ⟨Nat.succ_ne_zero _, hopened⟩

namespace UnusedFunctions

def vainNodes (s : Stream) (t : ScopeTree) : List Nat :=
  (List.range s.length).filterMap fun i =>
    match s[i + 1]? with
    | some ins =>
      if isVain s i && ins.op = .scopeBegin && ins.scopeKind = .function then
        some (t.nodeAt (i + 1 : Nat))
      else none
    | none => none

theorem vainBodies_eq (s : Stream) (t : ScopeTree) : vainBodies s t = (vainNodes s t).map t.node := by
  rw [vainBodies, vainNodes, List.map_filterMap]
  congr 1
  funext i
  cases s[i + 1]? with
  | none => rfl
  | some ins =>
      dsimp only
      split
      · rfl
      · rfl

theorem mem_vainNodes {n : Nat} :
    n ∈ vainNodes s t ↔ ∃ i ins, isVain s i = true ∧ s[i + 1]? = some ins ∧ ins.op = .scopeBegin ∧
      ins.scopeKind = .function ∧ t.nodeAt (i + 1 : Nat) = n := by
  rw [vainNodes, List.mem_filterMap]
  constructor
  · rintro ⟨i, -, hi⟩
    split at hi
    · next ins hins =>
        split at hi
        · next hbody =>
            simp only [Bool.and_eq_true, decide_eq_true_eq] at hbody
            exact ⟨i, ins, hbody.1.1, hins, hbody.1.2, hbody.2, Option.some.inj hi⟩
        · exact absurd hi (by simp)
    · exact absurd hi (by simp)
  · rintro ⟨i, ins, hvain, hins, hop, hkind, rfl⟩
    have hlt : i + 1 < s.length := (List.getElem?_eq_some_iff.1 hins).1
    refine ⟨i, List.mem_range.2 (Nat.lt_of_succ_lt hlt), ?_⟩
    rw [hins]
    simp [hvain, hop, hkind]

theorem vainNodes_inner (ht : ScopeTree.ofStream s = .ok t) :
    ∀ n ∈ vainNodes s t, n ≠ ScopeTree.root ∧ n < t.nodes.length := by
  intro n hn
  obtain ⟨i, ins, -, hins, hop, -, rfl⟩ := mem_vainNodes.1 hn
  exact nodeAt_begin ht hins hop

theorem isVain_delimiter {i : Nat} {ins : Instruction} (hi : s[i]? = some ins)
    (hdelimiter : isDelimiter ins = true) : isVain s i = false := by
  simp only [isDelimiter, Bool.or_eq_true, decide_eq_true_eq] at hdelimiter
  rcases hdelimiter with hop | hop
  · simp [isVain, hi, hop]
  · simp [isVain, hi, hop]

theorem balanced_run (ht : ScopeTree.ofStream s = .ok t) :
    ∃ out, run s = .ok out ∧ out.code.balanced = true := by
  refine ⟨_, withTree_eq ht _, ?_⟩
  refine Edits.balanced_apply_of_regions ht (vainNodes s t) (vainNodes_inner ht) ?_
    (sparesDelimiters_of_drop _)
  intro i ins hi hdelimiter
  simp only [isVain_delimiter hi hdelimiter, Bool.false_or, vainBodies_eq]

end UnusedFunctions

theorem UselessScopes.balanced_run (ht : ScopeTree.ofStream s = .ok t) :
    ∃ out, UselessScopes.run s = .ok out ∧ out.code.balanced = true := by
  refine ⟨_, withTree_eq ht _, ?_⟩
  refine Edits.balanced_apply_of_regions ht (useless s t) ?_ (fun _ _ _ _ => rfl)
    (sparesDelimiters_of_drop _)
  intro n hn
  exact mem_inner (List.mem_filter.1 hn).1

namespace EmptyScopes

theorem mem_emptyNodes {n : Nat} (hn : n ∈ emptyNodes s t) :
    n ≠ ScopeTree.root ∧ n < t.nodes.length := by
  rcases mem_closure hn with hseed | hcandidate
  · exact absurd hseed (List.not_mem_nil)
  · exact mem_inner (List.mem_filter.1 (List.mem_reverse.1 hcandidate)).1

theorem isDropped_delimiter {empty : List Nat} {n : Nat} {ins : Instruction}
    (hdelimiter : isDelimiter ins = true) : isDropped t empty n ins = false := by
  simp only [isDelimiter, Bool.or_eq_true, decide_eq_true_eq] at hdelimiter
  rcases hdelimiter with hop | hop
  · simp [isDropped, hop]
  · simp [isDropped, hop]

theorem narrowed_eq_some {empty : List Nat} {n : Nat} {ins new : Instruction}
    (hnew : narrowed t empty n ins = some new) :
    ins.op = .condJump ∧
      (branch t empty n ins.onTrue ≠ ins.onTrue ∨ branch t empty n ins.onFalse ≠ ins.onFalse) ∧
      new = (Instruction.condJump ins.condition (branch t empty n ins.onTrue)
        (branch t empty n ins.onFalse)).located ins.loc := by
  rw [narrowed] at hnew
  split at hnew
  · next hop =>
      dsimp only at hnew
      split at hnew
      · next hchanged =>
          rw [Bool.or_eq_true, decide_eq_true_eq, decide_eq_true_eq] at hchanged
          exact ⟨hop, hchanged, (Option.some.inj hnew).symm⟩
      · exact absurd hnew (by simp)
  · exact absurd hnew (by simp)

theorem drop_edits {empty : List Nat} {i : Nat} {ins : Instruction} (hi : s[i]? = some ins) :
    (edits s t empty).drop i =
      ((empty.map t.node).any (inRegion · i) || isDropped t empty (t.nodeAt i) ins) := by
  simp only [edits, hi, Option.map_some, Option.getD_some]

theorem replace_edits {empty : List Nat} {i : Nat} {ins : Instruction} (hi : s[i]? = some ins) :
    (edits s t empty).replace i = narrowed t empty (t.nodeAt i) ins := by
  simp only [edits, hi, Option.bind_some]

theorem sparesDelimiters_edits (empty : List Nat) : (edits s t empty).SparesDelimiters 0 s := by
  intro k ins new hk hnew
  rw [Nat.zero_add, replace_edits hk] at hnew
  obtain ⟨hop, -, rfl⟩ := narrowed_eq_some hnew
  exact ⟨by simp [isDelimiter, hop], rfl⟩

theorem balanced_run (ht : ScopeTree.ofStream s = .ok t) :
    ∃ out, run s = .ok out ∧ out.code.balanced = true := by
  refine ⟨_, withTree_eq ht _, ?_⟩
  split
  · exact balanced_of_tree ht
  · refine Edits.balanced_apply_of_regions ht (emptyNodes s t) (fun n => mem_emptyNodes) ?_
      (sparesDelimiters_edits _)
    intro i ins hi hdelimiter
    rw [drop_edits hi, isDropped_delimiter hdelimiter, Bool.or_false]

end EmptyScopes

end Datapack.Optimize
