import Datapack.Optimize.UselessScopes
import Datapack.Proofs.Optimize.Strict

/-!
# Tidy programs

A valid program may become invalid when instructions are dropped or folded.  A tidy program does not: it
is valid in the strict reading, every function region follows the definition of its function, every jump
leads back to a region that is no function region, and no definition stands in a region that may be
removed.  The main result, `Sound.tidy`, says which revisions keep a program tidy: those that drop
regions as a whole, drop nothing that something else still refers to, and put nothing worse in place of
an instruction.
-/

namespace Datapack.Optimize

open Ir ScopeTree Revision

/-- Every function region directly follows a definition; `defined` says whether one stands before. -/
def bodiesFollow : Bool → Stream → Bool
  | _, [] => true
  | defined, ins :: rest =>
    (defined || !(ins.op = .scopeBegin && ins.scopeKind = .function))
      && bodiesFollow (ins.op = .function) rest

/-- Every jump leads to a region that begins before it and is no function region. -/
def jumpsLeadBack (s : Stream) (t : ScopeTree) : Bool :=
  s.zipIdx.all fun (ins, i) => ins.jumpTargets.all fun x =>
    (t.resolve (t.nodeAt i) x).all fun m => (t.node m).kind ≠ .function && (t.node m).first < i

/-- No definition stands in a region that may be removed, and only the global region is global. -/
def definitionsStandApart (t : ScopeTree) : Bool :=
  t.inner.all fun n => (t.node n).kind ≠ .global
    && !(UselessScopes.isRemovable (t.node n).kind && UselessScopes.holdsDefinition t n)

def isTidy (p : Program) : Bool :=
  (strict p).isValid
    && match ofStream p.code with
      | .error _ => false
      | .ok t => bodiesFollow false p.code && jumpsLeadBack p.code t && definitionsStandApart t

/-- A tidy stream with its tree, seen from the instructions. -/
structure Tidy (classes : Hierarchy) (s : Stream) (t : ScopeTree) : Prop where
  tree : ofStream s = .ok t
  clean : Clean classes s t
  bodies : ∀ pre b post, s = pre ++ b :: post → b.op = .scopeBegin → b.scopeKind = .function →
    ∃ front f, pre = front ++ [f] ∧ f.op = .function
  jumps : ∀ pre ins post, s = pre ++ ins :: post → ∀ x ∈ ins.jumpTargets, ∀ m,
    t.resolve (Position.start.after pre).top x = some m →
      (t.node m).kind ≠ .function ∧ m ≤ (Position.start.after pre).opened
  apart : definitionsStandApart t = true

theorem isDelimiter_of_jumpTargets {ins : Instruction} {x : String} (h : x ∈ ins.jumpTargets) :
    isDelimiter ins = false := by
  unfold Instruction.jumpTargets at h
  split at h
  · next hop => simp [isDelimiter, hop]
  · next hop => simp [isDelimiter, hop]
  · exact absurd h List.not_mem_nil

theorem bodiesFollow_iff {defined : Bool} {s : Stream} :
    bodiesFollow defined s = true ↔
      ∀ pre b post, s = pre ++ b :: post → b.op = .scopeBegin → b.scopeKind = .function →
        (pre = [] ∧ defined = true) ∨ ∃ front f, pre = front ++ [f] ∧ f.op = .function := by
  induction s generalizing defined with
  | nil => simp [bodiesFollow]
  | cons ins s ih =>
      rw [bodiesFollow, Bool.and_eq_true, ih]
      constructor
      · rintro ⟨hhead, htail⟩ pre b post hsplit hop hkind
        cases pre with
        | nil =>
            rw [List.nil_append, List.cons.injEq] at hsplit
            rw [hsplit.1] at hhead
            simp only [hop, hkind, decide_true, Bool.and_self, Bool.not_true, Bool.or_false] at hhead
            exact .inl ⟨rfl, hhead⟩
        | cons a pre =>
            rw [List.cons_append, List.cons.injEq] at hsplit
            obtain ⟨rfl, hsplit⟩ := hsplit
            refine .inr ?_
            rcases htail pre b post hsplit hop hkind with ⟨rfl, hdefined⟩ | ⟨front, f, rfl, hf⟩
            · exact ⟨[], ins, rfl, by simpa using hdefined⟩
            · exact ⟨ins :: front, f, rfl, hf⟩
      · intro h
        refine ⟨?_, fun pre b post hsplit hop hkind => ?_⟩
        · by_cases hbody : ins.op = .scopeBegin ∧ ins.scopeKind = .function
          · rcases h [] ins s rfl hbody.1 hbody.2 with ⟨-, hdefined⟩ | ⟨front, f, hnil, -⟩
            · simp [hdefined]
            · simp at hnil
          · rw [not_and_or] at hbody
            rcases hbody with hop | hkind
            · simp [hop]
            · simp [hkind]
        · rcases h (ins :: pre) b post (by rw [hsplit, List.cons_append]) hop hkind with
            ⟨hnil, -⟩ | ⟨front, f, hfront, hf⟩
          · exact absurd hnil (List.cons_ne_nil _ _)
          · cases front with
            | nil =>
                rw [List.nil_append, List.cons.injEq] at hfront
                exact .inl ⟨hfront.2, by simp [hfront.1, hf]⟩
            | cons a front =>
                rw [List.cons_append, List.cons.injEq] at hfront
                exact .inr ⟨front, f, hfront.2, hf⟩

theorem jumpsLeadBack_iff {s : Stream} {t : ScopeTree} (ht : ofStream s = .ok t) :
    jumpsLeadBack s t = true ↔
      ∀ pre ins post, s = pre ++ ins :: post → ∀ x ∈ ins.jumpTargets, ∀ m,
        t.resolve (Position.start.after pre).top x = some m →
          (t.node m).kind ≠ .function ∧ m ≤ (Position.start.after pre).opened := by
  have hat : ∀ pre ins post, s = pre ++ ins :: post → ∀ x ∈ ins.jumpTargets,
      t.nodeAt pre.length = (Position.start.after pre).top := by
    intro pre ins post hs x hx
    rw [nodeAt_length ht hs, Position.owner_plain _ (isDelimiter_of_jumpTargets hx)]
  have hlt : ∀ pre ins post, s = pre ++ ins :: post → ∀ x ∈ ins.jumpTargets, ∀ m,
      t.resolve (Position.start.after pre).top x = some m →
        ((t.node m).first < pre.length ↔ m ≤ (Position.start.after pre).opened) := by
    intro pre ins post hs x hx m hm
    exact first_lt_iff ht hs (name_of_resolve ht hm).1
      (lt_of_resolve ht hs (isDelimiter_of_jumpTargets hx) hm)
  rw [jumpsLeadBack, List.all_eq_true]
  constructor
  · intro h pre ins post hs x hx m hm
    have hall := h (ins, pre.length) (List.mk_mem_zipIdx_iff_getElem?.2 (by simp [hs]))
    simp only [List.all_eq_true, hat pre ins post hs x hx] at hall
    have hstep := hall x hx
    rw [hm, Option.all_some, Bool.and_eq_true, decide_eq_true_eq, decide_eq_true_eq] at hstep
    exact ⟨hstep.1, (hlt pre ins post hs x hx m hm).1 hstep.2⟩
  · rintro h ⟨ins, i⟩ hi
    rw [List.mk_mem_zipIdx_iff_getElem?] at hi
    obtain ⟨pre, post, hs, rfl⟩ := exists_split hi
    rw [List.all_eq_true]
    intro x hx
    rw [hat _ _ _ hs x hx]
    cases hm : t.resolve (Position.start.after pre).top x with
    | none => rfl
    | some m =>
        obtain ⟨hkind, hopened⟩ := h _ _ _ hs x hx m hm
        have hfirst := (hlt _ _ _ hs x hx m hm).2 hopened
        simp [hkind, hfirst]

theorem isTidy_iff (p : Program) : isTidy p = true ↔ ∃ t, Tidy p.classes p.code t := by
  rw [isTidy, Bool.and_eq_true, isValid_strict_iff]
  constructor
  · rintro ⟨⟨t, ht, hclean⟩, hrest⟩
    simp only [ht, Bool.and_eq_true] at hrest
    obtain ⟨⟨hbodies, hjumps⟩, hapart⟩ := hrest
    refine ⟨t, ht, hclean, fun pre b post hs hop hkind => ?_, (jumpsLeadBack_iff ht).1 hjumps, hapart⟩
    rcases bodiesFollow_iff.1 hbodies pre b post hs hop hkind with ⟨-, hfalse⟩ | hdefined
    · exact Bool.noConfusion hfalse
    · exact hdefined
  · rintro ⟨t, ht, hclean, hbodies, hjumps, hapart⟩
    refine ⟨⟨t, ht, hclean⟩, ?_⟩
    simp only [ht, Bool.and_eq_true]
    refine ⟨⟨bodiesFollow_iff.2 fun pre b post hs hop hkind => .inr ?_, (jumpsLeadBack_iff ht).2 hjumps⟩,
      hapart⟩
    exact hbodies pre b post hs hop hkind

/-! ## Revisions of tidy streams -/

/-- What stands in place of an instruction adds the same to what is known, leads nowhere else and has no
defect where the instruction has none. -/
structure Refines (classes : Hierarchy) (ins new : Instruction) : Prop where
  targets : ∀ x ∈ new.jumpTargets, x ∈ ins.jumpTargets
  advance : ∀ (k : Ir.Progress) n, k.advance n (asAssignment new) = k.advance n (asAssignment ins)
  defects : ∀ (e : Ir.Surroundings) k n, e.classes = classes →
    e.defects k n (asAssignment ins) = [] → e.defects k n (asAssignment new) = []

theorem Refines.refl (classes : Hierarchy) (ins : Instruction) : Refines classes ins ins :=
  ⟨fun _ hx => hx, fun _ _ => rfl, fun _ _ _ _ h => h⟩

/-- Instructions that add nothing to what is known only have to lead nowhere else and have no defect. -/
theorem Refines.of_unknowing {classes : Hierarchy} {ins new : Instruction}
    (hins : isOperation ins = false ∧ ins.op ≠ .declare ∧ ins.op ≠ .assign)
    (hnew : isOperation new = false ∧ new.op ≠ .declare ∧ new.op ≠ .assign)
    (htargets : ∀ x ∈ new.jumpTargets, x ∈ ins.jumpTargets)
    (hdefects : ∀ (e : Ir.Surroundings) k n, e.classes = classes → e.defects k n ins = [] →
      e.defects k n new = []) : Refines classes ins new := by
  refine ⟨htargets, fun k n => ?_, ?_⟩
  · rw [asAssignment_other hins.1, asAssignment_other hnew.1, advance_of_ne k n hins.2.1 hins.2.2,
      advance_of_ne k n hnew.2.1 hnew.2.2]
  · rw [asAssignment_other hins.1, asAssignment_other hnew.1]
    exact hdefects

/-- A revision that drops nothing that something else refers to and puts nothing worse in place. -/
structure Sound (classes : Hierarchy) (t : ScopeTree) (gone : Nat → Bool) (w : Revision) : Prop extends
    Thins t gone w where
  refines : ∀ ins new, (ins, some new) ∈ w → Refines classes ins new
  targets : ∀ a ins new b, w = a ++ (ins, some new) :: b → ∀ x ∈ new.jumpTargets, ∀ m,
    t.resolve (Position.start.after (before a)).top x = some m → gone m = false
  declared : ∀ a d b ins new c, w = a ++ (d, none) :: (b ++ (ins, some new) :: c) → ∀ v,
    DeadCode.declares? d = some v → assigns? (asAssignment new) = some v →
    (Position.start.after (before a)).top ∉ (Position.start.after (before (a ++ (d, none) :: b))).stack
  functions : ∀ a f o b new c, w = a ++ (f, o) :: (b, some new) :: c → f.op = .function →
    b.op = .scopeBegin → b.scopeKind = .function → o = some f

/-- A declaration in a region that the first part of a revision drops. -/
def Lost (a : Revision) (m : Nat) (v : Variable) : Prop :=
  ∃ front d rest, a = front ++ (d, none) :: rest ∧ DeadCode.declares? d = some v ∧
    (Position.start.after (before front)).top = m

theorem Lost.mono {a : Revision} {m : Nat} {v : Variable} (h : Lost a m v) (b : Revision) :
    Lost (a ++ b) m v := by
  obtain ⟨front, d, rest, rfl, hd, htop⟩ := h
  exact ⟨front, d, rest ++ b, by simp, hd, htop⟩

/-! ### What is known along a revision -/

section Knows

variable {gone : Nat → Bool} {lost : Nat → Variable → Prop} {k k' : Ir.Progress} {n : Nat} {ins : Instruction}

theorem mem_declared_advance {x : Nat × Variable} (h : x ∈ (k.advance n ins).declared) :
    x ∈ k.declared ∨ (x.1 = n ∧ DeadCode.declares? ins = some x.2) := by
  by_cases hdeclare : ins.op = .declare
  · rw [(advance_declare k n hdeclare).2] at h
    cases hv : varOf (ins.refAt 0) with
    | none =>
        rw [hv] at h
        exact .inl h
    | some v =>
        rw [hv] at h
        dsimp only at h
        split at h
        · exact .inl h
        · rcases List.mem_cons.1 h with rfl | h
          · exact .inr ⟨rfl, by rw [DeadCode.declares?, if_pos hdeclare, hv]⟩
          · exact .inl h
  · by_cases hassign : ins.op = .assign
    · rw [(advance_assign k n hassign).1] at h
      exact .inl h
    · rw [advance_of_ne k n hdeclare hassign] at h
      exact .inl h

theorem advance_mono (k : Ir.Progress) (n : Nat) (ins : Instruction) :
    (∀ x ∈ k.declared, x ∈ (k.advance n ins).declared) ∧
      ∀ v ∈ k.assigned, v ∈ (k.advance n ins).assigned := by
  by_cases hdeclare : ins.op = .declare
  · obtain ⟨ha, hd⟩ := advance_declare k n hdeclare
    rw [ha, hd]
    refine ⟨fun x hx => ?_, fun v hv => hv⟩
    cases varOf (ins.refAt 0) with
    | none => exact hx
    | some v =>
        dsimp only
        split
        · exact hx
        · exact List.mem_cons_of_mem _ hx
  · by_cases hassign : ins.op = .assign
    · obtain ⟨hd, ha⟩ := advance_assign k n hassign
      rw [ha, hd]
      exact ⟨fun x hx => hx, fun v hv => List.mem_append_right _ hv⟩
    · rw [advance_of_ne k n hdeclare hassign]
      exact ⟨fun x hx => hx, fun v hv => hv⟩

/-- An instruction that is dropped adds nothing behind the revision. -/
theorem knows_drop (h : Knows gone lost k k') {lost' : Nat → Variable → Prop}
    (hmono : ∀ m v, lost m v → lost' m v)
    (hhere : ∀ v, DeadCode.declares? ins = some v → lost' n v) :
    Knows gone lost' (k.advance n ins) k' := by
  obtain ⟨hdeclared, hassigned⟩ := advance_mono k n ins
  refine ⟨fun n' v hv => ?_, fun m v hv => ?_, fun v hv => hassigned v (h.assigned v hv)⟩
  · obtain ⟨m, hm, hrank, hmem⟩ := h.origin n' v hv
    exact ⟨m, hm, hrank, hdeclared _ hmem⟩
  · rcases mem_declared_advance hv with hold | ⟨rfl, hnew⟩
    · exact (h.declared m v hold).imp id (hmono m v)
    · exact .inr (hhere v hnew)

/-- An instruction that stays adds the same on both sides. -/
theorem knows_keep (h : Knows gone lost k k') (hn : isDelimiter ins = false → gone n = false)
    {e : Ir.Surroundings} (hdefects : e.defects k n ins = []) :
    Knows gone lost (k.advance n ins) (k'.advance (rank gone n) ins) := by
  by_cases hdeclare : ins.op = .declare
  · have hkept := hn (by simp [isDelimiter, hdeclare])
    obtain ⟨ha, hd⟩ := advance_declare k n hdeclare
    obtain ⟨ha', hd'⟩ := advance_declare k' (rank gone n) hdeclare
    simp only [Surroundings.defects, hdeclare, Surroundings.declareDefects] at hdefects
    cases hv : varOf (ins.refAt 0) with
    | none => simp [hv] at hdefects
    | some v =>
        -- the variable is new in its region before the revision, and so it is behind it
        have hfresh : k.declares n v.name = false := by
          cases hold : k.declares n v.name with
          | false => rfl
          | true => simp [hv, hold] at hdefects
        have hfresh' : k'.declares (rank gone n) v.name = false := by
          cases hold : k'.declares (rank gone n) v.name with
          | false => rfl
          | true =>
              rw [h.declares hkept hold] at hfresh
              exact Bool.noConfusion hfresh
        simp only [hv, hfresh, Bool.false_eq_true, if_false] at hd
        simp only [hv, hfresh', Bool.false_eq_true, if_false] at hd'
        refine ⟨fun n' u hu => ?_, fun m u hu => ?_, fun u hu => ?_⟩
        · rw [hd', List.mem_cons] at hu
          rw [hd]
          rcases hu with hnew | hold
          · obtain ⟨rfl, rfl⟩ := Prod.mk.inj hnew
            exact ⟨n, hkept, rfl, List.mem_cons_self⟩
          · obtain ⟨m, hm, hrank, hmem⟩ := h.origin n' u hold
            exact ⟨m, hm, hrank, List.mem_cons_of_mem _ hmem⟩
        · rw [hd, List.mem_cons] at hu
          rw [hd']
          rcases hu with hnew | hold
          · obtain ⟨rfl, rfl⟩ := Prod.mk.inj hnew
            exact .inl List.mem_cons_self
          · exact (h.declared m u hold).imp (List.mem_cons_of_mem _) id
        · rw [ha'] at hu
          rw [ha]
          exact h.assigned u hu
  · by_cases hassign : ins.op = .assign
    · obtain ⟨hd, ha⟩ := advance_assign k n hassign
      obtain ⟨hd', ha'⟩ := advance_assign k' (rank gone n) hassign
      refine ⟨?_, ?_, fun u hu => ?_⟩
      · rw [hd, hd']
        exact h.origin
      · rw [hd, hd']
        exact h.declared
      · rw [ha', List.mem_append] at hu
        rw [ha, List.mem_append]
        exact hu.imp id (h.assigned u)
    · rw [advance_of_ne k n hdeclare hassign, advance_of_ne k' _ hdeclare hassign]
      exact h

end Knows

namespace Sound

variable {classes : Hierarchy} {t t' : ScopeTree} {gone : Nat → Bool} {w a b : Revision}
  {ins new : Instruction}

theorem knows (h : Sound classes t gone w) (hclean : Clean classes (before w) t) (hw : w = a ++ b) :
    Knows gone (Lost a) (track ((before a).map asAssignment)) (track ((after a).map asAssignment)) := by
  induction a using List.reverseRecOn generalizing b with
  | nil => exact ⟨fun _ _ hx => absurd hx List.not_mem_nil, fun _ _ hx => absurd hx List.not_mem_nil,
      fun _ hx => absurd hx List.not_mem_nil⟩
  | append_singleton a x ih =>
      obtain ⟨ins, o⟩ := x
      rw [List.append_assoc, List.singleton_append] at hw
      have hknows := ih hw
      have hmono : ∀ m v, Lost a m v → Lost (a ++ [(ins, o)]) m v := fun m v hlost => hlost.mono _
      have hdefects := hclean (before a) ins (before b) (by rw [hw, before_append]; rfl)
      rw [before_append, show before [(ins, o)] = [ins] from rfl, List.map_append, List.map_singleton,
        track_snoc, after_strict]
      cases o with
      | none =>
          rw [after_append, show after [(ins, none)] = [] from rfl, List.append_nil]
          refine knows_drop hknows hmono fun v hv => ⟨a, ins, [], rfl, ?_, rfl⟩
          cases hoperation : isOperation ins with
          | false => rwa [asAssignment_other hoperation] at hv
          | true =>
              rw [asAssignment_operation hoperation] at hv
              simp [DeadCode.declares?, Instruction.located, Instruction.assign] at hv
      | some new =>
          rw [after_append, show after [(ins, some new)] = [new] from rfl, List.map_append,
            List.map_singleton, track_snoc, after_strict,
            (h.refines ins new (by simp [hw])).advance]
          refine Knows.mono ?_ hmono
          cases hplain : isDelimiter ins with
          | true =>
              rw [asAssignment_delimiter hplain, advance_delimiter _ _ hplain,
                advance_delimiter _ _ hplain]
              exact hknows
          | false =>
              have hkept := h.kept_top hw hplain
              rw [(h.follows hw).top hkept]
              exact knows_keep hknows (fun _ => hkept) hdefects

/-- Function regions that stay keep their functions. -/
theorem lookup (h : Sound classes t gone w) (htidy : Tidy classes (before w) t)
    (ht' : ofStream (after w) = .ok t') {m : Nat} (hm : gone m = false) (hroot : m ≠ ScopeTree.root)
    (hlt : m < t.nodes.length) (hkind : (t.node m).kind = .function) :
    (functionScopes (after w) t').lookup (rank gone m) = (functionScopes (before w) t).lookup m := by
  obtain ⟨pre, ins, post, hs, hop, rfl⟩ := exists_begin htidy.tree hroot hlt
  have hbody : ins.scopeKind = .function := by
    have hsig := sig_node_begin htidy.tree hs hop
    exact (congrArg (·.2.1) hsig).symm.trans hkind
  obtain ⟨front, f, rfl, hf⟩ := htidy.bodies pre ins post hs hop hbody
  rw [List.append_assoc, List.singleton_append] at hs
  obtain ⟨c, o, o', d, hw, rfl, rfl⟩ := exists_pair_of_before_eq hs
  have hopened : (Position.start.after (before c ++ [f])).opened =
      (Position.start.after (before c)).opened := by
    rw [Position.after_append, Position.after_cons, Position.after_nil,
      Position.advance_plain _ (by simp [isDelimiter, hf])]
  rw [hopened] at hm ⊢
  have ho' := h.delimiter (c ++ [(f, o)]) ins o' d (by simp [hw]) (by simp [isDelimiter, hop])
  rw [before_append, show before [(f, o)] = [f] from rfl, Position.owner, if_pos hop, hopened, hm,
    if_neg (by simp)] at ho'
  subst ho'
  have ho := h.functions c f o ins ins d hw hf hop hbody
  subst ho
  have hs' : after w = after c ++ f :: ins :: after d := by
    rw [hw, after_append]
    rfl
  have hnew := lookup_functionScopes ht' hs' hf hop hbody
  rw [(h.follows hw).opened] at hnew
  rw [hnew, lookup_functionScopes htidy.tree hs hf hop hbody]

theorem eq_of_isDelimiter (h : Sound classes t gone w) (hw : w = a ++ (ins, some new) :: b)
    (hnew : isDelimiter new = true) : ins = new := by
  have hdelimiter : isDelimiter ins = true := by
    cases hplain : isDelimiter ins with
    | true => rfl
    | false =>
        rw [h.plain ins new (by simp [hw]) hplain] at hnew
        exact Bool.noConfusion hnew
  have ho := h.delimiter a ins (some new) b hw hdelimiter
  split at ho
  · exact absurd ho (by simp)
  · exact (Option.some.inj ho).symm

theorem supported (h : Sound classes t gone w) (htidy : Tidy classes (before w) t)
    (ht' : ofStream (after w) = .ok t') (hw : w = a ++ (ins, some new) :: b)
    (hplain : isDelimiter ins = false) :
    Supported gone (Lost a) (surroundings classes (before w) t) (surroundings classes (after w) t')
      (Position.start.after (before a)).top (asAssignment new) := by
  have hs : before w = before a ++ ins :: before b := by
    rw [hw, before_append]
    rfl
  have hkept := h.kept_top hw hplain
  have haround := ancestors_top htidy.tree hs hplain
  refine ⟨hkept, fun x hx m hm => ?_, fun v hv m hm hlost => ?_, fun m hm => ?_⟩
  · cases hoperation : isOperation new with
    | true =>
        rw [asAssignment_operation hoperation] at hx
        exact absurd hx List.not_mem_nil
    | false =>
        rw [asAssignment_other hoperation] at hx
        exact h.targets a ins new b hw x hx m hm
  · obtain ⟨front, d, rest, rfl, hd, rfl⟩ := hlost
    refine h.declared front d rest ins new b (by simp [hw]) v hd hv ?_
    rw [← haround]
    exact hm
  · have hmem : m ∈ t.ancestors (Position.start.after (before a)).top := List.mem_of_find?_eq_some hm
    have hkind : (t.node m).kind = .function := by
      have := List.find?_some hm
      simpa [surroundings] using this
    have hroot : m ≠ ScopeTree.root := by
      rintro rfl
      have hglobal : (t.node ScopeTree.root).kind = .global := congrArg (·.2.1) (sig_root htidy.tree)
      rw [hglobal] at hkind
      exact ScopeKind.noConfusion hkind
    have hm' := (h.renumbers htidy.tree ht').kept_of_mem_ancestors hkept hmem
    rw [haround] at hmem
    exact h.lookup htidy ht' hm' hroot (lt_length_nodes htidy.tree hs hmem) hkind

theorem clean (h : Sound classes t gone w) (htidy : Tidy classes (before w) t)
    (ht' : ofStream (after w) = .ok t') : Clean classes (after w) t' := by
  intro pre new post hs'
  obtain ⟨a, ins, b, hw, rfl, rfl⟩ := exists_of_after_eq hs'
  cases hnew : isDelimiter new with
  | true =>
      rw [asAssignment_delimiter hnew]
      exact defects_delimiter _ _ _ hnew
  | false =>
      have hplain : isDelimiter ins = false := by
        cases hdelimiter : isDelimiter ins with
        | false => rfl
        | true =>
            have ho := h.delimiter a ins (some new) b hw hdelimiter
            split at ho
            · exact absurd ho (by simp)
            · rw [Option.some.inj ho, hdelimiter] at hnew
              exact Bool.noConfusion hnew
      have hs : before w = before a ++ ins :: before b := by
        rw [hw, before_append]
        rfl
      have hold := htidy.clean (before a) ins (before b) hs
      have hrefined := (h.refines ins new (by simp [hw])).defects _ _ _ rfl hold
      rw [(h.follows hw).top (h.kept_top hw hplain)]
      exact defects_thinned (e := surroundings classes (before w) t) (h.renumbers htidy.tree ht') rfl
        (h.knows htidy.clean hw) (h.supported htidy ht' hw hplain) hrefined

end Sound

theorem Tidy.resolves {classes : Hierarchy} {s : Stream} {t : ScopeTree} (h : Tidy classes s t)
    {pre post : Stream} {ins : Instruction} (hs : s = pre ++ ins :: post) {x : String}
    (hx : x ∈ ins.jumpTargets) : ∃ m, t.resolve (Position.start.after pre).top x = some m := by
  have hdefects := h.clean pre ins post hs
  unfold Instruction.jumpTargets at hx
  split at hx
  · next hop =>
      rw [asAssignment_other (by simp [isOperation, hop])] at hdefects
      simp only [Surroundings.defects, hop] at hdefects
      obtain rfl := List.mem_singleton.1 hx
      exact targetDefects_eq_nil.1 hdefects
  · next hop =>
      rw [asAssignment_other (by simp [isOperation, hop])] at hdefects
      simp only [Surroundings.defects, hop, Surroundings.condJumpDefects, List.append_eq_nil_iff,
        List.flatMap_eq_nil_iff] at hdefects
      exact targetDefects_eq_nil.1 (hdefects.2 x hx)
  · exact absurd hx List.not_mem_nil

/-- Regions that stay apart from definitions before a revision do so behind it. -/
theorem definitionsStandApart_of_renumbers {gone : Nat → Bool} {t t' : ScopeTree}
    (h : Renumbers gone t t') (hapart : definitionsStandApart t = true) :
    definitionsStandApart t' = true := by
  have hinner : ∀ n ∈ t'.inner, ∃ m ∈ t.inner, gone m = false ∧ rank gone m = n := by
    intro n hn
    obtain ⟨hroot, hlt⟩ := mem_inner hn
    rw [h.length] at hlt
    obtain ⟨m, hm, hkept, rfl⟩ := exists_rank_eq hlt
    refine ⟨m, ?_, hkept, rfl⟩
    have hm' : m ≠ ScopeTree.root := fun hzero => hroot ((h.rank_eq_root_iff hkept).2 hzero)
    rw [ScopeTree.inner, List.tail_range, List.mem_range'_1]
    rw [ScopeTree.root] at hm'
    omega
  unfold definitionsStandApart at hapart ⊢
  rw [List.all_eq_true] at hapart ⊢
  intro n hn
  obtain ⟨m, hm, hkept, rfl⟩ := hinner n hn
  have hstep := hapart m hm
  rw [h.kind hkept]
  simp only [Bool.and_eq_true, Bool.not_eq_true', Bool.and_eq_false_iff] at hstep ⊢
  refine ⟨hstep.1, hstep.2.imp id fun hnone => ?_⟩
  unfold UselessScopes.holdsDefinition at hnone ⊢
  rw [List.any_eq_false] at hnone ⊢
  intro c hc
  obtain ⟨d, hd, hdkept, rfl⟩ := hinner c hc
  have hstep := hnone d hd
  rw [h.kind hdkept, h.outer hdkept]
  intro hboth
  rw [Bool.and_eq_true, List.contains_iff_mem] at hboth hstep
  obtain ⟨q, hq, hrank⟩ := List.mem_map.1 hboth.1
  have hqkept := h.kept_of_mem_ancestors hdkept (List.mem_cons_of_mem d hq)
  obtain rfl := rank_inj hqkept hkept hrank
  exact hstep ⟨hq, hboth.2⟩

theorem Sound.tidy {classes : Hierarchy} {t t' : ScopeTree} {gone : Nat → Bool} {w : Revision}
    (h : Sound classes t gone w) (htidy : Tidy classes (before w) t)
    (ht' : ofStream (after w) = .ok t') : Tidy classes (after w) t' := by
  have hrenumbers := h.renumbers htidy.tree ht'
  refine ⟨ht', h.clean htidy ht', ?_, ?_, definitionsStandApart_of_renumbers hrenumbers htidy.apart⟩
  · intro pre body post hs' hop hkind
    obtain ⟨a, ins, b, hw, rfl, rfl⟩ := exists_of_after_eq hs'
    obtain rfl := h.eq_of_isDelimiter hw (by simp [isDelimiter, hop])
    have hs : before w = before a ++ ins :: before b := by
      rw [hw, before_append]
      rfl
    obtain ⟨front, f, ha, hf⟩ := htidy.bodies _ _ _ hs hop hkind
    obtain ⟨c, o, d, rfl, -, hd⟩ := exists_of_before_eq ha
    obtain rfl : d = [] := List.map_eq_nil_iff.1 hd
    obtain rfl := h.functions c f o ins ins b (by simp [hw]) hf hop hkind
    exact ⟨after c, f, after_append c _, hf⟩
  · intro pre new post hs' x hx m' hm'
    obtain ⟨a, ins, b, hw, rfl, rfl⟩ := exists_of_after_eq hs'
    have hs : before w = before a ++ ins :: before b := by
      rw [hw, before_append]
      rfl
    have hx' := (h.refines ins new (by simp [hw])).targets x hx
    have hkept := h.kept_top hw (isDelimiter_of_jumpTargets hx')
    obtain ⟨m, hm⟩ := htidy.resolves hs hx'
    obtain ⟨hkind, hopened⟩ := htidy.jumps _ _ _ hs x hx' m hm
    have hmkept := h.targets a ins new b hw x hx m hm
    rw [(h.follows hw).top hkept, hrenumbers.resolve hkept hmkept hm] at hm'
    obtain rfl := Option.some.inj hm'
    refine ⟨by rwa [hrenumbers.kind hmkept], ?_⟩
    have hlt : rank gone m < rank gone ((Position.start.after (before a)).opened + 1) :=
      Nat.count_strict_mono (p := (gone · = false)) hmkept (Nat.lt_succ_of_le hopened)
    rw [← (h.follows hw).opened] at hlt
    omega

end Datapack.Optimize
