import Datapack.Ir.Validity
import Datapack.Proofs.Ir.Thinning

/-!
# Validity, instruction by instruction

A program is valid when no instruction has a defect given what is known before it, which is
`isValid_iff`.  An instruction without a defect has none in a tree without some of the regions either,
as long as what it refers to is still there: `Carried` lists what it may refer to.
-/

namespace Datapack.Ir

open ScopeTree

/-- What is known behind a stream, from a position and what is known there. -/
def trackFrom : Position → Progress → Stream → Progress
  | _, k, [] => k
  | p, k, ins :: rest => trackFrom (p.advance ins) (k.advance p.top ins) rest

/-- What is known behind a stream. -/
def track (s : Stream) : Progress := trackFrom .start {} s

theorem trackFrom_append (p : Position) (k : Progress) (s s' : Stream) :
    trackFrom p k (s ++ s') = trackFrom (p.after s) (trackFrom p k s) s' := by
  induction s generalizing p k with
  | nil => rfl
  | cons ins s ih => exact ih _ _

theorem track_snoc (s : Stream) (ins : Instruction) :
    track (s ++ [ins]) = (track s).advance (Position.start.after s).top ins := by
  rw [track, trackFrom_append]
  rfl

section Advance

variable {ins : Instruction} (k : Progress) (n : Nat)

/-- Only declarations and assignments add to what is known. -/
theorem advance_of_ne (hd : ins.op ≠ .declare) (ha : ins.op ≠ .assign) : k.advance n ins = k := by
  unfold Progress.advance
  split
  · contradiction
  · contradiction
  · rfl

theorem advance_declare (hop : ins.op = .declare) :
    (k.advance n ins).assigned = k.assigned ∧
      (k.advance n ins).declared =
        match varOf (ins.refAt 0) with
        | some v => if k.declares n v.name then k.declared else (n, v) :: k.declared
        | none => k.declared := by
  simp only [Progress.advance, hop]
  cases varOf (ins.refAt 0) with
  | none => exact ⟨rfl, rfl⟩
  | some v => cases h : k.declares n v.name <;> simp [h]

/-- The constant an assignment with a source gives its value. -/
def constant? (ins : Instruction) : Option Variable :=
  if isConstantRef (ins.refAt 0) && (ins.refAt 1).isSome then varOf (ins.refAt 0) else none

theorem advance_assign (hop : ins.op = .assign) :
    (k.advance n ins).declared = k.declared ∧
      (k.advance n ins).assigned = (constant? ins).toList ++ k.assigned := by
  simp only [Progress.advance, hop, constant?]
  cases varOf (ins.refAt 0) with
  | none => simp
  | some v =>
      cases ins.refAt 1 with
      | none => simp
      | some source => cases h : isConstantRef (ins.refAt 0) <;> simp

theorem advance_delimiter (h : isDelimiter ins = true) : k.advance n ins = k := by
  simp only [isDelimiter, Bool.or_eq_true, decide_eq_true_eq] at h
  rcases h with hop | hop
  · exact advance_of_ne k n (by simp [hop]) (by simp [hop])
  · exact advance_of_ne k n (by simp [hop]) (by simp [hop])

theorem defects_delimiter (e : Surroundings) (h : isDelimiter ins = true) : e.defects k n ins = [] := by
  simp only [isDelimiter, Bool.or_eq_true, decide_eq_true_eq] at h
  rcases h with hop | hop <;> simp [Surroundings.defects, hop]

end Advance

theorem problemsFrom_eq_nil_iff {s : Stream} {e : Surroundings} (h : ofStream s = .ok e.tree)
    {pre rest : Stream} (hs : s = pre ++ rest) :
    e.problemsFrom pre.length (track pre) rest = [] ↔
      ∀ mid ins post, rest = mid ++ ins :: post →
        e.defects (track (pre ++ mid)) (Position.start.after (pre ++ mid)).top ins = [] := by
  induction rest generalizing pre with
  | nil =>
      refine ⟨fun _ mid ins post hmid => ?_, fun _ => rfl⟩
      simp at hmid
  | cons a rest ih =>
      have hnext := @ih (pre ++ [a]) (by simp [hs])
      rw [List.length_append, List.length_singleton] at hnext
      -- a delimiter is never looked at in its region
      obtain ⟨hdefects, htrack⟩ :
          e.defects (track pre) (e.tree.enclosingAt pre.length) a =
              e.defects (track pre) (Position.start.after pre).top a ∧
            (track pre).advance (e.tree.enclosingAt pre.length) a = track (pre ++ [a]) := by
        rw [track_snoc]
        cases hplain : isDelimiter a with
        | true =>
            rw [defects_delimiter _ _ e hplain, defects_delimiter _ _ e hplain,
              advance_delimiter _ _ hplain, advance_delimiter _ _ hplain]
            exact ⟨rfl, rfl⟩
        | false =>
            rw [enclosingAt_plain h hs hplain]
            exact ⟨rfl, rfl⟩
      rw [Surroundings.problemsFrom, List.append_eq_nil_iff, List.map_eq_nil_iff, hdefects, htrack, hnext]
      constructor
      · rintro ⟨hhead, htail⟩ mid ins post hmid
        cases mid with
        | nil =>
            rw [List.nil_append, List.cons.injEq] at hmid
            rw [← hmid.1, List.append_nil]
            exact hhead
        | cons b mid =>
            rw [List.cons_append, List.cons.injEq] at hmid
            have hstep := htail mid ins post hmid.2
            rwa [List.append_assoc, List.singleton_append, hmid.1] at hstep
      · intro hall
        refine ⟨?_, fun mid ins post hmid => ?_⟩
        · have hhead := hall [] a rest rfl
          rwa [List.append_nil] at hhead
        · have hstep := hall (a :: mid) ins post (by rw [hmid, List.cons_append])
          rwa [List.append_assoc, List.singleton_append]

def surroundings (classes : Hierarchy) (s : Stream) (t : ScopeTree) : Surroundings :=
  ⟨classes, t, functionScopes s t⟩

theorem Program.isValid_iff (p : Program) :
    p.isValid = true ↔
      ∃ t, ofStream p.code = .ok t ∧ ∀ pre ins post, p.code = pre ++ ins :: post →
        (surroundings p.classes p.code t).defects (track pre) (Position.start.after pre).top ins = [] := by
  rw [isValid, List.isEmpty_iff, problems]
  cases ht : ofStream p.code with
  | error fault => simp
  | ok t =>
      have hiff := @problemsFrom_eq_nil_iff p.code (surroundings p.classes p.code t) ht [] p.code rfl
      simp only [List.nil_append] at hiff
      refine hiff.trans ⟨fun h => ⟨t, rfl, h⟩, ?_⟩
      rintro ⟨t', ht', h⟩
      obtain rfl := Except.ok.inj ht'
      exact h

/-! ## Instructions in a thinned tree -/

def assigns? (ins : Instruction) : Option Variable :=
  if ins.op = .assign then varOf (ins.refAt 0) else none

/-- What is known when some regions and declarations have gone; `lost` are the declarations. -/
structure Knows (gone : Nat → Bool) (lost : Nat → Variable → Prop) (k k' : Progress) : Prop where
  origin : ∀ n v, (n, v) ∈ k'.declared →
    ∃ m, gone m = false ∧ rank gone m = n ∧ (m, v) ∈ k.declared
  declared : ∀ m v, (m, v) ∈ k.declared → (rank gone m, v) ∈ k'.declared ∨ lost m v
  assigned : ∀ v ∈ k'.assigned, v ∈ k.assigned

namespace Knows

variable {gone : Nat → Bool} {lost : Nat → Variable → Prop} {k k' : Progress} {t t' : ScopeTree} {n : Nat}

theorem mono (h : Knows gone lost k k') {lost' : Nat → Variable → Prop}
    (hlost : ∀ m v, lost m v → lost' m v) : Knows gone lost' k k' :=
  ⟨h.origin, fun m v hv => (h.declared m v hv).imp id (hlost m v), h.assigned⟩

theorem declares (h : Knows gone lost k k') (hn : gone n = false) {name : String}
    (hdeclares : k'.declares (rank gone n) name = true) : k.declares n name = true := by
  simp only [Progress.declares, List.any_eq_true, Bool.and_eq_true, decide_eq_true_eq] at hdeclares ⊢
  obtain ⟨⟨m', v⟩, hmem', rfl, hname⟩ := hdeclares
  obtain ⟨m, hm, hrank, hmem⟩ := h.origin _ v hmem'
  obtain rfl := rank_inj hm hn hrank
  exact ⟨(m, v), hmem, rfl, hname⟩

theorem isDeclared (h : Knows gone lost k k') (ht : Renumbers gone t t') (hn : gone n = false)
    {v : Variable} (hlost : ∀ m ∈ t.ancestors n, ¬lost m v) (hv : k.isDeclared t n v = true) :
    k'.isDeclared t' (rank gone n) v = true := by
  simp only [Progress.isDeclared, Bool.or_eq_true, List.any_eq_true, List.contains_iff_mem] at hv ⊢
  rcases hv with hkind | ⟨m, hm, hmem⟩
  · exact .inl hkind
  · refine .inr ⟨rank gone m, ?_, ?_⟩
    · rw [ht.ancestors hn]
      exact List.mem_map_of_mem hm
    · exact (h.declared m v hmem).resolve_right (hlost m hm)

end Knows

/-- An instruction refers to nothing that has gone. -/
structure Supported (gone : Nat → Bool) (lost : Nat → Variable → Prop) (e e' : Surroundings) (n : Nat)
    (ins : Instruction) : Prop where
  scope : gone n = false
  targets : ∀ x ∈ ins.jumpTargets, ∀ m, e.tree.resolve n x = some m → gone m = false
  declared : ∀ v, assigns? ins = some v → ∀ m ∈ e.tree.ancestors n, ¬lost m v
  functions : ∀ m, e.tree.enclosing n [.function] = some m →
    e'.functions.lookup (rank gone m) = e.functions.lookup m

section Thinned

variable {gone : Nat → Bool} {lost : Nat → Variable → Prop} {k k' : Progress} {e e' : Surroundings} {n : Nat}
  {ins : Instruction}

theorem targetDefects_eq_nil {x : String} : e.targetDefects n x = [] ↔ ∃ m, e.tree.resolve n x = some m := by
  rw [Surroundings.targetDefects, ← Option.isSome_iff_exists]
  split <;> simp_all

theorem targetDefects_thinned (ht : Renumbers gone e.tree e'.tree) (hs : Supported gone lost e e' n ins)
    {x : String} (hx : x ∈ ins.jumpTargets) (h : e.targetDefects n x = []) :
    e'.targetDefects (rank gone n) x = [] := by
  obtain ⟨m, hm⟩ := targetDefects_eq_nil.1 h
  exact targetDefects_eq_nil.2 ⟨_, ht.resolve hs.scope (hs.targets x hx m hm) hm⟩

theorem declareDefects_thinned (hk : Knows gone lost k k') (hn : gone n = false)
    (h : e.declareDefects k n ins = []) : e'.declareDefects k' (rank gone n) ins = [] := by
  unfold Surroundings.declareDefects at h ⊢
  split at h
  · simp at h
  · next v hv =>
      have hfresh : k.declares n v.name = false := by
        cases hdeclares : k.declares n v.name with
        | false => rfl
        | true => simp [hdeclares] at h
      rw [if_neg]
      intro hdeclares
      rw [hk.declares hn hdeclares] at hfresh
      exact Bool.noConfusion hfresh

theorem assignDefects_eq_nil :
    e.assignDefects k n ins = [] ↔
      ∃ v source, varOf (ins.refAt 0) = some v ∧ ins.refAt 1 = some source ∧
        k.isDeclared e.tree n v = true ∧ (isConstantRef (ins.refAt 0) = true → v ∉ k.assigned) ∧
        e.classes.accepts (typeOf (ins.refAt 0)) source.type = true := by
  unfold Surroundings.assignDefects
  dsimp only
  cases hv : varOf (ins.refAt 0) with
  | none => simp
  | some v =>
      cases hsource : ins.refAt 1 with
      | none => simp
      | some source =>
          simp only [List.append_eq_nil_iff, ite_eq_left_iff, ite_eq_right_iff, List.cons_ne_nil,
            imp_false, Bool.not_eq_true, Bool.not_eq_false, Bool.and_eq_true, List.contains_iff_mem,
            not_and, and_assoc, Option.some.injEq, exists_and_left, exists_eq_left']

theorem assignDefects_thinned (ht : Renumbers gone e.tree e'.tree) (hclasses : e'.classes = e.classes)
    (hk : Knows gone lost k k') (hs : Supported gone lost e e' n ins) (hop : ins.op = .assign)
    (h : e.assignDefects k n ins = []) : e'.assignDefects k' (rank gone n) ins = [] := by
  rw [assignDefects_eq_nil] at h ⊢
  obtain ⟨v, source, hv, hsource, hdeclared, hconstant, htype⟩ := h
  have hlost := hs.declared v (by rw [assigns?, if_pos hop, hv])
  refine ⟨v, source, hv, hsource, hk.isDeclared ht hs.scope hlost hdeclared, fun hc hmem => ?_, ?_⟩
  · exact hconstant hc (hk.assigned v hmem)
  · rwa [hclasses]

theorem condJumpDefects_thinned (ht : Renumbers gone e.tree e'.tree) (hs : Supported gone lost e e' n ins)
    (hop : ins.op = .condJump) (h : e.condJumpDefects n ins = []) :
    e'.condJumpDefects (rank gone n) ins = [] := by
  unfold Surroundings.condJumpDefects at h ⊢
  rw [List.append_eq_nil_iff, List.flatMap_eq_nil_iff] at h ⊢
  refine ⟨h.1, fun x hx => targetDefects_thinned ht hs ?_ (h.2 x hx)⟩
  rw [Instruction.jumpTargets, hop]
  exact hx

theorem exitDefects_thinned (ht : Renumbers gone e.tree e'.tree) (hn : gone n = false)
    (h : e.exitDefects n ins = []) : e'.exitDefects (rank gone n) ins = [] := by
  unfold Surroundings.exitDefects at h ⊢
  simp only at h ⊢
  split at h
  · next hinside =>
      rw [if_pos]
      rw [List.any_eq_true] at hinside ⊢
      obtain ⟨m, hm, hloop⟩ := hinside
      have hkept := ht.kept_of_mem_ancestors hn hm
      refine ⟨rank gone m, ?_, ?_⟩
      · rw [ht.ancestors hn]
        exact List.mem_map_of_mem hm
      · rw [ht.name hkept, ht.kind hkept]
        exact hloop
  · simp at h

theorem returnDefects_thinned (ht : Renumbers gone e.tree e'.tree) (hclasses : e'.classes = e.classes)
    (hs : Supported gone lost e e' n ins) (h : e.returnDefects n ins = []) :
    e'.returnDefects (rank gone n) ins = [] := by
  unfold Surroundings.returnDefects at h ⊢
  rw [ht.enclosing hs.scope]
  cases hm : e.tree.enclosing n [.function] with
  | none => simp [hm] at h
  | some m =>
      simp only [hm] at h
      simp only [Option.map_some, hs.functions m hm, hclasses]
      exact h

/-- An instruction without a defect has none behind the revision when what it refers to has stayed. -/
theorem defects_thinned (ht : Renumbers gone e.tree e'.tree) (hclasses : e'.classes = e.classes)
    (hk : Knows gone lost k k') (hs : Supported gone lost e e' n ins) (h : e.defects k n ins = []) :
    e'.defects k' (rank gone n) ins = [] := by
  unfold Surroundings.defects at h ⊢
  cases hop : ins.op with
  | declare =>
      rw [hop] at h
      exact declareDefects_thinned hk hs.scope h
  | assign =>
      rw [hop] at h
      exact assignDefects_thinned ht hclasses hk hs hop h
  | condJump =>
      rw [hop] at h
      exact condJumpDefects_thinned ht hs hop h
  | jump =>
      rw [hop] at h
      exact targetDefects_thinned ht hs (by simp [Instruction.jumpTargets, hop]) h
  | breakLoop | continueLoop =>
      rw [hop] at h
      exact exitDefects_thinned ht hs.scope h
  | ret =>
      rw [hop] at h
      exact returnDefects_thinned ht hclasses hs h
  | call | callMethod | getProperty | setProperty | classDef =>
      -- nothing but the classes is looked at
      rw [hop] at h
      obtain ⟨classes, t, bodies⟩ := e
      obtain ⟨classes', t', bodies'⟩ := e'
      obtain rfl : classes' = classes := hclasses
      exact h
  | _ => rfl

end Thinned

/-! ## Function bodies -/

theorem lookup_bodiesFrom {p : Position} {pre post : Stream} {f b : Instruction}
    (hf : f.op = .function) (hb : b.op = .scopeBegin) (hkind : b.scopeKind = .function) :
    (bodiesFrom p (pre ++ f :: b :: post)).lookup ((p.after pre).opened + 1) = some f.function? := by
  induction pre generalizing p with
  | nil =>
      have hadvance : p.advance f = p := p.advance_other (by simp [hf]) (by simp [hf])
      rw [List.nil_append, bodiesFrom, hadvance, if_pos (by simp [hf, hb, hkind])]
      simp
  | cons a pre ih =>
      have hrest := @ih (p.advance a)
      rw [Position.after_cons, List.cons_append]
      cases hsplit : pre ++ f :: b :: post with
      | nil => simp at hsplit
      | cons c rest =>
          rw [bodiesFrom]
          rw [hsplit] at hrest
          split
          · next hbody =>
              -- a body that opens here has a lower number
              simp only [Bool.and_eq_true, decide_eq_true_eq] at hbody
              have hlt : (p.advance a).opened < ((p.advance a).after pre).opened := by
                cases pre with
                | nil =>
                    rw [List.nil_append, List.cons.injEq] at hsplit
                    rw [← hsplit.1, hf] at hbody
                    exact absurd hbody.1.2 Opcode.noConfusion
                | cons c' pre =>
                    rw [List.cons_append, List.cons.injEq] at hsplit
                    have hle := Position.opened_le_after ((p.advance a).advance c') pre
                    rw [hsplit.1, Position.advance_begin _ hbody.1.2] at hle
                    rw [Position.after_cons, hsplit.1, Position.advance_begin _ hbody.1.2]
                    exact hle
              have hne : (((p.advance a).after pre).opened + 1 == (p.advance a).opened + 1) = false := by
                rw [beq_eq_false_iff_ne]
                omega
              rw [List.singleton_append, List.lookup_cons, hne]
              exact hrest
          · exact hrest

/-- The function of a function region is the one defined right before it. -/
theorem lookup_functionScopes {s : Stream} {t : ScopeTree} (h : ofStream s = .ok t) {pre post : Stream}
    {f b : Instruction} (hs : s = pre ++ f :: b :: post) (hf : f.op = .function)
    (hb : b.op = .scopeBegin) (hkind : b.scopeKind = .function) :
    (functionScopes s t).lookup ((Position.start.after pre).opened + 1) = some f.function? := by
  rw [functionScopes_eq h, hs]
  exact lookup_bodiesFrom hf hb hkind

end Datapack.Ir
