import Datapack.Proofs.Ir.Brackets
import Datapack.Proofs.Optimize.Folding.Replacements

/-!
# Loop headers

The frames of a walk are those of the regions that are open (`shape_walk`).  While one of these is a loop
header nothing is known of any variable, whatever the frames have recorded (`lookup_of_masked`), so that
an instruction inside a header is folded only where all it reads are literals.
-/

namespace Datapack.Optimize.Folding

open Ir ScopeTree Revision

/-- What becomes of an instruction where nothing is known of variables. -/
inductive Verbatim (ins : Instruction) : Option Instruction → Prop
  | kept : Verbatim ins (some ins)
  | evaluated {l : Literal} (hreads : ∀ i ∈ ins.readSlots, ∃ k, ins.refAt i = some (.literal k))
      (hl : evaluate ins = some l) :
      Verbatim ins (some ((Instruction.assign (ins.refAt 0) (some (.literal l))).located ins.loc))
  | selected {l : Literal} {truth : Bool} (hop : ins.op = .condJump)
      (hcondition : ins.condition = some (.literal l)) (htruth : l.truthy? = some truth)
      (hname : taken ins truth ≠ "") :
      Verbatim ins (some ((Instruction.jump (taken ins truth)).located ins.loc))
  | skipped {l : Literal} {truth : Bool} (hop : ins.op = .condJump)
      (hcondition : ins.condition = some (.literal l)) (htruth : l.truthy? = some truth)
      (hname : taken ins truth = "") : Verbatim ins none

variable {e : Surroundings} {st st' : State} {ins : Instruction}

/-! ## Open regions -/

/-- The number of regions opened so far, and the open ones with their kinds. -/
def State.shape (st : State) : Nat × List (Nat × ScopeKind) :=
  (st.opened, st.frames.map fun f => (f.node, f.kind))

/-- The same at a position in a stream. -/
def shapeAt (t : ScopeTree) (p : Ir.Position) : Nat × List (Nat × ScopeKind) :=
  (p.opened, p.stack.map fun n => (n, (t.node n).kind))

theorem Noted.shape (h : Noted st st') : st'.shape = st.shape := by
  rw [State.shape, State.shape, h.opened, h.frames]

section Shape

variable (st : State)

theorem shape_storeAll (vs : List Variable) (x : Variable → Value) : (st.storeAll vs x).shape = st.shape := by
  simp [State.shape, State.frames]

theorem shape_write (r : Option Reference) (x : Value) : (st.write r x).shape = st.shape := by
  unfold State.write
  split
  · exact (noted_noteConstant st r).shape
  · rfl

theorem shape_declare (r : Option Reference) : (st.declare r).shape = st.shape := by
  unfold State.declare
  split
  · exact (noted_noteConstant st r).shape
  · rfl

theorem shape_commit (n : Option Nat) : (st.commit n).shape = st.shape := by
  unfold State.commit
  split
  · exact shape_storeAll st _ _
  · rfl

theorem shape_merge (onTrue onFalse : Option Nat) : (st.merge onTrue onFalse).shape = st.shape := by
  unfold State.merge
  dsimp only
  split
  · rfl
  · exact shape_storeAll st _ _

theorem shape_clobber (t : ScopeTree) (bodies : List (Nat × Option Function)) (callee : Option Function) :
    (st.clobber t bodies callee).shape = st.shape := by
  unfold State.clobber
  dsimp only
  split
  · exact shape_storeAll st _ _
  · split
    · exact shape_storeAll st _ _
    · exact shape_storeAll st _ _

theorem shape_enter (node : Nat) (kind : ScopeKind) :
    (st.enter node kind).shape = (st.opened + 1, (node, kind) :: st.shape.2) := by
  unfold State.enter
  dsimp only
  split
  · split
    · rfl
    · rfl
  · rfl

theorem shape_leave (h : st.outer ≠ []) : st.leave.shape = (st.opened, st.shape.2.tail) := by
  unfold State.leave
  split
  · contradiction
  · next next outer houter =>
      dsimp only
      split
      · simp [State.shape, State.frames, houter]
      · rw [shape_storeAll]
        simp [State.shape, State.frames, houter]

end Shape

/-- Only delimiters open and close regions. -/
theorem shape_step (e : Surroundings) (st : State) (hb : ins.op ≠ .scopeBegin) (he : ins.op ≠ .scopeEnd) :
    (step e st ins).1.shape = st.shape := by
  have hsubstitute := (noted_substitute st ins).shape
  cases hop : ins.op with
  | scopeBegin => contradiction
  | scopeEnd => contradiction
  | declare =>
      simp only [step, hop]
      exact shape_declare st _
  | jump =>
      simp only [step, hop]
      exact shape_commit st _
  | condJump =>
      cases htruth : verdict st ins with
      | none =>
          rw [step_open e hop htruth]
          exact (shape_merge _ _ _).trans hsubstitute
      | some truth =>
          rw [step_decided e hop htruth]
          exact (shape_commit _ _).trans hsubstitute
  | call | callMethod =>
      simp only [step, hop]
      rw [shape_write, shape_clobber, hsubstitute]
  | assign =>
      simp only [step, hop]
      rw [shape_write, hsubstitute]
  | binaryOp | compare | unaryOp | cast =>
      simp only [step, hop, foldOperation]
      split
      · rw [shape_write, hsubstitute]
      · rw [shape_write, hsubstitute]
  | newObject | getProperty =>
      simp only [step, hop]
      exact shape_write st _ _
  | ret | setProperty => simpa only [step, hop] using hsubstitute
  | _ => simp only [step, hop]

/-- The frames of a walk are those of the regions that are open. -/
theorem shape_walk {s : Stream} {t : ScopeTree} (ht : ofStream s = .ok t)
    (bodies : List (Nat × Option Function)) {pre post : Stream} (hs : s = pre ++ post) :
    (walk ⟨t, bodies⟩ .initial pre).shape = shapeAt t (Ir.Position.start.after pre) := by
  induction pre using List.reverseRecOn generalizing post with
  | nil =>
      have hkind : (t.node root).kind = .global := congrArg (·.2.1) (sig_root ht)
      rw [Ir.Position.after_nil, shapeAt, Ir.Position.start, List.map_singleton, hkind]
      rfl
  | append_singleton pre ins ih =>
      rw [List.append_assoc, List.singleton_append] at hs
      have hshape := ih hs
      rw [walk_append, Ir.Position.after_append]
      show (step _ (walk _ _ pre) ins).1.shape = shapeAt t ((Ir.Position.start.after pre).advance ins)
      generalize walk ⟨t, bodies⟩ .initial pre = st at hshape ⊢
      have hopened : st.opened = (Ir.Position.start.after pre).opened := congrArg Prod.fst hshape
      rcases ins.delimiter_cases with hop | hop | ⟨hb, he⟩
      · simp only [step, hop]
        rw [shape_enter, hshape, hopened, Ir.Position.advance_begin _ hop]
        rfl
      · have hcloses := (ofStream_isOk_iff s).1 ⟨t, ht⟩
        rw [hs] at hcloses
        obtain ⟨names, hnames, hdepth⟩ := @closes_after [] Ir.Position.start pre _ hcloses rfl
        have houter : st.outer ≠ [] := by
          intro houter
          have hlength := congrArg (·.2.length) hshape
          cases names with
          | nil =>
              rw [closes_end_nil hop] at hnames
              exact Bool.noConfusion hnames
          | cons name names => simp [State.shape, shapeAt, State.frames, houter, hdepth] at hlength
        simp only [step, hop]
        rw [shape_leave st houter, hshape, hopened, Ir.Position.advance_end _ hop, shapeAt, shapeAt,
          List.map_tail]
      · rw [shape_step _ _ hb he, hshape, Ir.Position.advance_other _ hb he]

/-! ## Where nothing is known -/

/-- A loop header is open. -/
def Masked (st : State) : Prop := ∃ f ∈ st.frames, f.kind = .loopCheck

theorem Noted.masked (h : Noted st st') (hmasked : Masked st) : Masked st' := by
  rwa [Masked, h.frames]

theorem lookup_of_masked (h : Masked st) (v : Variable) : st.lookup v = some .unknown := by
  obtain ⟨f, hf, hkind⟩ := h
  rw [State.lookup, if_pos (List.any_eq_true.2 ⟨f, hf, by simp [hkind]⟩)]

theorem read_of_masked (h : Masked st) (r : Option Reference) : (st.read r).2 = none := by
  unfold State.read
  split
  · split
    · dsimp only
      rw [lookup_of_masked ((noted_noteConstant st r).masked h)]
      rfl
    · rfl
  · rfl

theorem substituteSlots_of_masked (slots : List Nat) (h : Masked st) (ins : Instruction) (changed : Bool) :
    (slots.foldl substituteSlot (st, ins, changed)).2 = (ins, changed) := by
  induction slots generalizing st with
  | nil => rfl
  | cons i slots ih =>
      rw [List.foldl_cons, substituteSlot_eq, read_of_masked h]
      exact ih ((noted_read st _).masked h)

theorem substituteArgs_of_masked (h : Masked st) (args : List Argument) :
    (substituteArgs st args).2 = (args, false) := by
  induction args generalizing st with
  | nil => rfl
  | cons a args ih =>
      have hrest := ih ((noted_read st a.value).masked h)
      unfold substituteArgs
      simp only [read_of_masked h, hrest]

/-- No variable is replaced while a loop header is open. -/
theorem substitute_of_masked (h : Masked st) (ins : Instruction) : (substitute st ins).2 = (ins, false) := by
  cases hcall : ins.isCall with
  | false =>
      rw [substitute_of_not_isCall st hcall]
      exact substituteSlots_of_masked _ h ins false
  | true =>
      rw [substitute_of_isCall st hcall, substituteArgs_of_masked h]
      rfl

theorem literals_of_evaluate {l : Literal} (h : evaluate ins = some l) :
    ∀ i ∈ ins.readSlots, ∃ k, ins.refAt i = some (.literal k) := by
  unfold evaluate at h
  split at h
  · next hop =>
      obtain ⟨x, hx, h⟩ := Option.bind_eq_some_iff.1 h
      obtain ⟨y, hy, h⟩ := Option.bind_eq_some_iff.1 h
      simp [Instruction.readSlots, hop, eq_of_literalOf hx, eq_of_literalOf hy]
  · next hop =>
      obtain ⟨x, hx, h⟩ := Option.bind_eq_some_iff.1 h
      obtain ⟨y, hy, h⟩ := Option.bind_eq_some_iff.1 h
      simp [Instruction.readSlots, hop, eq_of_literalOf hx, eq_of_literalOf hy]
  · next hop =>
      obtain ⟨x, hx, h⟩ := Option.bind_eq_some_iff.1 h
      simp [Instruction.readSlots, hop, eq_of_literalOf hx]
  · next hop =>
      obtain ⟨x, hx, h⟩ := Option.bind_eq_some_iff.1 h
      simp [Instruction.readSlots, hop, eq_of_literalOf hx]
  · contradiction

theorem verbatim_step (e : Surroundings) (h : Masked st) (ins : Instruction) :
    Verbatim ins ((step e st ins).2.emitted ins).head? := by
  have hsame : (substitute st ins).2.1 = ins := congrArg Prod.fst (substitute_of_masked h ins)
  by_cases hop : ins.op = .condJump
  · rcases emitted_condJump e st hop with ⟨-, hemitted⟩ | ⟨truth, htruth, hemitted⟩
    · rw [hemitted, hsame]
      exact .kept
    · rw [verdict, hsame] at htruth
      obtain ⟨l, hl, htruth⟩ := Option.bind_eq_some_iff.1 htruth
      rw [hemitted]
      split
      · next hname => exact .skipped hop (eq_of_literalOf hl) htruth hname
      · next hname => exact .selected hop (eq_of_literalOf hl) htruth hname
  · rcases emitted_plain e st hop with ⟨-, hemitted⟩ | ⟨l, hl, hemitted⟩
    · rw [hemitted, hsame]
      exact .kept
    · rw [hsame] at hl
      rw [hemitted]
      exact .evaluated (literals_of_evaluate hl) hl

/-- Where a walk stands inside a loop header, the frame of the header is open. -/
theorem masked_walk {s pre post : Stream} {t : ScopeTree} {n : Nat} (ht : ofStream s = .ok t)
    (bodies : List (Nat × Option Function)) (hs : s = pre ++ ins :: post) (hplain : isDelimiter ins = false)
    (hn : n ∈ t.inner) (hkind : (t.node n).kind = .loopCheck)
    (hcontains : (t.node n).contains pre.length = true) : Masked (walk ⟨t, bodies⟩ .initial pre) := by
  have hget : s[pre.length]? = some ins := by simp [hs]
  have hopen := (mem_ancestors_iff_contains ht (mem_inner hn).2 hget hplain).2 hcontains
  rw [nodeAt_length ht hs, Ir.Position.owner_plain _ hplain, ancestors_top ht hs hplain] at hopen
  have hmem : (n, ScopeKind.loopCheck) ∈ (walk ⟨t, bodies⟩ .initial pre).shape.2 := by
    rw [shape_walk ht bodies hs]
    exact List.mem_map.2 ⟨n, hopen, by rw [hkind]⟩
  obtain ⟨f, hf, hpair⟩ := List.mem_map.1 hmem
  exact ⟨f, hf, congrArg Prod.snd hpair⟩

/-- Inside a loop header, at any depth, folding replaces no variable, and it folds only instructions all
of whose operands are literals. -/
theorem run_spares_headers {s : Stream} (hs : s.balanced = true) :
    ∃ t out, ofStream s = .ok t ∧ run s = .ok out ∧
      before (revision ⟨t, functionScopes s t⟩ .initial s) = s ∧
      after (revision ⟨t, functionScopes s t⟩ .initial s) = out.code ∧
      ∀ a ins o b, revision ⟨t, functionScopes s t⟩ .initial s = a ++ (ins, o) :: b →
        ∀ n ∈ t.inner, (t.node n).kind = .loopCheck → (t.node n).contains a.length = true →
          Verbatim ins o := by
  obtain ⟨t, ht⟩ := exists_tree hs
  refine ⟨t, _, ht, withTree_eq ht _, before_revision _ _ s, after_revision _ _ s, ?_⟩
  intro a ins o b hw n hn hkind hcontains
  obtain ⟨hsplit, rfl⟩ := revision_split hw
  cases hdelimiter : isDelimiter ins with
  | true =>
      rw [isDelimiter, Bool.or_eq_true, decide_eq_true_eq, decide_eq_true_eq] at hdelimiter
      rw [step_keep _ ins _ (hdelimiter.imp_right .inl)]
      exact .kept
  | false =>
      refine verbatim_step _ (masked_walk ht _ hsplit hdelimiter hn hkind ?_) ins
      rwa [before, List.length_map]

/-- A loop whose header compares a variable with a known value, in a block inside it. -/
def checkedLoop : Stream :=
  let x := some (Reference.var { id := "x", name := "x", type := .data .int })
  let c := some (Reference.var { id := "c", name := "c", type := .data .boolean })
  [.assign x (some (.literal (.int 0))), .scopeBegin "l" .loop, .scopeBegin "check" .loopCheck,
    .scopeBegin "b" .block, .compare c .lt x (some (.literal (.int 4))), .scopeEnd "b" .block, .jump "b",
    .binaryOp x .add (some (.literal (.int 1))) (some (.literal (.int 2))),
    .condJump c "" "", .scopeEnd "check" .loopCheck, .scopeEnd "l" .loop, .jump "l"]

theorem run_spares_headers_checkedLoop :
    checkedLoop.balanced = true ∧
      ∃ t out, ofStream checkedLoop = .ok t ∧ run checkedLoop = .ok out ∧
        before (revision ⟨t, functionScopes checkedLoop t⟩ .initial checkedLoop) = checkedLoop ∧
        after (revision ⟨t, functionScopes checkedLoop t⟩ .initial checkedLoop) = out.code ∧
        ∀ a ins o b, revision ⟨t, functionScopes checkedLoop t⟩ .initial checkedLoop = a ++ (ins, o) :: b →
          ∀ n ∈ t.inner, (t.node n).kind = .loopCheck → (t.node n).contains a.length = true →
            Verbatim ins o :=
  ⟨by decide, run_spares_headers (by decide)⟩

end Datapack.Optimize.Folding
