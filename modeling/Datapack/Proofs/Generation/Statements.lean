import Datapack.Proofs.Generation.Checks

/-!
# Single instructions

What the generator makes of the instructions of a structured body, one by one: data statements, exits,
calls of closed regions and jumps back to open ones.
-/

namespace Datapack.Generation

open Ir Ir.Structured Command

variable {W : Plan} {f : Frame} {n : Nat} {g : Generation}

/-! ## Data statements -/

def Plan.operand (W : Plan) : Term → Command.Operand
  | .var v => .slot (W.target.slot v)
  | .lit n => .literal (.int n)

def Plan.lowered (W : Plan) (env : Registers) : Data → Lowered
  | .assign v x => assign (W.target.slot v) (W.operand x)
  | .add v l r => binaryOp env (W.target.slot v) .add (W.operand l) (W.operand r)
  | .sub v l r => binaryOp env (W.target.slot v) .sub (W.operand l) (W.operand r)
  | .compare v op l r => compare env (W.target.slot v) op (W.operand l) (W.operand r)

theorem operand_reads {S : Scores} {σ : Values} (h : W.target.Holds S σ) {x : Term}
    (hx : x.fits W.vars = true) : (W.operand x).Reads S (x.value σ) := by
  cases x with
  | var v => exact ⟨rfl, h v (by simpa [Term.fits] using hx)⟩
  | lit n => exact ⟨rfl, hx⟩

theorem operand_ne_scratch (W : Plan) (x : Term) : W.operand x ≠ .slot W.target.scratch := by
  cases x with
  | var v =>
      intro h
      exact W.target.slot_ne_scratch v (Command.Operand.slot.inj h)
  | lit n => exact nofun

theorem lowered_writes {env : Registers} (henv : env.scratch = W.target.scratch) {d : Data}
    (hd : d.fits W.vars = true) (fns : String → Option (List Command)) {S : Scores} {σ : Values}
    (h : W.target.Holds S σ) :
    ∃ cs, W.lowered env d = .ok cs ∧
      Writes fns cs S (W.target.slot d.dst) W.target.scratch (d.result σ) := by
  have hne : env.scratch ≠ W.target.slot d.dst := by
    rw [henv]
    exact (W.target.slot_ne_scratch _).symm
  have hspace : env.scratch.space = .score := by
    rw [henv]
    rfl
  cases d with
  | assign v x =>
      simp only [Data.fits, Bool.and_eq_true] at hd
      exact assign_writes fns rfl (operand_reads h hd.2).holds
  | add v l r =>
      simp only [Data.fits, Bool.and_eq_true] at hd
      rw [← henv]
      exact sum_writes fns (.inl rfl) rfl rfl hspace hne (henv ▸ operand_ne_scratch W l)
        (operand_reads h hd.1.2).holds (operand_reads h hd.2).holds
  | sub v l r =>
      simp only [Data.fits, Bool.and_eq_true] at hd
      rw [← henv]
      exact sum_writes fns (.inr rfl) rfl rfl hspace hne (henv ▸ operand_ne_scratch W l)
        (operand_reads h hd.1.2).holds (operand_reads h hd.2).holds
  | compare v op l r =>
      simp only [Data.fits, Bool.and_eq_true, decide_eq_true_eq] at hd
      exact compare_writes fns hd.2 rfl (operand_reads h hd.1.1.2) (operand_reads h hd.1.2)

theorem dst_mem {d : Data} {vars : List Variable} (h : d.fits vars = true) : d.dst ∈ vars := by
  cases d <;> simp_all [Data.fits, Data.dst]

/-- The commands of a data statement carry it out. -/
theorem lowered_computes {env : Registers} (henv : env.scratch = W.target.scratch) {d : Data}
    (hd : d.fits W.vars = true) : ∃ cs, W.lowered env d = .ok cs ∧ W.target.Computes cs [d] := by
  -- Which commands these are does not depend on the scores.
  obtain ⟨cs, hcs, -⟩ := @lowered_writes W env henv d hd (fun _ => none) (fun _ => some 0)
    (fun _ => 0) (fun _ _ => rfl)
  refine ⟨cs, hcs, ?_⟩
  intro fns S σ hholds
  obtain ⟨cs', hcs', T, hsteps, hdst, hrest⟩ := lowered_writes henv hd fns hholds
  rw [hcs, Except.ok.injEq] at hcs'
  subst hcs'
  refine ⟨T, hsteps, ?_, fun s hs hscratch => hrest s (hs _) hscratch⟩
  intro v hv
  simp only [execAll, List.foldl_cons, List.foldl_nil, Data.exec]
  by_cases hvd : v = d.dst
  · rw [if_pos hvd, hvd]
    exact hdst
  · rw [if_neg hvd, hrest _ ?_ (W.target.slot_ne_scratch v)]
    · exact hholds v hv
    · intro heq
      exact hvd (W.target.slot_inj v hv _ (dst_mem hd) heq)

theorem yields_operand (hready : Ready W f g) (hshape : W.Shape f) {x : Term}
    (hx : x.fits W.vars = true) : Yields (Generation.operand x.ref) g (W.operand x) g := by
  cases x with
  | lit n => exact .pure _
  | var v =>
      have hv : v ∈ W.vars := by simpa [Term.fits] using hx
      have hslot := hready.slot hshape hv
      rw [Plan.operand, ← hslot]
      exact .bind .get (.pure _)

theorem yields_destination (hready : Ready W f g) (hshape : W.Shape f) {v : Variable}
    (hv : v ∈ W.vars) : Yields (destination (some (.var v))) g (W.target.slot v) g := by
  rw [← hready.slot hshape hv]
  exact .bind .get (.pure _)

theorem type_ne_string {v : Variable} (hv : v ∈ W.vars) : v.type ≠ .data .string := by
  intro h
  have hspace := W.integral v hv
  rw [h] at hspace
  exact absurd hspace (by decide)

/-- The processor of a data statement emits its commands. -/
theorem processes_data (hready : Ready W f g) (hshape : W.Shape f) (hpristine : Pristine n g)
    (hle : f.current ≤ n) {d : Data} (hd : d.fits W.vars = true) (i : Nat) :
    ∃ g' cs, Processes i g [d.ins] g' ∧ Advances W f n n g g' cs ∧ W.target.Computes cs [d] := by
  have hready' := hready.index i
  have henv : (Layout.registers { g with index := i }).scratch = W.target.scratch := by
    have hns := hready'.ns
    simp only [Layout.registers, hns]
    rfl
  obtain ⟨cs, hcs, hcomputes⟩ := lowered_computes henv hd
  refine ⟨_, cs, ?_, (advances_emit hready' hshape hpristine hle cs).of_index, hcomputes⟩
  have hdst := yields_destination hready' hshape (dst_mem hd)
  cases d with
  | assign v x =>
      simp only [Data.fits, Bool.and_eq_true] at hd
      refine .single (p := assignment) rfl ?_
      exact .bind hdst (.bind (yields_operand hready' hshape hd.2) (.emitLowered hcs))
  | add v l r =>
      have htype : typeOf ((Data.add v l r).ins.refAt 0) ≠ .data .string := type_ne_string (dst_mem hd)
      simp only [Data.fits, Bool.and_eq_true] at hd
      refine .single (p := binary) rfl ?_
      refine .bind hdst (.bind (yields_operand hready' hshape hd.1.2)
        (.bind (yields_operand hready' hshape hd.2) ?_))
      rw [if_neg (by simp [htype])]
      exact .bind .get (.emitLowered hcs)
  | sub v l r =>
      have htype : typeOf ((Data.sub v l r).ins.refAt 0) ≠ .data .string := type_ne_string (dst_mem hd)
      simp only [Data.fits, Bool.and_eq_true] at hd
      refine .single (p := binary) rfl ?_
      refine .bind hdst (.bind (yields_operand hready' hshape hd.1.2)
        (.bind (yields_operand hready' hshape hd.2) ?_))
      rw [if_neg (by simp [htype])]
      exact .bind .get (.emitLowered hcs)
  | compare v op l r =>
      simp only [Data.fits, Bool.and_eq_true] at hd
      refine .single (p := comparison) rfl ?_
      refine .bind hdst (.bind (yields_operand hready' hshape hd.1.1.2)
        (.bind (yields_operand hready' hshape hd.1.2) (.bind .get (.emitLowered hcs))))

/-! ## Names -/

/-- Where names are distinct, every name leads to its region. -/
theorem resolve_name (htree : g.tree = W.tree) {m : Nat} (hm : m ≠ 0) (hlt : m < W.base.length) :
    g.resolve (W.base.at? m).name = some m := by
  have hname := (W.node m hm hlt).1
  have hne : (W.tree.node m).name ≠ "" := by
    rw [← hname]
    exact isIdentifier_ne_empty (W.named hm hlt).identifier
  have hunique : ∀ k, k ≠ 0 → (W.tree.node k).name = (W.tree.node m).name → k = m :=
    fun k hk hkm => ScopeTree.eq_of_name_eq W.tree_eq W.nodup hk hm hne hkm
  unfold Generation.resolve
  rw [htree, hname]
  cases hresolve : W.tree.resolve (W.tree.nodeAt g.index) (W.tree.node m).name with
  | some k =>
      obtain ⟨hk, hkm⟩ := ScopeTree.name_of_resolve W.tree_eq hresolve
      rw [hunique k hk hkm]
  | none =>
      have hfilter : (W.tree.inner.filter fun k => (W.tree.node k).name = (W.tree.node m).name) = [m] := by
        have hinner : W.tree.inner = List.range' 1 (W.tree.nodes.length - 1) := by
          rw [ScopeTree.inner, List.range_eq_range', List.tail_range']
        have hmem : m ∈ W.tree.inner := by
          rw [hinner, List.mem_range'_1]
          have := W.length_eq
          omega
        have hcongr : ∀ k ∈ W.tree.inner,
            decide ((W.tree.node k).name = (W.tree.node m).name) = (k == m) := by
          intro k hk
          rw [hinner, List.mem_range'_1] at hk
          by_cases hkm : k = m
          · simp [hkm]
          · have : (W.tree.node k).name ≠ (W.tree.node m).name :=
              fun h => hkm (hunique k (by omega) h)
            simp [hkm, this]
        have hnodup : W.tree.inner.Nodup := by
          rw [hinner]
          exact List.nodup_range'
        rw [List.filter_congr hcongr, List.filter_beq, hnodup.count, if_pos hmem]
        rfl
      simp only [hfilter]

/-- Whether a name is that of a region. -/
structure Plan.IsRegion (W : Plan) (x : String) : Prop where
  lt : W.place x < W.base.length
  name : (W.base.at? (W.place x)).name = x

theorem resolve_place (htree : g.tree = W.tree) {x : String} (hx : W.IsRegion x) :
    g.resolve x = some (W.place x) := by
  have h := resolve_name htree (m := W.place x) (by simp [Plan.place]) hx.lt
  rwa [hx.name] at h

theorem yields_regionNamed (hready : Ready W f g) {x : String} (hx : W.IsRegion x) :
    Yields (regionNamed x) g (W.place x) g :=
  .bind .get (.orFail (resolve_place hready.tree hx))

/-! ## Exits -/

def exitIns : Escape → Instruction
  | .leave l => .breakLoop l
  | .next l => .continueLoop l
  | .ret => .ret none

/-- Whether an exit leads to an open loop or out of the function. -/
def Frame.reaches (f : Frame) : Escape → Prop
  | .leave l | .next l => l ∈ f.loops
  | .ret => True

theorem valid_of_reaches (hshape : W.Shape f) {e : Escape} (h : f.reaches e) : W.valid e := by
  cases e with
  | leave l => exact (hshape.isLoop h).1
  | next l => exact (hshape.isLoop h).1
  | ret => trivial

theorem yields_loopOf (hready : Ready W f g) {l : String} (hl : W.IsLoop l) :
    Yields (loopOf l) g (W.place l) g := by
  have hlt : W.place l < W.base.length := Nat.lt_of_le_of_lt (Nat.le_add_right _ 2) hl.lt
  have hne : l ≠ "" := by
    rw [← hl.name]
    exact isIdentifier_ne_empty (W.named (by simp [Plan.place]) hlt).identifier
  have hkind : (g.regions.at? (W.place l)).kind = .loop := (hready.kind _).trans hl.loop
  unfold loopOf
  refine .bind .get ?_
  simp only [if_neg hne, resolve_place hready.tree ⟨hlt, hl.name⟩, Option.filter_some, hkind, decide_true,
    if_true]
  exact .pure _

theorem exitCode_other (W : Plan) {e : Escape} {resets : Bool} (h : (f.role resets).consumes e = false) :
    W.target.exitCode (f.role resets) e = [.setScore (W.target.flag e) 1, .ret 0] := by
  unfold Target.exitCode
  rw [if_neg (by simp [h])]

theorem consumes_role {e : Escape} {resets : Bool} (h : (f.role resets).consumes e = true) :
    f.end? = some e := by
  cases f <;> cases e <;> simp_all [Frame.role, Role.consumes, Frame.end?]

/-- Outside the regions of loops, an exit that ends in the innermost region is one of its role. -/
theorem role_consumes {e : Escape} (resets : Bool) (h : f.end? = some e)
    (hloop : ∀ l m up, f ≠ .loop l m up) : (f.role resets).consumes e = true := by
  cases f with
  | loop l m up => exact absurd rfl (hloop l m up)
  | function =>
      obtain rfl := Option.some.inj h
      rfl
  | body l m up =>
      obtain rfl := Option.some.inj h
      simp [Frame.role, Role.consumes]
  | side m up => exact absurd h (by simp [Frame.end?])
  | check l m up => exact absurd h (by simp [Frame.end?])

theorem takeWhile_of_end (hshape : W.Shape f) {e : Escape} (h : f.end? = some e) :
    f.stack.takeWhile (· ≠ (W.exit e).consumer) = [] := by
  rw [f.stack_eq, (hshape.of_end? h).2]
  simp

theorem bodyOfLoop?_eq (hready : Ready W f g) (hshape : W.Shape f) {l : String} (hl : l ∈ f.loops) :
    bodyOfLoop? g (W.place l) = some (W.place l + 2) := by
  have hbody := hshape.bodyOfLoop hl
  unfold bodyOfLoop?
  rw [hready.ancestors hshape, ← hbody]
  congr 1
  funext n
  have henclosing : (fun p => g.regions.enclosing p [.loop]) = fun p => W.base.enclosing p [.loop] := by
    funext p
    exact hready.enclosing p _
  rw [hready.kind, hready.parent?, henclosing]

theorem enclosing_function (hready : Ready W f g) (hshape : W.Shape f) :
    g.regions.enclosing g.current [.function] = some 1 := by
  rw [hready.enclosing, hready.current]
  exact hshape.enclosing

/-- The processor of an exit of the function ends it here or raises a flag. -/
theorem yields_ret (hready : Ready W f g) (hshape : W.Shape f) {g' : Generation}
    (hend : g.current = 1 → Yields (Gen.emit [.ret 0]) g () g')
    (hraise : g.current ≠ 1 → Yields (raise .returnFunction (W.flagName .ret) 1) g () g') :
    Yields (Generation.ret (.ret none)) g () g' := by
  unfold Generation.ret
  refine .bind .get ?_
  simp only [enclosing_function hready hshape]
  refine .bind (.pure ()) ?_
  split
  · rename_i hone
    exact hend hone
  · rename_i hone
    rw [hready.absolutePath]
    exact hraise hone

theorem yields_breakLoop (hready : Ready W f g) {l : String} (hl : W.IsLoop l) {g' : Generation}
    (hraise : Yields (raise .breakLoop (W.flagName (.leave l)) (W.place l)) g () g') :
    Yields (Generation.breakLoop (.breakLoop l)) g () g' := by
  unfold Generation.breakLoop
  refine .bind (yields_loopOf hready hl) (.bind .get ?_)
  rw [hready.absolutePath]
  exact hraise

theorem yields_continueLoop (hready : Ready W f g) (hshape : W.Shape f) {l : String} (hl : l ∈ f.loops)
    {g' : Generation}
    (hend : g.current = W.place l + 2 →
      Yields (Gen.emit [.returnRun (.call (W.target.again l))]) g () g')
    (hraise : g.current ≠ W.place l + 2 →
      Yields (raise .continueLoop (W.flagName (.next l)) (W.place l + 2)) g () g') :
    Yields (Generation.continueLoop (.continueLoop l)) g () g' := by
  have hloop := (hshape.isLoop hl).1
  have hparent : g.regions.parent? (W.place l + 2) = some (W.place l + 1) := by
    rw [hready.parent?]
    exact hloop.parent
  unfold Generation.continueLoop
  refine .bind (yields_loopOf hready hloop) (.bind .get ?_)
  refine .bind (.orFail (bodyOfLoop?_eq hready hshape hl)) (.bind (.orFail hparent) ?_)
  split
  · rename_i hbody
    rw [hready.callRegion]
    exact hend hbody
  · rename_i hbody
    rw [hready.absolutePath]
    exact hraise hbody

/-- The processor of an exit emits its commands and marks the regions it leaves. -/
theorem processes_exit (hready : Ready W f g) (hshape : W.Shape f) (hpristine : Pristine n g)
    (hle : f.current ≤ n) (hloop : ∀ l m up, f ≠ .loop l m up) {e : Escape} (he : f.reaches e)
    (resets : Bool) (i : Nat) :
    ∃ g', Processes i g [exitIns e] g' ∧
      Advances W f n n g g' (W.target.exitCode (f.role resets) e) ∧
      ∀ m ∈ f.stack.takeWhile (· ≠ (W.exit e).consumer), W.flagName e ∈ g'.flagsAt m := by
  have hready' := hready.index i
  have hvalid := valid_of_reaches hshape he
  have hcurrent : g.current = (W.exit e).consumer ↔ f.end? = some e := by
    rw [hready.current, eq_comm]
    exact hshape.consumer_iff hvalid
  by_cases hend : f.end? = some e
  · -- The exit ends here, so no flag is raised.
    have hconsumes := role_consumes resets hend hloop
    have hhere := hcurrent.mpr hend
    have hemit := advances_emit hready' hshape hpristine hle (W.target.exitCode (f.role resets) e)
    refine ⟨_, ?_, hemit.of_index, ?_⟩
    · unfold Target.exitCode
      rw [if_pos hconsumes]
      cases e with
      | leave l => cases f <;> simp [Frame.role, Role.consumes] at hconsumes
      | next l =>
          refine .single (p := Generation.continueLoop) rfl ?_
          exact yields_continueLoop hready' hshape he (fun _ => .emit _) (absurd hhere)
      | ret =>
          refine .single (p := Generation.ret) rfl ?_
          exact yields_ret hready' hshape (fun _ => .emit _) (absurd hhere)
    · rw [takeWhile_of_end hshape hend]
      simp
  · have hconsumes : (f.role resets).consumes e = false := by
      by_contra hc
      exact hend (consumes_role (by simpa using hc))
    have hne : g.current ≠ (W.exit e).consumer := fun h => hend (hcurrent.mp h)
    obtain ⟨g', hraise, hadvances, hmarked⟩ := yields_raise hready' hshape hpristine hle hvalid
    rw [exitCode_other W hconsumes]
    refine ⟨g', ?_, hadvances.of_index, hmarked⟩
    cases e with
    | leave l =>
        refine .single (p := Generation.breakLoop) rfl ?_
        exact yields_breakLoop hready' hvalid hraise
    | next l =>
        refine .single (p := Generation.continueLoop) rfl ?_
        exact yields_continueLoop hready' hshape he (fun h => absurd h hne) (fun _ => hraise)
    | ret =>
        refine .single (p := Generation.ret) rfl ?_
        exact yields_ret hready' hshape (fun h => absurd h hne) (fun _ => hraise)

/-! ## Calls -/

/-- The tests behind calls of regions cover every exit by which the calls may end. -/
structure Answers (W : Plan) (f : Frame) (g g' : Generation) (callees : List Nat)
    (flags : List Escape) : Prop where
  valid : ∀ e ∈ flags, W.valid e
  settled : ∀ e ∈ flags, f.Settled e g'
  complete : ∀ m ∈ callees, ∀ e, W.valid e → W.flagName e ∈ g.flagsAt m → e ∈ flags

/-- The tests behind the call of a region. -/
theorem yields_answer (hready : Ready W f g) (hshape : W.Shape f) (hpristine : Pristine n g)
    (hbelow : ∀ m ∈ f.stack, m ≤ n) (callee : Nat) :
    ∃ flags g', Yields (do Gen.emit (← afterCall callee)) g () g' ∧
      Advances W f n n g g' (flags.map (f.answer W)) ∧ Answers W f g g' [callee] flags := by
  obtain ⟨flags, g₁, hcall, hadvances, hflags, hcomplete⟩ :=
    yields_afterCall hready hshape hpristine hbelow callee
  have hemit := advances_emit hadvances.ready hshape hadvances.pristine (hbelow _ f.current_mem)
    (flags.map (f.answer W))
  refine ⟨flags, _, .bind hcall (.emit _), hadvances.trans hemit (Nat.le_refl n),
    fun e he => (hflags e he).1, fun e he => (hflags e he).2.mono hemit.grown.resets, ?_⟩
  intro m hm e he hmem
  rw [List.mem_singleton.mp hm] at hmem
  exact hcomplete e he hmem

/-- The tests behind calls of several regions. -/
theorem yields_answers (hready : Ready W f g) (hshape : W.Shape f) (hpristine : Pristine n g)
    (hbelow : ∀ m ∈ f.stack, m ≤ n) (callees : List Nat) :
    ∃ flags g', Yields (callees.forM fun m => do Gen.emit (← afterCall m)) g () g' ∧
      Advances W f n n g g' (flags.map (f.answer W)) ∧ Answers W f g g' callees flags := by
  induction callees generalizing g with
  | nil => exact ⟨[], g, .pure (), .refl hready hpristine, by simp, by simp, by simp⟩
  | cons m callees ih =>
      obtain ⟨flags₁, g₁, hfirst, hadvances₁, hanswers₁⟩ :=
        yields_answer hready hshape hpristine hbelow m
      obtain ⟨flags₂, g₂, hrest, hadvances₂, hanswers₂⟩ := ih hadvances₁.ready hadvances₁.pristine
      refine ⟨flags₁ ++ flags₂, g₂, ?_, ?_, ?_, ?_, ?_⟩
      · exact .bind hfirst hrest
      · rw [List.map_append]
        exact hadvances₁.trans hadvances₂ (Nat.le_refl n)
      · intro e he
        rcases List.mem_append.mp he with he | he
        · exact hanswers₁.valid e he
        · exact hanswers₂.valid e he
      · intro e he
        rcases List.mem_append.mp he with he | he
        · exact (hanswers₁.settled e he).mono hadvances₂.grown.resets
        · exact hanswers₂.settled e he
      · intro k hk e he hmem
        rcases List.mem_cons.mp hk with rfl | hk
        · exact List.mem_append_left _ (hanswers₁.complete k (by simp) e he hmem)
        · have hmarked := hadvances₁.grown.marks k _ hmem
          exact List.mem_append_right _ (hanswers₂.complete k hk e he hmarked)

/-- A jump to an open region calls it in tail position; any other jump is a call with its tests. -/
theorem yields_jumpTo (hready : Ready W f g) (hshape : W.Shape f) {x : String} (hx : W.IsRegion x)
    {g' : Generation}
    (hopen : W.place x ∈ f.stack → Yields (Gen.emit [.returnRun (.call (W.target.ref x))]) g () g')
    (hclosed : W.place x ∉ f.stack → Yields (do
      Gen.emit [.call (W.target.ref x)]
      Gen.emit (← afterCall (W.place x))) g () g') :
    Yields (jumpTo x) g () g' := by
  have hanc : Regions.isAncestor g.regions (W.place x) g.current = decide (W.place x ∈ f.stack) := by
    rw [Regions.isAncestor, hready.ancestors hshape, List.contains_eq_mem]
  unfold jumpTo
  refine .bind (yields_regionNamed hready hx) (.bind .get ?_)
  simp only [hanc, hready.callRegion]
  split
  · rename_i hmem
    exact hopen (of_decide_eq_true hmem)
  · rename_i hmem
    exact hclosed (by simpa using hmem)

theorem processes_call (hready : Ready W f g) (hshape : W.Shape f) (hpristine : Pristine n g)
    (hbelow : ∀ m ∈ f.stack, m ≤ n) {x : String} (hx : W.IsRegion x) (hclosed : W.place x ∉ f.stack)
    (i : Nat) :
    ∃ flags g', Processes i g [.jump x] g' ∧
      Advances W f n n g g' (.call (W.target.ref x) :: flags.map (f.answer W)) ∧
      Answers W f g g' [W.place x] flags := by
  have hready' := hready.index i
  have hcall := advances_emit hready' hshape hpristine (hbelow _ f.current_mem)
    [.call (W.target.ref x)]
  obtain ⟨flags, g', htests, hadvances, hanswers⟩ :=
    yields_answer hcall.ready hshape hcall.pristine hbelow (W.place x)
  refine ⟨flags, g', ?_, (hcall.trans hadvances (Nat.le_refl n)).of_index, hanswers.valid,
    hanswers.settled, ?_⟩
  · refine .single (p := Generation.jump) rfl ?_
    exact yields_jumpTo hready' hshape hx (fun h => absurd h hclosed)
      (fun _ => .bind (.emit _) htests)
  · intro m hm e he hmem
    exact hanswers.complete m hm e he (hcall.grown.marks m _ hmem)

theorem processes_back (hready : Ready W f g) (hshape : W.Shape f) (hpristine : Pristine n g)
    (hle : f.current ≤ n) {x : String} (hx : W.IsRegion x) (hopen : W.place x ∈ f.stack) (i : Nat) :
    ∃ g', Processes i g [.jump x] g' ∧
      Advances W f n n g g' [.returnRun (.call (W.target.ref x))] := by
  have hready' := hready.index i
  refine ⟨_, ?_, (advances_emit hready' hshape hpristine hle _).of_index⟩
  refine .single (p := Generation.jump) rfl ?_
  exact yields_jumpTo hready' hshape hx (fun _ => .emit _) (fun h => absurd hopen h)

/-! ## Branches -/

def Plan.sidePlace (W : Plan) (x : String) : List Nat := if x = "" then [] else [W.place x]

theorem yields_branchTo (hready : Ready W f g) (hshape : W.Shape f) (hpristine : Pristine n g)
    (hle : f.current ≤ n) (p : Polarity) (s : Slot) {x : String} (hx : x ≠ "" → W.IsRegion x) :
    ∃ g', Yields (branchTo s p x) g (W.sidePlace x) g' ∧
      Advances W f n n g g' (W.target.sideCall p s x) := by
  unfold branchTo Target.sideCall Plan.sidePlace
  by_cases hempty : x = ""
  · simp only [if_pos hempty]
    exact ⟨g, .pure _, .refl hready hpristine⟩
  · simp only [if_neg hempty]
    refine ⟨_, ?_, advances_emit hready hshape hpristine hle _⟩
    refine .bind (yields_regionNamed hready (hx hempty)) (.bind .get ?_)
    rw [hready.callRegion]
    exact .bind (.emit _) (.pure _)

theorem copy_condition (W : Plan) (k : Nat) (c : Variable) :
    copy (W.target.temp k) (W.target.slot c)
      = [.operate (W.target.temp k) .assign (W.target.slot c)] := by
  unfold copy
  rw [if_neg (W.target.slot_ne_temp c k).symm]
  rfl

/-- A condition that is tested twice is saved first. -/
theorem yields_tested (hready : Ready W f g) (hshape : W.Shape f) (hpristine : Pristine n g)
    (hle : f.current ≤ n) (c : Variable) (t u : String) :
    ∃ g', (∀ (next : Slot → Gen Unit) (g'' : Generation),
        Yields (next (W.target.tested (g.fresh + 1) c t u)) g' () g'' →
        Yields (if (W.target.slot c).space ≠ .score || (t ≠ "" && u ≠ "") then do
            let name ← Gen.freshName "$c"
            let here ← get
            Gen.emit (copy (.score name here.ns) (W.target.slot c))
            let flag ← pure (.score name here.ns)
            next flag
          else do
            let flag ← pure (W.target.slot c)
            next flag) g () g'') ∧
      Advances W f n n g g' (W.target.saving (g.fresh + 1) c t u) ∧
      (t ≠ "" ∧ u ≠ "" → g.fresh + 1 ≤ g'.fresh) := by
  have hspace : (W.target.slot c).space = .score := rfl
  unfold Target.tested Target.saving
  by_cases hboth : t ≠ "" ∧ u ≠ ""
  · have hfresh := advances_fresh hready hpristine
    have hemit := advances_emit hfresh.ready hshape hpristine hle
      [.operate (W.target.temp (g.fresh + 1)) .assign (W.target.slot c)]
    have hns : Generation.ns { g with fresh := g.fresh + 1 } = W.ns := hready.ns
    have hsaved : Slot.score ("$c" ++ toString (g.fresh + 1)) W.ns = W.target.temp (g.fresh + 1) := rfl
    simp only [if_pos hboth]
    refine ⟨_, ?_, hfresh.trans hemit (Nat.le_refl n), fun _ => Nat.le_refl _⟩
    intro next g'' hnext
    rw [if_pos (by simp [hboth])]
    refine .bind (.freshName _) (.bind .get ?_)
    rw [hns, hsaved, copy_condition]
    exact .bind (.emit _) (.bind (.pure _) hnext)
  · simp only [if_neg hboth]
    refine ⟨g, ?_, .refl hready hpristine, fun h => absurd h hboth⟩
    intro next g'' hnext
    rw [if_neg (by simpa [hspace] using hboth)]
    exact .bind (.pure _) hnext

/-- The processor of a branch calls the sides and tests what they may leave raised. -/
theorem processes_branch (hready : Ready W f g) (hshape : W.Shape f) (hpristine : Pristine n g)
    (hbelow : ∀ m ∈ f.stack, m ≤ n) {c : Variable} (hc : c ∈ W.vars) {t u : String}
    (ht : t ≠ "" → W.IsRegion t) (hu : u ≠ "" → W.IsRegion u) (i : Nat) :
    ∃ flags g', Processes i g [.condJump (some (.var c)) t u] g' ∧
      Advances W f n n g g' (W.target.saving (g.fresh + 1) c t u
        ++ (W.target.sideCall .fails (W.target.tested (g.fresh + 1) c t u) t
          ++ (W.target.sideCall .holds (W.target.tested (g.fresh + 1) c t u) u
            ++ flags.map (f.answer W)))) ∧
      Answers W f g g' (W.sidePlace t ++ W.sidePlace u) flags ∧
      (t ≠ "" ∧ u ≠ "" → g.fresh + 1 ≤ g'.fresh) := by
  have hready' := hready.index i
  have hle := hbelow _ f.current_mem
  obtain ⟨g₁, htested, hadvances₁, hfresh⟩ := yields_tested hready' hshape hpristine hle c t u
  obtain ⟨g₂, htrue, hadvances₂⟩ := yields_branchTo hadvances₁.ready hshape hadvances₁.pristine hle
    .fails (W.target.tested (g.fresh + 1) c t u) ht
  obtain ⟨g₃, hfalse, hadvances₃⟩ := yields_branchTo hadvances₂.ready hshape hadvances₂.pristine hle
    .holds (W.target.tested (g.fresh + 1) c t u) hu
  obtain ⟨flags, g₄, htests, hadvances₄, hanswers⟩ := yields_answers hadvances₃.ready hshape
    hadvances₃.pristine hbelow (W.sidePlace t ++ W.sidePlace u)
  have hcalls := hadvances₂.trans (hadvances₃.trans hadvances₄ (Nat.le_refl n)) (Nat.le_refl n)
  refine ⟨flags, g₄, ?_, (hadvances₁.trans hcalls (Nat.le_refl n)).of_index, ⟨hanswers.valid,
    hanswers.settled, ?_⟩, ?_⟩
  · refine .single (p := Generation.condJump) rfl ?_
    have hcond : Yields (operand (Instruction.condJump (some (.var c)) t u).condition)
        { g with index := i } (.slot (W.target.slot c)) { g with index := i } :=
      yields_operand hready' hshape (x := .var c) (by simpa [Term.fits] using hc)
    refine .bind hcond ?_
    exact htested _ _ (.bind htrue (.bind hfalse htests))
  · intro m hm e he hmem
    refine hanswers.complete m hm e he ?_
    exact hadvances₃.grown.marks m _ (hadvances₂.grown.marks m _ (hadvances₁.grown.marks m _ hmem))
  · intro hboth
    exact Nat.le_trans (hfresh hboth) hcalls.grown.fresh

end Datapack.Generation
