import Datapack.Proofs.Generation.Edits
import Datapack.Proofs.Generation.Paths

/-!
# References of the generator

Every call that the generator writes is a call of a region to which some instruction leads, or of a
function of the compiler's own that is registered by then.  `Linked` says so of a whole state; it is kept
by everything an instruction does, so that it holds of every generated pack.
-/

namespace Datapack.Generation

open Ir Command

variable {A : Nat → Prop} {g g' : Generation}

/-! ## Control flow -/

/-- The check of a flag calls nothing, or the round that starts again. -/
theorem edits_checkFlag (flag : String) {e : Exit} (h : Restarts A g e) :
    Makes (Edit A) g (checkFlag flag e) fun cs _ => CallOnly (OfRegion A g) cs := by
  have hsilent : ∀ {c : Command}, c.callees = [] → CallOnly (OfRegion A g) [c] := fun h => .silent h .nil
  unfold checkFlag
  refine .get_bind ?_
  extract_lets slot
  by_cases hconsumer : e.consumer ≠ g.current
  · simp only [if_pos hconsumer]
    exact .pure (hsilent rfl)
  · simp only [if_neg hconsumer]
    cases hkind : e.kind with
    | breakLoop => exact .pure (hsilent rfl)
    | returnFunction => exact .pure (hsilent rfl)
    | continueLoop =>
        dsimp only
        cases hparent : g.regions.parent? g.current with
        | none => exact .pure .nil
        | some check =>
            have hcheck : A check := h hkind check (by rwa [not_not.1 hconsumer])
            have hcalls : CallOnly (OfRegion A g) [ifRaised slot (.returnRun (callRegion g check))] :=
              .cons (List.forall_mem_singleton.2 ⟨check, hcheck, rfl⟩) .nil
            by_cases hreset : check ∉ g.resets
            · simp only [if_pos hreset]
              exact (Makes.change_of_reaches (.single (.reset g check slot))).bind fun _ _ _ _ =>
                .pure hcalls
            · simp only [if_neg hreset]
              exact .pure hcalls

/-- All exits raised so far start rounds of checks in `A` again. -/
def AllRestart (A : Nat → Prop) (g : Generation) : Prop := ∀ x ∈ g.exits, Restarts A g x.2

theorem edits_afterCall (n : Nat) (h : AllRestart A g) :
    Makes (Edit A) g (afterCall n) fun cs _ => CallOnly (OfRegion A g) cs := by
  unfold afterCall
  refine .get_bind ?_
  refine (Makes.mapM_reached (P := CallOnly (OfRegion A g)) fun x hx g' hreach => ?_).bind
    fun checks _ _ hchecks => .pure (.flatten hchecks)
  obtain ⟨flag, -, hlookup⟩ := List.mem_filterMap.1 hx
  obtain ⟨e, he, rfl⟩ := Option.map_eq_some_iff.1 hlookup
  have halike := alike_of_edits hreach
  obtain ⟨before, behind, hexits, -⟩ := List.lookup_eq_some_iff.1 he
  have hrestarts : Restarts A g' e :=
    (h (flag, e) (by rw [hexits]; exact List.mem_append_right _ List.mem_cons_self)).of_alike halike
  refine (edits_checkFlag flag hrestarts).post fun cs _ hcs c hc f hf => ?_
  exact halike.ofRegion.1 (hcs c hc f hf)

theorem AllRestart.of_edits (h : AllRestart A g) (hedits : Reaches (Edit A) g g') : AllRestart A g' := by
  induction hedits with
  | refl => exact h
  | @tail g₁ g₂ _ hlast ih =>
      have hexits : ∀ x ∈ g₂.exits, Restarts A g₁ x.2 := by
        cases hlast with
        | helper _ _ =>
            obtain ⟨helpers, heq⟩ := addHelper_eq g₁ _ _
            rw [heq]
            exact ih
        | register _ he =>
            intro x hx
            rcases List.mem_append.1 hx with hx | hx
            · exact ih x hx
            · rw [List.mem_singleton.1 hx]
              exact he
        | _ => exact ih
      exact fun x hx => (hexits x hx).of_alike hlast.alike

/-- The checks behind the call of a region are made for the exits raised so far. -/
theorem edits_settle (ns : List Nat) (h : AllRestart A g) :
    Makes (Edit A) g (settle ns) fun _ _ => True := by
  refine .forM_reached fun n _ g' hreach => ?_
  refine (edits_afterCall n (h.of_edits hreach)).bind fun cs g'' hreach' hcs => ?_
  refine (edits_emit fun c hc f hf => .inl ?_).post fun _ _ _ => trivial
  exact (alike_of_edits hreach').ofRegion.2 (hcs c hc f hf)

theorem edits_callOf {n : Nat} (hn : A n) {c : Command} (hc : c.callees = [g.regions.functionRef g.ns n]) :
    Makes (Edit A) g (Gen.emit [c]) fun _ g' => Filled g' :=
  edits_emit_cons (.cons (by rw [hc]; exact List.forall_mem_singleton.2 (.inl ⟨n, hn, rfl⟩)) .nil)

theorem edits_jumpTo (name : String) (hexits : AllRestart A g) (hleads : ∀ n, g.resolve name = some n → A n) :
    Makes (Edit A) g (jumpTo name) fun _ g' => Filled g' := by
  unfold jumpTo
  refine (makes_regionNamed name).bind fun n g' _ ⟨hg, hn⟩ => .get_bind ?_
  subst hg
  split
  · exact edits_callOf (hleads n hn) rfl
  · refine (edits_callOf (hleads n hn) rfl).bind fun _ g₁ hreach hfilled => ?_
    have hsettle := edits_settle [n] (hexits.of_edits hreach)
    rw [settle_singleton] at hsettle
    exact hsettle.filled hfilled

/-- A branch that leads somewhere leaves a command. -/
theorem edits_branchTo (flag : Slot) (p : Polarity) (name : String)
    (hleads : name ≠ "" → ∀ n, g.resolve name = some n → A n) :
    Makes (Edit A) g (branchTo flag p name) fun _ g' => name ≠ "" → Filled g' := by
  unfold branchTo
  split
  · next hname => exact .pure fun hne => absurd hname hne
  · next hname =>
    refine (makes_regionNamed name).bind fun n g' _ ⟨hg, hn⟩ => .get_bind ?_
    subst hg
    refine (edits_callOf (hleads hname n hn) rfl).bind fun _ g₁ _ hfilled => ?_
    exact .pure fun _ => hfilled

/-- The branches a conditional jump may take: a condition known beforehand leaves one. -/
def branches (ins : Instruction) : List String :=
  (match ins.condition with
  | some (.literal l) => [if l.truthy?.getD false then ins.onTrue else ins.onFalse]
  | _ => [ins.onTrue, ins.onFalse]).filter (· ≠ "")

theorem edits_branches (flag : Slot) {onTrue onFalse : String} (hexits : AllRestart A g)
    (hleads : ∀ x ∈ [onTrue, onFalse], x ≠ "" → ∀ n, g.resolve x = some n → A n) :
    Makes (Edit A) g
      (do
        let onTrue ← branchTo flag .fails onTrue
        let onFalse ← branchTo flag .holds onFalse
        settle (onTrue ++ onFalse))
      fun _ g' => ∀ x ∈ [onTrue, onFalse], x ≠ "" → Filled g' := by
  refine (edits_branchTo flag .fails onTrue (hleads onTrue List.mem_cons_self)).bind
    fun ns g₁ hreach htrue => ?_
  have hfalse := hleads onFalse (List.mem_cons_of_mem _ List.mem_cons_self)
  refine (edits_branchTo flag .holds onFalse fun hne n hn => ?_).bind fun ms g₂ hreach' hfilled => ?_
  · rw [(alike_of_edits hreach).resolve] at hn
    exact hfalse hne n hn
  have hsettle := edits_settle (ns ++ ms) (hexits.of_edits (hreach.trans hreach'))
  refine ⟨hsettle.1, fun _ _ x hx hne => ?_⟩
  rcases List.mem_cons.1 hx with rfl | hx
  · exact (htrue hne).of_edits (hreach'.trans hsettle.1)
  · rw [List.mem_singleton.1 hx] at hne
    exact (hfilled hne).of_edits hsettle.1

theorem edits_condJump (ins : Instruction) (hexits : AllRestart A g)
    (hleads : ∀ x ∈ branches ins, ∀ n, g.resolve x = some n → A n) :
    Makes (Edit A) g (condJump ins) fun _ g' => branches ins ≠ [] → Filled g' := by
  unfold condJump
  refine (edits_operand _).bind fun o g₁ _ ⟨hg, hliteral, _⟩ => ?_
  subst hg
  cases o with
  | literal l =>
      -- a condition known beforehand: only the branch it chooses is compiled
      unfold branches at hleads ⊢
      simp only [(hliteral l).1 rfl] at hleads ⊢
      generalize (if l.truthy?.getD false then ins.onTrue else ins.onFalse) = name at hleads ⊢
      split
      · next hname => exact .pure fun hne => absurd (by simp [hname]) hne
      · next hname =>
        refine (edits_jumpTo _ hexits (hleads _ ?_)).post fun _ _ hfilled _ => hfilled
        simp [hname]
  | slot s =>
      have hbranches : branches ins = [ins.onTrue, ins.onFalse].filter (· ≠ "") := by
        unfold branches
        split
        · next l hl => cases (hliteral l).2 hl
        · rfl
      have hleads' : ∀ x ∈ [ins.onTrue, ins.onFalse], x ≠ "" → ∀ n, g₁.resolve x = some n → A n := by
        intro x hx hne
        exact hleads x (by rw [hbranches]; exact List.mem_filter.2 ⟨hx, by simpa using hne⟩)
      have hrest : ∀ flag g₂, Reaches (Edit A) g₁ g₂ → Makes (Edit A) g₂
          (do
            let onTrue ← branchTo flag .fails ins.onTrue
            let onFalse ← branchTo flag .holds ins.onFalse
            settle (onTrue ++ onFalse)) fun _ g' => branches ins ≠ [] → Filled g' := by
        intro flag g₂ hreach
        refine (edits_branches flag (hexits.of_edits hreach) fun x hx hne n hn => ?_).post
          fun _ g' hfilled hne => ?_
        · rw [(alike_of_edits hreach).resolve] at hn
          exact hleads' x hx hne n hn
        · obtain ⟨x, hx⟩ := List.exists_mem_of_ne_nil _ hne
          rw [hbranches] at hx
          obtain ⟨hx, hname⟩ := List.mem_filter.1 hx
          exact hfilled x hx (by simpa using hname)
      dsimp only
      split
      · refine (edits_freshName _).bind fun name g₂ hreach _ => .get_bind ?_
        refine (edits_emit (callOnly_copy _ _)).bind fun _ g₃ hreach' _ => ?_
        exact hrest _ g₃ (hreach.trans hreach')
      · exact hrest s g₁ .refl

/-! ### Exits -/

theorem edits_raise (kind : ExitKind) (flag : String) {consumer : Nat}
    (h : Restarts A g ⟨kind, consumer⟩) :
    Makes (Edit A) g (raise kind flag consumer) fun _ g' => Filled g' := by
  have hregister : Reaches (Edit A) g (register g flag ⟨kind, consumer⟩) := by
    unfold register
    split
    · exact .refl
    · exact .single (.register g flag h)
  have hcommands : CallOnly (Refers A (register g flag ⟨kind, consumer⟩))
      [.setScore (Layout.flag g flag) 1, .ret 0] := .silent rfl (.silent rfl .nil)
  refine .of_yields (yields_raised g kind flag consumer)
    ((hregister.tail (.emit hcommands)).tail (.mark _ _ _)) ?_
  exact (filled_emit (List.cons_ne_nil _ _)).of_edits (.single (.mark (A := A) _ _ _))

theorem edits_breakLoop (ins : Instruction) :
    Makes (Edit A) g (breakLoop ins) fun _ g' => Filled g' := by
  unfold breakLoop
  refine (makes_loopOf _).bind fun loop g' _ _ => .get_bind ?_
  exact edits_raise _ _ fun hkind => ExitKind.noConfusion hkind

/-- The next round of a loop starts at the region around its body. -/
theorem edits_continueLoop (ins : Instruction)
    (hnext : ∀ n ∈ g.regions.ancestors g.current, (g.regions.at? n).kind = .loopBody →
      ∀ c, g.regions.parent? n = some c → A c) :
    Makes (Edit A) g (continueLoop ins) fun _ g' => Filled g' := by
  unfold continueLoop
  refine (makes_loopOf _).bind fun loop g' _ ⟨hg, _⟩ => .get_bind ?_
  subst hg
  extract_lets missing
  refine (Makes.orFail (Q := fun body g => g = g' ∧ bodyOfLoop? g' loop = some body)
    fun body hbody => ⟨rfl, hbody⟩).bind fun body g _ ⟨hg, hbody⟩ => ?_
  subst hg
  have hchecks : ∀ c, g.regions.parent? body = some c → A c := by
    have hkind := List.find?_some hbody
    simp only [Bool.and_eq_true, decide_eq_true_eq] at hkind
    exact hnext body ((List.takeWhile_sublist _).mem (List.mem_of_find?_eq_some hbody)) hkind.1
  refine (Makes.orFail (Q := fun check g' => g' = g ∧ g.regions.parent? body = some check)
    fun _ h => ⟨rfl, h⟩).bind fun check g' _ ⟨hg, hcheck⟩ => ?_
  subst hg
  split
  · exact edits_callOf (hchecks check hcheck) rfl
  · exact edits_raise _ _ fun _ => hchecks

theorem edits_storeReturn (body : Nat) (value : Option Reference) :
    Makes (Edit A) g (storeReturn body value) fun _ _ => True := by
  unfold storeReturn
  split
  · exact .pure trivial
  · refine .get_bind ((Makes.orFail (Q := fun _ _ => True) fun _ _ => trivial).bind fun f _ _ _ => ?_)
    exact (edits_operand _).bind fun src _ _ _ => (edits_emitAssign _ src).post fun _ _ _ => trivial

theorem edits_ret (ins : Instruction) : Makes (Edit A) g (ret ins) fun _ g' => Filled g' := by
  have hleave : ∀ g, Makes (Edit A) g (Gen.emit [.ret 0]) fun _ g' => Filled g' := fun _ =>
    edits_emit_cons (.silent rfl .nil)
  unfold ret
  refine .get_bind ?_
  split
  · exact hleave g
  · refine (edits_storeReturn _ _).bind fun _ g' _ _ => ?_
    split
    · exact hleave g'
    · exact edits_raise _ _ fun hkind => ExitKind.noConfusion hkind

/-! ## Slots of different variables -/

/-- References that are never kept in one slot: what they read or write is kept in different spaces, or
under different names. -/
def Distinct (r r' : Option Reference) : Prop :=
  ∀ v ∈ varOf r, ∀ w ∈ varOf r', Space.ofType v.type ≠ Space.ofType w.type ∨
    ((v.kind ≠ .ret ∧ w.kind ≠ .ret) ∧ ('.' ∉ v.name.toList ∧ '.' ∉ w.name.toList) ∧
      holder v.name ≠ holder w.name)

instance (r r' : Option Reference) : Decidable (Distinct r r') := by
  unfold Distinct
  infer_instance

theorem dot_not_mem_holder {x : String} (hx : '.' ∉ x.toList) : '.' ∉ (holder x).toList := by
  intro hmem
  rw [holder, String.toList_map] at hmem
  obtain ⟨c, hc, hdot⟩ := List.mem_map.1 hmem
  have hne : c ≠ '.' := fun heq => hx (heq ▸ hc)
  unfold holderChar at hdot
  split at hdot
  · exact hne hdot
  · split at hdot <;> exact absurd hdot (by decide)

/-- The last key on the way to a variable is its name. -/
theorem getLast?_symbolPath (rs : Regions) (n : Nat) {x : String} (hx : '.' ∉ x.toList) :
    (Text.split '.' (holder (rs.symbolPath n x))).getLast? = some (holder x) := by
  have hname : Text.split '.' (holder x) = [holder x] := Text.split_of_not_mem (dot_not_mem_holder hx)
  unfold Regions.symbolPath
  split
  · next m v _ =>
    have hpath : holder (rs.absolutePath m ++ "." ++ x) = holder (rs.absolutePath m) ++ "." ++ holder x := by
      rw [holder, map_append, map_append, map_dot]
      rfl
    rw [hpath, Text.split_append toList_dot, hname, List.getLast?_concat]
  · rw [hname, List.getLast?_singleton]

theorem Distinct.separated {r r' : Option Reference} (h : Distinct r r') (g : Generation) :
    Separated g r r' := by
  intro v w hv hw heq
  rcases h v hv w hw with hspace | ⟨⟨hv', hw'⟩, ⟨hdot, hdot'⟩, hne⟩
  · rw [← space_slot g, ← space_slot g, heq] at hspace
    exact hspace rfl
  · have hpath : ∀ ns path t, (place ns path t).path = holder path := by
      intro ns path t
      unfold place
      cases Space.ofType t <;> rfl
    have hslot : ∀ u : Variable, u.kind ≠ .ret →
        (Layout.slot g u).path = holder (g.regions.symbolPath g.current u.name) := by
      intro u hu
      rw [Layout.slot, if_neg hu, hpath]
    have hpaths := congrArg Slot.path heq
    rw [hslot v hv', hslot w hw'] at hpaths
    have hlast := congrArg (fun p => (Text.split '.' p).getLast?) hpaths
    simp only [getLast?_symbolPath _ _ hdot, getLast?_symbolPath _ _ hdot', Option.some.injEq] at hlast
    exact hne hlast

/-! ## Instructions -/

/-- The regions that an instruction may have called. -/
inductive Targets (g : Generation) (ins : Instruction) : Nat → Prop
  | jump {n : Nat} (hop : ins.op = .jump) (h : g.resolve ins.jumpTarget = some n) : Targets g ins n
  | branch {n : Nat} {x : String} (hop : ins.op = .condJump) (hx : x ∈ branches ins)
      (h : g.resolve x = some n) : Targets g ins n
  | body {n : Nat} {f : Function} (hop : ins.op = .call ∨ ins.op = .callMethod)
      (hf : ins.function? = some f) (h : g.bodyOf? f = some n) : Targets g ins n
  | hook {n : Nat} {f : Function} (hop : ins.op = .function) (hf : ins.function? = some f)
      (hannotated : f.hasAnnotation "load" ∨ f.hasAnnotation "tick") (h : g.bodyOf? f = some n) :
      Targets g ins n
  | next {m n : Nat} (hop : ins.op = .continueLoop) (hm : m ∈ g.regions.ancestors g.current)
      (hkind : (g.regions.at? m).kind = .loopBody) (h : g.regions.parent? m = some n) : Targets g ins n

/-- The instructions that leave a command behind, or an error. -/
def LeavesCommand (ins : Instruction) : Prop :=
  match ins.op with
  | .scopeBegin | .scopeEnd | .function | .classDef | .declare => False
  | .condJump => branches ins ≠ []
  | .assign => Distinct (ins.refAt 0) (ins.refAt 1)
  | .cast => Distinct (ins.refAt 0) (ins.refAt 2)
  | .getProperty | .setProperty => IsScore ins.propertyOther
  | _ => True

theorem edits_find {ins : Instruction} (hplain : isDelimiter ins = false) (hdeclare : ins.op ≠ .declare)
    (hexits : AllRestart A g) (htargets : ∀ n, Targets g ins n → A n) :
    Makes (Edit A) g (processors.find ins.op ins) fun _ g' => LeavesCommand ins → Filled g' := by
  obtain ⟨hbegin, hend⟩ := isDelimiter_eq_false.1 hplain
  unfold LeavesCommand
  cases hop : ins.op with
  | jump => exact (edits_jumpTo _ hexits fun n hn => htargets n (.jump hop hn)).post fun _ _ h _ => h
  | condJump => exact edits_condJump ins hexits fun x hx n hn => htargets n (.branch hop hx hn)
  | breakLoop => exact (edits_breakLoop ins).post fun _ _ h _ => h
  | continueLoop =>
      exact (edits_continueLoop ins fun m hm hkind n hn => htargets n (.next hop hm hkind hn)).post
        fun _ _ h _ => h
  | ret => exact (edits_ret ins).post fun _ _ h _ => h
  | function =>
      exact (edits_functionDef ins fun f hf ha n hn => htargets n (.hook hop hf ha hn)).post
        fun _ _ _ h => h.elim
  | call =>
      exact (edits_call ins fun f hf n hn => htargets n (.body (.inl hop) hf hn)).post fun _ _ h _ => h
  | callMethod =>
      exact (edits_callMethod ins fun f hf n hn => htargets n (.body (.inr hop) hf hn)).post
        fun _ _ h _ => h
  | assign => exact (edits_assignment ins).post fun _ _ h hd => h (hd.separated g)
  | unaryOp => exact (edits_unary ins).post fun _ _ h _ => h
  | binaryOp => exact (edits_binary ins).post fun _ _ h _ => h
  | compare => exact (edits_comparison ins).post fun _ _ h _ => h
  | cast => exact (edits_conversion ins).post fun _ _ h hd => h (hd.separated g)
  | newObject => exact (edits_newObject ins).post fun _ _ h _ => h
  | getProperty => exact edits_getProperty ins
  | setProperty => exact edits_setProperty ins
  | classDef => exact .pure fun h => h.elim
  | undefined code => exact (edits_fallback ins).post fun _ _ h _ => h
  | scopeBegin => exact absurd hop hbegin
  | scopeEnd => exact absurd hop hend
  | declare => exact absurd hop hdeclare

/-- A change by any instruction. -/
inductive Act (A : Nat → Prop) : Generation → Generation → Prop
  | edit {g g' : Generation} (h : Edit A g g') : Act A g g'
  | move (g : Generation) (index current : Nat) (stack : List Nat) :
      Act A g { g with index, current, stack }
  | declare (g : Generation) (n : Nat) (v : Variable) :
      Act A g { g with regions := g.regions.update n (·.declare v) }

theorem acts_find (ins : Instruction) (hexits : AllRestart A g) (htargets : ∀ n, Targets g ins n → A n) :
    Makes (Act A) g (processors.find ins.op ins) fun _ _ => True := by
  rcases ins.delimiter_cases with hop | hop | ⟨hb, he⟩
  · rw [hop]
    exact .change (.move g g.index (g.regionAt g.index) (g.current :: g.stack))
  · rw [hop]
    cases hstack : g.stack with
    | nil =>
        have hpop : g.pop? = none := by rw [Generation.pop?, hstack]
        change Makes (Act A) g Gen.pop _
        unfold Gen.pop
        refine .get_bind ?_
        rw [hpop]
        exact .throw _
    | cons n stack => exact .of_yields (.pop hstack) (.single (.move g g.index n stack)) trivial
  · by_cases hop : ins.op = .declare
    · rw [hop]
      change Makes (Act A) g (declare ins) _
      unfold declare
      split
      · next v _ => exact .change (.declare g g.current v)
      · exact .throw _
    · exact ((edits_find (isDelimiter_eq_false.2 ⟨hb, he⟩) hop hexits htargets).mono fun _ _ => .edit).post
        fun _ _ _ => trivial

theorem act_report (g : Generation) (d : Diagnostic) : Act A g (g.report d) :=
  .edit (.note g g.fresh g.ids [d])

/-! ## What all instructions keep -/

/-- Every reference of a state is to a region in `A`, or to a function of the compiler's own. -/
structure Linked (A : Nat → Prop) (g : Generation) : Prop where
  commands : ∀ n, CallOnly (Refers A g) (g.commandsAt n)
  hooks : ∀ f ∈ g.onLoad ++ g.onTick, OfRegion A g f
  exits : AllRestart A g
  helpers : ∀ h ∈ g.helpers, h.1 ∈ enginePaths ∧ CallOnly (fun _ => False) h.2
  distinct : (g.helpers.map Prod.fst).Nodup
  tags : g.tags = []

theorem Linked.addHelper (h : Linked A g) {path : String} {body : List Command} (hpath : path ∈ enginePaths)
    (hbody : CallOnly (fun _ => False) body) :
    (∀ h ∈ (g.addHelper path body).helpers, h.1 ∈ enginePaths ∧ CallOnly (fun _ => False) h.2) ∧
      ((g.addHelper path body).helpers.map Prod.fst).Nodup := by
  rcases addHelper_cases g path body with ⟨-, heq⟩ | ⟨hnew, heq⟩
  · rw [heq]
    exact ⟨h.helpers, h.distinct⟩
  · rw [heq]
    constructor
    · intro x hx
      rcases List.mem_append.1 hx with hx | hx
      · exact h.helpers x hx
      · rw [List.mem_singleton.1 hx]
        exact ⟨hpath, hbody⟩
    · simp only [List.map_append, List.map_cons, List.map_nil]
      exact List.nodup_append.2 ⟨h.distinct, List.nodup_singleton _, fun x hx y hy heq =>
        hnew (List.mem_singleton.1 hy ▸ heq ▸ hx)⟩

theorem Linked.of_edit (h : Linked A g) (hedit : Edit A g g') : Linked A g' := by
  have hreach : Reaches (Edit A) g g' := .single hedit
  have halike := hedit.alike
  refine ⟨fun n c hc f hf => ?_, fun f hf => halike.ofRegion.2 ?_, h.exits.of_edits hreach, ?_, ?_, ?_⟩
  · rcases hedit.commandsAt hc with hc | hcalls
    · exact (h.commands n c hc f hf).of_edits hreach
    · exact (hcalls f hf).of_edits hreach
  · cases hedit with
    | hook onLoad onTick hhooks => exact (hhooks f hf).elim (h.hooks f) id
    | helper hpath hbody =>
        obtain ⟨helpers, heq⟩ := addHelper_eq g _ _
        rw [heq] at hf
        exact h.hooks f hf
    | _ => exact h.hooks f hf
  · cases hedit with
    | helper hpath hbody => exact (h.addHelper hpath hbody).1
    | _ => exact h.helpers
  · cases hedit with
    | helper hpath hbody => exact (h.addHelper hpath hbody).2
    | _ => exact h.distinct
  · cases hedit with
    | helper _ _ =>
        obtain ⟨helpers, heq⟩ := addHelper_eq g _ _
        rw [heq]
        exact h.tags
    | _ => exact h.tags

theorem Linked.of_act (h : Linked A g) (hact : Act A g g') : Linked A g' := by
  cases hact with
  | edit hedit => exact h.of_edit hedit
  | move index current stack => exact ⟨h.commands, h.hooks, h.exits, h.helpers, h.distinct, h.tags⟩
  | declare n v =>
      have hlike := like_declare v g.regions n
      have hregion : ∀ f, OfRegion A g f →
          OfRegion A { g with regions := g.regions.update n (·.declare v) } f := by
        rintro f ⟨m, hm, rfl⟩
        exact ⟨m, hm, (hlike.functionRef _ m).symm⟩
      refine ⟨fun m c hc f hf => ?_, fun f hf => hregion f (h.hooks f hf), fun x hx hkind c hc => ?_,
        h.helpers, h.distinct, h.tags⟩
      · unfold Generation.commandsAt at hc
        rw [Regions.commands_update (f := (·.declare v)) (fun _ => rfl)] at hc
        exact (h.commands m c hc f hf).imp_left (hregion f)
      · exact h.exits x hx hkind c (by rwa [← hlike.parent?])

theorem Linked.of_acts (h : Linked A g) (hacts : Reaches (Act A) g g') : Linked A g' := by
  induction hacts with
  | refl => exact h
  | tail _ hlast ih => exact ih.of_act hlast

theorem Act.config (h : Act A g g') : g'.config = g.config := by
  cases h with
  | edit h => exact h.alike.config
  | _ => rfl

theorem Act.like (h : Act A g g') : Like g.regions g'.regions := by
  cases h with
  | edit h => exact h.alike.like
  | move => exact .refl _
  | declare n v => exact like_declare v _ n

theorem acts_kept (h : Reaches (Act A) g g') : g'.config = g.config ∧ Like g.regions g'.regions := by
  induction h with
  | refl => exact ⟨rfl, .refl _⟩
  | tail _ hlast ih => exact ⟨hlast.config.trans ih.1, ih.2.trans hlast.like⟩

/-- What a region or the bag of findings holds stays there. -/
theorem FilledAt.of_act {n : Nat} (h : FilledAt n g) (hact : Act A g g') : FilledAt n g' := by
  cases hact with
  | edit hedit => exact h.of_edit hedit
  | move => exact h
  | declare m v =>
      refine h.imp_left fun h => ?_
      unfold Generation.commandsAt
      rwa [Regions.commands_update (f := (·.declare v)) (fun _ => rfl)]

theorem FilledAt.of_acts {n : Nat} (h : FilledAt n g) (hacts : Reaches (Act A) g g') : FilledAt n g' := by
  induction hacts with
  | refl => exact h
  | tail _ hlast ih => exact ih.of_act hlast

theorem acts_processFrom (i : Nat) (g : Generation) (s : Stream) :
    Reaches (Act fun _ => True) g (processFrom processors i g s).1 := by
  induction s generalizing i g with
  | nil => exact .refl
  | cons ins s ih =>
      have hmove : Act (fun _ => True) g { g with index := i } := .move g i g.current g.stack
      have hacts := (acts_find (A := fun _ => True) (g := { g with index := i }) ins
        (fun _ _ _ _ _ => trivial) fun _ _ => trivial).1
      unfold processFrom
      rcases hrun : (processors.find ins.op ins).run { g with index := i } with ⟨e | a, g'⟩
      · rw [hrun] at hacts
        have hreach := (Relation.ReflTransGen.single hmove).trans hacts
        dsimp only
        split
        · exact hreach
        · exact (hreach.tail (act_report g' _)).trans (ih _ _)
      · rw [hrun] at hacts
        exact ((Relation.ReflTransGen.single hmove).trans hacts).trans (ih _ _)

/-- Processing an instruction that leaves a command fills the innermost region. -/
theorem StepsTo.filled {i : Nat} {ins : Instruction} (h : StepsTo i ins g g')
    (hplain : isDelimiter ins = false) (hdeclare : ins.op ≠ .declare) (hexits : AllRestart A g)
    (htargets : ∀ n, Targets { g with index := i } ins n → A n) (hleaves : LeavesCommand ins)
    (hlt : g.current < g.regions.length) : FilledAt g.current g' := by
  have hmakes := edits_find (g := { g with index := i }) hplain hdeclare hexits htargets
  have halike := alike_of_edits (h.reaches hmakes fun g d => .note g g.fresh g.ids [d])
  -- a processor that fails has its error reported, which counts as well
  have hfilled : Filled g' := by
    rcases h with h | ⟨e, g₁, -, rfl⟩
    · unfold Yields at h
      have hvalue := hmakes.2 ()
      rw [h] at hvalue
      exact hvalue rfl hleaves
    · exact filled_report (severity_failureReport ins e)
  have hcurrent : g'.current = g.current := halike.current
  rw [← hcurrent]
  refine hfilled ?_
  rw [hcurrent, halike.length]
  exact hlt

theorem LeavesCommand.plain {ins : Instruction} (h : LeavesCommand ins) :
    isDelimiter ins = false ∧ ins.op ≠ .declare := by
  unfold LeavesCommand at h
  rw [isDelimiter_eq_false]
  cases hop : ins.op <;> simp_all

/-! ## The end of a generation -/

/-- A hook runs the function. -/
def Hooked (g : Generation) (f : String) : Prop := ∃ x ∈ g.tags, f ∈ x.2

/-- The states differ in hooks only, and the new ones run functions of `F`. -/
structure Hooks (F : String → Prop) (g g' : Generation) : Prop where
  rest : ∃ tags, g' = { g with tags }
  hooked : ∀ f, Hooked g' f → Hooked g f ∨ F f

namespace Hooks

variable {F F' : String → Prop} {g'' : Generation}

theorem trans (h : Hooks F g g') (h' : Hooks F' g' g'') : Hooks (fun f => F f ∨ F' f) g g'' := by
  obtain ⟨tags, rfl⟩ := h.rest
  obtain ⟨tags', rfl⟩ := h'.rest
  refine ⟨⟨tags', rfl⟩, fun f hf => ?_⟩
  rcases h'.hooked f hf with hf | hf
  · exact (h.hooked f hf).imp_right .inl
  · exact .inr (.inr hf)

theorem mono (h : Hooks F g g') (hF : ∀ f, F f → F' f) : Hooks F' g g' :=
  ⟨h.rest, fun f hf => (h.hooked f hf).imp_right (hF f)⟩

theorem tag (g : Generation) (hook ref : String) : Hooks (· = ref) g (g.tag hook ref) := by
  refine ⟨tag_eq g hook ref, fun f h => ?_⟩
  obtain ⟨x, hx, hf⟩ := h
  unfold Generation.tag at hx
  split at hx
  · exact .inl ⟨x, hx, hf⟩
  · rcases List.mem_append.1 hx with hx | hx
    · exact .inl ⟨x, (List.mem_filter.1 hx).1, hf⟩
    · rw [List.mem_singleton.1 hx] at hf
      rcases List.mem_append.1 hf with hf | hf
      · -- the functions the hook has run so far
        unfold tagged at hf
        cases hlookup : g.tags.lookup hook with
        | none =>
            rw [hlookup] at hf
            exact absurd hf List.not_mem_nil
        | some refs =>
            rw [hlookup] at hf
            obtain ⟨front, back, htags, -⟩ := List.lookup_eq_some_iff.1 hlookup
            exact .inl ⟨(hook, refs), htags ▸ List.mem_append_right _ List.mem_cons_self, hf⟩
      · exact .inr (List.mem_singleton.1 hf)

theorem foldl (g : Generation) (refs : List String) (hook : String) :
    Hooks (· ∈ refs) g (refs.foldl (fun g ref => g.tag hook ref) g) := by
  induction refs generalizing g with
  | nil => exact ⟨⟨g.tags, rfl⟩, fun _ => .inl⟩
  | cons ref refs ih => exact ((tag g hook ref).trans (ih _)).mono fun f hf => List.mem_cons.2 hf

end Hooks

theorem callOnly_initCommands (p : Pool) {F : String → Prop} : CallOnly F p.initCommands := by
  intro c hc f hf
  unfold Pool.initCommands at hc
  simp only [List.mem_append, List.mem_cons, List.mem_map, List.not_mem_nil, or_false] at hc
  obtain ((((rfl | rfl) | ⟨n, -, rfl⟩) | ⟨n, -, rfl⟩) | rfl) := hc
  all_goals exact absurd hf List.not_mem_nil

/-- At the end the function that fills the pool is added, and hooks are given functions to run: that one,
the global code if there is any, and the functions that asked for it. -/
theorem hooks_finish (g : Generation) :
    Hooks (fun f => f = g.helperRef initPath ∨ (f = g.regions.functionRef g.ns 0 ∧ g.commandsAt 0 ≠ []) ∨
        f ∈ g.onLoad ++ g.onTick)
      (g.addHelper initPath (.addObjective g.ns :: g.pool.initCommands)) (finish g) := by
  have hglobal : ∀ g : Generation, Hooks (fun f => f = g.regions.functionRef g.ns 0 ∧ g.commandsAt 0 ≠ []) g
      (if (g.regions.at? 0).commands.isEmpty then g else g.tag "load" (g.regions.functionRef g.ns 0)) := by
    intro g
    split
    · exact ⟨⟨g.tags, rfl⟩, fun _ => .inl⟩
    · next hne => exact (Hooks.tag g _ _).mono fun f hf => ⟨hf, by simpa [commandsAt] using hne⟩
  have hhook : ∀ (refs : Generation → List String) (hook : String) (g : Generation),
      Hooks (· ∈ refs g) g ((refs g).foldl (fun g ref => g.tag hook ref) g) :=
    fun refs hook g => .foldl g (refs g) hook
  obtain ⟨helpers, hadd⟩ := addHelper_eq g initPath (.addObjective g.ns :: g.pool.initCommands)
  unfold finish
  rw [hadd]
  have hinit := Hooks.tag { g with helpers } "load" (helperRef { g with helpers } initPath)
  have hcode := hinit.trans (hglobal _)
  have hload := hcode.trans (hhook (·.onLoad) "load" _)
  have htick := hload.trans (hhook (·.onTick) "tick" _)
  refine htick.mono fun f hf => ?_
  rcases hf with ((hf | ⟨hf, hne⟩) | hf) | hf
  · exact .inl hf
  · obtain ⟨tags, heq⟩ := hinit.rest
    rw [heq] at hf hne
    exact .inr (.inl ⟨hf, hne⟩)
  · obtain ⟨tags, heq⟩ := hcode.rest
    rw [heq] at hf
    exact .inr (.inr (List.mem_append_left _ hf))
  · obtain ⟨tags, heq⟩ := hload.rest
    rw [heq] at hf
    exact .inr (.inr (List.mem_append_right _ hf))

/-- The function that fills the pool calls nothing. -/
theorem Edit.init (A : Nat → Prop) (g : Generation) :
    Edit A g (g.addHelper initPath (.addObjective g.ns :: g.pool.initCommands)) :=
  .helper g List.mem_cons_self (.silent rfl (callOnly_initCommands _))

/-! ## The start of a generation -/

theorem tree_of_start {config : Config} {p : Program} {diagnostics : Bag} {newId : Nat → String}
    (h : start config p diagnostics newId = .ok g) : g.regions.Tree := by
  obtain ⟨t, ht⟩ := exists_tree h
  obtain ⟨-, -, -, -, hregions⟩ := starts_of_start h ht
  rw [hregions]
  exact (spec_regionsOf ht config.ns).2.1.of_like (declareParams_rest _ _).1

theorem linked_start {config : Config} {p : Program} {diagnostics : Bag} {newId : Nat → String}
    (h : start config p diagnostics newId = .ok g) : Linked A g := by
  have hcommands : ∀ t, ScopeTree.ofStream p.code = .ok t → ∀ n, g.commandsAt n = [] := by
    intro t ht n
    obtain ⟨hstarts, -⟩ := starts_of_start h ht
    by_cases hn : n < t.nodes.length
    · exact hstarts.commands n hn
    · rw [commandsAt, Regions.at?, List.getElem?_eq_none (by rw [hstarts.length]; omega)]
      rfl
  unfold start at h
  split at h
  · cases h
  · next t ht =>
    split at h
    · cases h
    · cases h
      refine ⟨fun n c hc => ?_, by simp, fun x hx => ?_, by simp, List.nodup_nil, rfl⟩
      · rw [hcommands t ht n] at hc
        exact absurd hc List.not_mem_nil
      · exact absurd hx List.not_mem_nil

theorem kept_of_lower {config : Config} {p : Program} {diagnostics : Bag} {newId : Nat → String}
    {g₀ : Generation} {e : Option ProcessingError} (hstart : start config p diagnostics newId = .ok g₀)
    (hlower : lower g₀ = (g, e)) :
    g.config = g₀.config ∧ Like g₀.regions g.regions ∧ (∀ x ∈ g.helpers, x.1 ∈ enginePaths) ∧
      (g.helpers.map Prod.fst).Nodup := by
  have hacts : Reaches (Act fun _ => True) g₀ (process processors g₀).1 :=
    acts_processFrom 0 g₀ g₀.program.code
  have hlinked := (linked_start (A := fun _ => True) hstart).of_acts hacts
  have hkept := acts_kept hacts
  unfold lower at hlower
  split at hlower
  · next g₁ hrun =>
    rw [hrun] at hlinked hkept
    obtain rfl := (Prod.mk.inj hlower).1
    have hlinked' := hlinked.of_edit (.init _ g₁)
    have halike := (Edit.init (fun _ => True) g₁).alike
    obtain ⟨tags, hfinish⟩ := (hooks_finish g₁).rest
    rw [hfinish]
    exact ⟨halike.config.trans hkept.1, hkept.2.trans halike.like, fun x hx => (hlinked'.helpers x hx).1,
      hlinked'.distinct⟩
  · next g₁ e' hrun =>
    rw [hrun] at hlinked hkept
    obtain rfl := (Prod.mk.inj hlower).1
    exact ⟨hkept.1, hkept.2, fun x hx => (hlinked.helpers x hx).1, hlinked.distinct⟩

end Datapack.Generation
