import Datapack.Proofs.Command.Copying
import Datapack.Proofs.Generation.Evaluation
import Datapack.Proofs.Generation.Slots
import Mathlib.Tactic.IntervalCases

/-!
# What a method call leaves in its result

A method call copies the returned value into its result first, and the objects that the method may have
changed after it.  The result keeps the returned value unless one of these objects overlaps it; the result
variable itself, bound to an object parameter, ends up with what the parameter holds.
-/

namespace Datapack.Generation

open Ir Command

variable {g g' : Generation} {args : List Argument} {body : Nat} {ps : List Parameter}

def operandOf (g : Generation) (r : Option Reference) : Option Command.Operand :=
  match literalOf r with
  | some l => some (.literal l)
  | none => (varOf r).map fun v => .slot (Layout.slot g v)

def passes (g : Generation) (body : Nat) (args : List Argument) (p : Parameter) : List Command :=
  ((operandOf g (valueFor args p)).bind fun o => (assign (Layout.paramSlot g body p) o).toOption).getD []

/-- What is copied back for a parameter: a variable that is bound to it gets the object in its slot. -/
def copyBack? (g : Generation) (body : Nat) (args : List Argument) (p : Parameter) : Option (Slot × Slot) :=
  if p.type.isPrimitive then none
  else
    ((args.find? (·.name = p.name)).bind fun a => varOf a.value).map fun v =>
      (Layout.slot g v, Layout.paramSlot g body p)

/-- What a method call copies back, in the order of the parameters. -/
def copiesBack (g : Generation) (body : Nat) (args : List Argument) (ps : List Parameter) : List (Slot × Slot) :=
  ps.filterMap (copyBack? g body args)

/-- The copies behind a method call: the returned value into the result, then the objects. -/
def copiesOfCall (g : Generation) (body : Nat) (f : Function) (args : List Argument) (v : Variable) :
    List (Slot × Slot) :=
  (Layout.slot g v, Layout.returnSlot g body f.returnType) :: copiesBack g body args f.params

/-- The commands of a method call with a result. -/
def commandsOfCall (g : Generation) (body : Nat) (f : Function) (args : List Argument) (v : Variable) :
    List Command :=
  f.params.flatMap (passes g body args) ++ callRegion g body ::
    (copiesOfCall g body f args v).flatMap fun b => copy b.1 b.2

theorem Alike.returnSlot (h : Alike g g') (body : Nat) (t : Ty) :
    Layout.returnSlot g' body t = Layout.returnSlot g body t := by
  rw [Layout.returnSlot, h.ns, h.absolutePath, Layout.returnSlot]

theorem Alike.paramSlot (h : Alike g g') (body : Nat) (p : Parameter) :
    Layout.paramSlot g' body p = Layout.paramSlot g body p := by
  rw [Layout.paramSlot, h.ns, h.absolutePath, Layout.paramSlot]

theorem operand_yields {r : Option Reference} (h : isReadable r = true) (g : Generation) :
    ∃ o, operandOf g r = some o ∧ Yields (operand r) g o g := by
  rcases r with - | ⟨l | v | v | f | c⟩
  · cases h
  · exact ⟨_, rfl, .pure _⟩
  · exact ⟨_, rfl, .bind .get (.pure _)⟩
  · exact ⟨_, rfl, .bind .get (.pure _)⟩
  · cases h
  · cases h

theorem Alike.operandOf (h : Alike g g') (r : Option Reference) : operandOf g' r = operandOf g r := by
  unfold Generation.operandOf
  cases literalOf r with
  | some l => rfl
  | none => cases varOf r <;> simp [h.slot]

/-! ## The commands of a call -/

theorem isControl_assign {dst : Slot} {o : Command.Operand} {cs : List Command} (h : assign dst o = .ok cs) :
    ∀ c ∈ cs, c.isControl = false := by
  cases o with
  | slot s =>
      obtain rfl := Except.ok.inj h
      exact isControl_copy
  | literal l =>
      rw [assign, store] at h
      split at h
      · obtain rfl := Except.ok.inj h
        intro c hc
        exact List.eq_of_mem_singleton hc ▸ rfl
      · split at h
        · obtain rfl := Except.ok.inj h
          intro c hc
          exact List.eq_of_mem_singleton hc ▸ rfl
        · cases h

theorem isControl_passes {p : Parameter} : ∀ c ∈ passes g body args p, c.isControl = false := by
  unfold passes
  cases operandOf g (valueFor args p) with
  | none => simp
  | some o =>
      rw [Option.bind_some]
      cases hassign : assign (Layout.paramSlot g body p) o with
      | error u => simp [Except.toOption]
      | ok cs => exact isControl_assign hassign

theorem argumentFor_yields {p : Parameter} (f : Function) (h : isReadable (valueFor args p) = true)
    (g : Generation) : Yields (argumentFor f args p) g (valueFor args p) g := by
  unfold argumentFor
  unfold valueFor at h ⊢
  cases hfind : args.find? (·.name = p.name) with
  | some a => exact .pure _
  | none =>
      rw [hfind] at h
      cases hdefault : p.default with
      | some d => exact .pure _
      | none =>
          rw [hdefault] at h
          cases h

theorem yields_passes (f : Function) (body : Nat) {p : Parameter} (hbinds : binds args p = true) (h : Alike g g') :
    Yields (do
      let src ← operand (← argumentFor f args p)
      Gen.emitLowered (assign (Layout.paramSlot (← get) body p) src)) g' () (g'.emit (passes g body args p)) := by
  obtain ⟨hread, hstores⟩ := Bool.and_eq_true_iff.1 hbinds
  obtain ⟨o, ho, hoperand⟩ := operand_yields hread g'
  have hok : (assign (Layout.paramSlot g body p) o).isOk = true := by
    rw [isOk_assign, Layout.paramSlot, space_place, ← isNumeric_shape,
      ((decides_operand _).ensures o g' hoperand).2.2]
    exact hstores
  refine (argumentFor_yields f hread g').bind (hoperand.bind (.bind .get ?_))
  rw [h.paramSlot, passes, ← h.operandOf, ho, Option.bind_some]
  cases hassign : assign (Layout.paramSlot g body p) o with
  | ok cs => exact .emit cs
  | error u =>
      rw [hassign] at hok
      cases hok

theorem yields_copyBack (h : Alike g g') (p : Parameter) :
    Yields (match args.find? (·.name = p.name) with
      | none => return ()
      | some a =>
        if p.type.isPrimitive || (varOf a.value).isNone then return ()
        else do
          let dst ← destination a.value
          Gen.emit (copy dst (Layout.paramSlot (← get) body p))) g' ()
      (g'.emit ((copyBack? g body args p).elim [] fun b => copy b.1 b.2)) := by
  have hnothing : Yields (return ()) g' () (g'.emit []) := by
    rw [emit_nil]
    exact .pure ()
  unfold copyBack?
  cases hfind : args.find? (·.name = p.name) with
  | none => simpa using hnothing
  | some a =>
      dsimp only
      by_cases hprimitive : p.type.isPrimitive = true
      · simpa [hprimitive] using hnothing
      · cases hv : varOf a.value with
        | none => simpa [hprimitive, hv] using hnothing
        | some v =>
            simp only [hprimitive, Option.isNone_some, Bool.or_self, Bool.false_eq_true, if_false,
              Option.bind_some, hv, Option.map_some, Option.elim_some]
            rw [← h.slot, ← h.paramSlot]
            exact (destination_yields hv g').bind (.bind .get (.emit _))

theorem yields_forM {F : Parameter → Gen Unit} {cs : Parameter → List Command}
    (hF : ∀ p ∈ ps, ∀ g', Alike g g' → Yields (F p) g' () (g'.emit (cs p))) (h : Alike g g') :
    Yields (ps.forM F) g' () (g'.emit (ps.flatMap cs)) := by
  induction ps generalizing g' with
  | nil =>
      rw [List.flatMap_nil, emit_nil]
      exact .pure ()
  | cons p ps ih =>
      rw [List.flatMap_cons, ← emit_emit]
      exact (hF p List.mem_cons_self g' h).bind
        (ih (fun q hq => hF q (List.mem_cons_of_mem p hq)) (h.trans (.emit g' _)))

theorem flatMap_copiesBack (g : Generation) (body : Nat) (args : List Argument) (ps : List Parameter) :
    (copiesBack g body args ps).flatMap (fun b => copy b.1 b.2) =
      ps.flatMap fun p => (copyBack? g body args p).elim [] fun b => copy b.1 b.2 := by
  induction ps with
  | nil => rfl
  | cons p ps ih =>
      rw [List.flatMap_cons, ← ih]
      unfold copiesBack
      cases hback : copyBack? g body args p <;> simp [hback]

variable {ins : Instruction} {f : Function} {v : Variable}

theorem callMethod_yields (hf : ins.function? = some f) (hbody : g.bodyOf? f = some body)
    (hv : varOf ins.result = some v) (hreturn : f.returnType ≠ Ty.null)
    (hargs : ∀ p ∈ f.params, binds ins.arguments p = true) :
    Yields (callMethod ins) g () (g.emit (commandsOfCall g body f ins.arguments v)) := by
  have hpasses := yields_forM (fun p hp g' h => yields_passes f body (hargs p hp) h) (.refl g)
  have hcall := Alike.emit g (f.params.flatMap (passes g body ins.arguments))
  have hreturned := hcall.trans (.emit _ [callRegion g body])
  have hbodyCall : Yields (callBody ins.result f ins.arguments) g body
      (((g.emit (f.params.flatMap (passes g body ins.arguments))).emit [callRegion g body]).emit
        (copy (Layout.slot g v) (Layout.returnSlot g body f.returnType))) := by
    cases hresult : ins.result with
    | none =>
        rw [hresult] at hv
        cases hv
    | some r =>
        rw [hresult] at hv
        unfold callBody
        refine Yields.bind .get (.bind (.orFail hbody) (hpasses.bind (.bind .get ?_)))
        rw [hcall.callRegion]
        refine Yields.bind (.emit _) ?_
        dsimp only
        rw [if_neg hreturn]
        refine (destination_yields hv _).bind (.bind .get ?_)
        rw [hreturned.slot, hreturned.returnSlot]
        exact Yields.bind (.emit _) (.pure body)
  have hback := hreturned.trans (.emit _ (copy (Layout.slot g v) (Layout.returnSlot g body f.returnType)))
  have hyields : Yields (callMethod ins) g () _ :=
    Yields.bind (.orFail hf) (hbodyCall.bind (yields_forM (fun p _ g' h => yields_copyBack h p) hback))
  rw [emit_emit, emit_emit, emit_emit, ← flatMap_copiesBack] at hyields
  exact hyields

/-! ## Spaces -/

theorem space_of_accepts {classes : Hierarchy} {a b : Ty} (h : classes.accepts a b = true) :
    Space.ofType a = Space.ofType b := by
  cases a with
  | data d =>
      cases b with
      | data e =>
          rcases Bool.or_eq_true_iff.1 h with hsame | hboolean
          · rw [of_decide_eq_true hsame]
          · simp only [Bool.and_eq_true, decide_eq_true_eq] at hboolean
            rw [hboolean.1, hboolean.2]
            rfl
      | object c => cases h
  | object c =>
      cases b with
      | data e =>
          rw [of_decide_eq_true (p := e = .null) h]
          rfl
      | object c' => rfl

theorem space_copiesOfCall (g : Generation) (body : Nat) {classes : Hierarchy} (hfits : CallFits classes ins f)
    (hv : varOf ins.result = some v) :
    ∀ b ∈ copiesOfCall g body f ins.arguments v, b.1.space = b.2.space := by
  have hvar : ∀ {r : Option Reference} {w : Variable}, varOf r = some w →
      ∃ x, r = some x ∧ x.type = w.type := by
    intro r w hw
    cases r with
    | none => cases hw
    | some x => exact ⟨x, rfl, (type_of_var? hw).2⟩
  intro b hb
  rcases List.mem_cons.1 hb with rfl | hb
  · obtain ⟨r, hr, htype⟩ := hvar hv
    have haccepts := (hfits.result r hr).2
    rw [htype] at haccepts
    rw [space_slot, Layout.returnSlot, space_place, space_of_accepts haccepts]
  · obtain ⟨p, hp, hback⟩ := List.mem_filterMap.1 hb
    unfold copyBack? at hback
    split at hback
    · cases hback
    · obtain ⟨w, hw, rfl⟩ := Option.map_eq_some_iff.1 hback
      obtain ⟨a, ha, hw⟩ := Option.bind_eq_some_iff.1 hw
      obtain ⟨x, hx, htype⟩ := hvar hw
      have haccepts := hfits.accepted p hp a ha x hx
      rw [htype] at haccepts
      rw [space_slot, Layout.paramSlot, space_place, space_of_accepts haccepts]

/-! ## The run of a call -/

theorem runs_commandsOfCall_iff {G : Game} {M N : Memory}
    (hspaces : ∀ b ∈ copiesOfCall g body f args v, b.1.space = b.2.space) :
    Runs G (commandsOfCall g body f args v) M N ↔
      ∃ M₁ M₂ callee, Runs G (f.params.flatMap (passes g body args)) M M₁ ∧
        G.functions (g.regions.functionRef g.ns body) = some callee ∧ Runs G callee M₁ M₂ ∧
          N = M₂.copiedAll (copiesOfCall g body f args v) := by
  have hcontrol : ∀ c ∈ f.params.flatMap (passes g body args), c.isControl = false := by
    intro c hc
    obtain ⟨p, -, hc⟩ := List.mem_flatMap.1 hc
    exact isControl_passes c hc
  rw [commandsOfCall, runs_append_iff hcontrol]
  constructor
  · rintro ⟨M₁, hpasses, hcall⟩
    obtain ⟨callee, M₂, hcallee, hbody, hcopies⟩ := runs_call_iff.1 hcall
    exact ⟨M₁, M₂, callee, hpasses, hcallee, hbody, (runs_copies_iff hspaces).1 hcopies⟩
  · rintro ⟨M₁, M₂, callee, hpasses, hcallee, hbody, hcopies⟩
    exact ⟨M₁, hpasses, runs_call_iff.2 ⟨callee, M₂, hcallee, hbody, (runs_copies_iff hspaces).2 hcopies⟩⟩

/-- The copies that a call makes behind the returned value spare a slot. -/
def SparesResult (g : Generation) (body : Nat) (args : List Argument) (ps : List Parameter) (dst : Slot) : Prop :=
  ∀ b ∈ copiesBack g body args ps, b.1 = b.2 ∨ ¬b.1.Overlaps dst

/-- The copies that a call makes behind the returned value give a slot the object of a parameter, and no
other of them gets in the way. -/
def Rebinds (g : Generation) (body : Nat) (args : List Argument) (ps : List Parameter) (dst src : Slot) : Prop :=
  ∃ front rest, copiesBack g body args ps = front ++ (dst, src) :: rest ∧
    (∀ b ∈ front ++ rest, ¬b.1.Overlaps dst) ∧ ¬dst.Overlaps src ∧ ∀ b ∈ front, ¬b.1.Overlaps src

/-- A method call leaves the returned value in its result if no object that is copied back overlaps it; a
result that is itself bound to an object parameter ends up with the object of the parameter. -/
theorem callMethod_returns {p : Program} {i : Nat} (hvalid : p.isValid = true) (hi : p.code[i]? = some ins)
    (hop : ins.op = .callMethod) (hf : ins.function? = some f) (hv : varOf ins.result = some v)
    (hbody : g.bodyOf? f = some body) (hyields : Yields (processors.find ins.op ins) g () g') :
    g' = g.emit (commandsOfCall g body f ins.arguments v) ∧
      (∀ (G : Game) M N, Runs G (commandsOfCall g body f ins.arguments v) M N ↔
        ∃ M₁ M₂ callee, Runs G (f.params.flatMap (passes g body ins.arguments)) M M₁ ∧
          G.functions (g.regions.functionRef g.ns body) = some callee ∧ Runs G callee M₁ M₂ ∧
            N = M₂.copiedAll (copiesOfCall g body f ins.arguments v)) ∧
      ∀ (M : Memory) w, M.value? (Layout.returnSlot g body f.returnType) = some w →
        ((Layout.slot g v).space = .storage → M.Admits (Layout.slot g v)) →
          (SparesResult g body ins.arguments f.params (Layout.slot g v) →
            (M.copiedAll (copiesOfCall g body f ins.arguments v)).value? (Layout.slot g v) = some w) ∧
          ∀ src u, Rebinds g body ins.arguments f.params (Layout.slot g v) src → M.value? src = some u →
            (M.copiedAll (copiesOfCall g body f ins.arguments v)).value? (Layout.slot g v) = some u := by
  obtain ⟨t, ht, -⟩ := p.isValid_iff_at.1 hvalid
  obtain ⟨c, f', -, hf', -, hfits⟩ := (Program.wellFormed hvalid ht).callMethod i ins hi hop
  obtain rfl : f = f' := Option.some.inj (hf.symm.trans hf')
  have hfind : processors.find .callMethod = callMethod := rfl
  rw [hop, hfind] at hyields
  have haccepted := ((decides_callMethod ins).ensures () g' hyields).1
  rw [hf, Option.any_some, callsBody, Bool.and_eq_true, Bool.and_eq_true, List.all_eq_true] at haccepted
  have hreturn : f.returnType ≠ Ty.null := by
    cases hresult : ins.result with
    | none =>
        rw [hresult] at hv
        cases hv
    | some r => exact (hfits.result r hresult).1
  have hspaces := space_copiesOfCall g body hfits hv
  have hcommands := callMethod_yields hf hbody hv hreturn haccepted.2.1
  refine ⟨(Prod.mk.inj (hyields.symm.trans hcommands)).2, fun G M N => runs_commandsOfCall_iff hspaces,
    fun M w hw hadmits => ⟨Memory.value?_of_spared hadmits (hspaces _ List.mem_cons_self) hw, ?_⟩⟩
  rintro src u ⟨front, rest, hsplit, hothers, hsrc, hfront⟩ hu
  have hmem : (Layout.slot g v, src) ∈ copiesBack g body ins.arguments f.params := by
    rw [hsplit]
    simp
  exact Memory.value?_of_rebound hadmits hsplit (hspaces _ (List.mem_cons_of_mem _ hmem)) hothers hsrc hfront hu

private def node : ClassRef := ⟨"node", "Node"⟩
private def object (id : String) : Variable := { id, name := id, type := .object node }
private def receiver : Parameter := ⟨{ object "self" with kind := .parameter }, false, none⟩
private def next : Function :=
  { id := "next", name := "next", params := [receiver], returnType := .object node, kind := .method }

/-- The method is called on `x`, and what it returns is stored. -/
def callNext (result : String) : Instruction :=
  .callMethod (some (.var (object result))) node next [⟨"self", some (.var (object "x"))⟩]

/-- A method that returns null, and a call of it. -/
def stepping (result : String) : Program where
  classes := [{ ref := node, methods := [next] }]
  code :=
    [.function next, .scopeBegin "next" .function, .ret (some (.literal .null)), .scopeEnd "next" .function,
      .declare (some (.var (object "x"))), .declare (some (.var (object "y"))), callNext result]

theorem isValid_stepping (id : String) : (stepping id).isValid = true := by
  have haccepts : ∀ (h : Hierarchy) c, h.accepts (.object c) (.object c) = true := by
    intro h c
    simp [Hierarchy.accepts, Hierarchy.isSubclass, Hierarchy.search]
  have hcall : ∀ e : Surroundings, e.classes = (stepping id).classes → e.callMethodDefects (callNext id) = [] := by
    intro e he
    refine callMethodDefects_eq_nil.2 ⟨node, next, rfl, rfl, by rw [he]; rfl, ?_, ?_, ?_, ?_⟩
    · intro p hp _
      obtain rfl := List.mem_singleton.1 hp
      exact ⟨_, List.mem_singleton_self _, rfl⟩
    · intro a ha
      obtain rfl := List.mem_singleton.1 ha
      exact .inl ⟨_, List.mem_singleton_self _, rfl⟩
    · intro p hp a ha x hx
      obtain rfl := List.mem_singleton.1 hp
      obtain rfl := Option.some.inj ha
      obtain rfl := Option.some.inj hx
      exact haccepts _ _
    · intro r hr
      obtain rfl := Option.some.inj hr
      exact ⟨by decide, haccepts _ _⟩
  refine (Program.isValid_iff_at _).2 ⟨_, rfl, fun i ins hi => ?_⟩
  have hlt : i < 7 := (List.getElem?_eq_some_iff.1 hi).1
  interval_cases i <;> cases Option.some.inj hi
  -- only the call is checked against the classes
  · rfl
  · rfl
  · rfl
  · rfl
  · rfl
  · rfl
  · exact hcall (surroundings (stepping id).classes (stepping id).code _) rfl

/-- A game that has the body of the method and nothing else. -/
def methodGame : Game where
  functions f :=
    if f = "mcfc:mcfc/next" then some [.setData (.storage "mcfc:vars" "mcfc.next.return") .null, .ret 0] else none
  reads _ := none
  spells _ := ""
  other _ _ _ := False

/-- An object with a property. -/
private def coin : Data := .compound fun key => if key = "worth" then some (.number 1) else none

private def selfSlot : Slot := .storage "mcfc:vars" "mcfc.next.self"
private def returned : Slot := .storage "mcfc:vars" "mcfc.next.return"
private def xSlot : Slot := .storage "mcfc:vars" "mcfc.x"
private def ySlot : Slot := .storage "mcfc:vars" "mcfc.y"

private theorem place_object {path : String} (h : holder path = path) :
    place "mcfc" path (.object node) = .storage "mcfc:vars" path := congrArg (Slot.storage "mcfc:vars") h

/-- What a generation that has come to the call knows of the method and the variables. -/
private structure Arrived (g : Generation) : Prop where
  ns : g.ns = "mcfc"
  body : g.bodyOf? next = some 1
  root : g.regions.absolutePath 0 = "mcfc"
  segments : g.regions.segments 1 = ["mcfc", "next"]
  x : g.regions.lookup g.current "x" = some (0, object "x")
  y : g.regions.lookup g.current "y" = some (0, object "y")
  commands : g.commandsAt 1 = [.setData (place "mcfc" "mcfc.next.return" (.object node)) .null, .ret 0]

private theorem exists_arrived (result : String) :
    ∃ g₀ g, start {} (stepping result) [] toString = .ok g₀ ∧
      processFrom processors 0 g₀ ((stepping result).code.take 6) = (g, none) ∧ Arrived g :=
  ⟨_, _, rfl, rfl, rfl, rfl, rfl, rfl, rfl, rfl, rfl⟩

namespace Arrived

variable {result id : String} (h : Arrived g)

include h

theorem slot (hid : holder ("mcfc" ++ "." ++ id) = "mcfc" ++ "." ++ id)
    (hlookup : g.regions.lookup g.current id = some (0, object id)) :
    Layout.slot g (object id) = .storage "mcfc:vars" ("mcfc" ++ "." ++ id) := by
  have hpath : g.regions.symbolPath g.current id = "mcfc" ++ "." ++ id := by
    simp only [Regions.symbolPath, hlookup, h.root]
  have hslot : Layout.slot g (object id) = place g.ns (g.regions.symbolPath g.current id) (.object node) := rfl
  rw [hslot, hpath, h.ns, place_object hid]

theorem slot_x : Layout.slot g (object "x") = xSlot := h.slot (holder_eq_self (by decide)) h.x

theorem slot_y : Layout.slot g (object "y") = ySlot := h.slot (holder_eq_self (by decide)) h.y

theorem absolutePath_next : g.regions.absolutePath 1 = "mcfc.next" := by
  rw [Regions.absolutePath, h.segments]
  rfl

theorem returnSlot_next : Layout.returnSlot g 1 next.returnType = returned := by
  rw [Layout.returnSlot, h.ns, h.absolutePath_next]
  exact place_object (holder_eq_self (by decide))

theorem paramSlot_receiver : Layout.paramSlot g 1 receiver = selfSlot := by
  rw [Layout.paramSlot, h.ns, h.absolutePath_next]
  exact place_object (holder_eq_self (by decide))

theorem functionRef_next : g.regions.functionRef g.ns 1 = "mcfc:mcfc/next" := by
  have hself : ∀ s, isIdentifier s = true → Regions.resourceSegment s = s := fun _ => resourceSegment_identifier
  rw [Regions.functionRef, Regions.functionPath, h.segments, h.ns]
  simp [hself "mcfc" (by decide), hself "next" (by decide)]

theorem passes_next (result : String) :
    next.params.flatMap (passes g 1 (callNext result).arguments) = [.copyData selfSlot xSlot] := by
  have hoperand : operandOf g (valueFor (callNext result).arguments receiver) = some (.slot xSlot) := by
    rw [← h.slot_x]
    rfl
  have hpasses : passes g 1 (callNext result).arguments receiver = [.copyData selfSlot xSlot] := by
    rw [passes, hoperand, h.paramSlot_receiver]
    rfl
  simp [next, hpasses]

theorem copiesOfCall_next (result : String) :
    copiesOfCall g 1 next (callNext result).arguments (object result) =
      [(Layout.slot g (object result), returned), (xSlot, selfSlot)] := by
  have hback : copyBack? g 1 (callNext result).arguments receiver = some (xSlot, selfSlot) := by
    rw [← h.slot_x, ← h.paramSlot_receiver]
    rfl
  simp [copiesOfCall, copiesBack, next, hback, ← h.returnSlot_next]

end Arrived

private theorem functions_next :
    methodGame.functions "mcfc:mcfc/next" = some [.setData returned .null, .ret 0] := rfl

/-- A state in which `x` is an object. -/
private def holding : Memory := (Memory.mk (fun _ => none) fun _ => .empty).set xSlot coin

/-- The state when the method has returned. -/
private def stepped : Memory := (holding.set selfSlot coin).set returned .empty

private theorem runs_copyData_iff {U : Memory} :
    Runs methodGame [.copyData selfSlot xSlot] holding U ↔ U = holding.set selfSlot coin :=
  (runs_plain_iff rfl).trans runs_nil_iff

private theorem runs_next_iff {U : Memory} :
    Runs methodGame [.setData returned .null, .ret 0] (holding.set selfSlot coin) U ↔ U = stepped :=
  (runs_plain_iff rfl).trans runs_ret_iff

private theorem callNext_yields (result : String) (hbody : g.bodyOf? next = some 1) :
    Yields (processors.find .callMethod (callNext result)) g ()
      (g.emit (commandsOfCall g 1 next (callNext result).arguments (object result))) := by
  have hargs : ∀ p ∈ next.params, binds (callNext result).arguments p = true := by
    intro p hp
    obtain rfl := List.mem_singleton.1 hp
    rfl
  have hf : (callNext result).function? = some next := rfl
  exact callMethod_yields hf hbody rfl (by decide) hargs

/-- The method returns null, and so does the call into `y`. -/
theorem callMethod_returns_apart :
    ∃ g₀ g cs N, start {} (stepping "y") [] toString = .ok g₀ ∧
      processFrom processors 0 g₀ ((stepping "y").code.take 6) = (g, none) ∧
      Yields (processors.find .callMethod (callNext "y")) g () (g.emit cs) ∧
      (∀ U, Runs methodGame cs holding U ↔ U = N) ∧ N.value? returned = some .empty ∧
      N.value? ySlot = some .empty := by
  obtain ⟨g₀, g, hstart, hwalk, harrived⟩ := exists_arrived "y"
  have hyields := callNext_yields "y" harrived.body
  obtain ⟨-, hruns, hvalue⟩ :=
    callMethod_returns (isValid_stepping "y") (i := 6) rfl rfl rfl rfl harrived.body hyields
  have hcopies := harrived.copiesOfCall_next "y"
  have hend : ∀ U, Runs methodGame (commandsOfCall g 1 next (callNext "y").arguments (object "y")) holding U ↔
      U = stepped.copiedAll [(ySlot, returned), (xSlot, selfSlot)] := by
    intro U
    rw [hruns, harrived.passes_next, harrived.functionRef_next]
    simp [runs_copyData_iff, functions_next, runs_next_iff, hcopies, harrived.slot_y]
  have hspares : SparesResult g 1 (callNext "y").arguments next.params ySlot := by
    have hapart : ¬xSlot.Overlaps ySlot := by
      rw [Slot.overlaps_storage_iff rfl rfl]
      decide
    rw [SparesResult, (List.cons.inj hcopies).2]
    simpa using .inr hapart
  have hadmits : stepped.Admits ySlot := by
    refine Data.opens_cons_iff.2 ⟨_, rfl, fun front hfront e he => ?_⟩
    obtain rfl := List.prefix_nil.1 hfront
    exact ⟨_, (Option.some.inj he).symm⟩
  have hreturned : stepped.value? (Layout.returnSlot g 1 next.returnType) = some .empty := by
    rw [harrived.returnSlot_next]
    rfl
  rw [harrived.slot_y] at hvalue
  have hy := (hvalue stepped .empty hreturned fun _ => hadmits).1 hspares
  rw [hcopies, harrived.slot_y] at hy
  exact ⟨g₀, g, _, _, hstart, hwalk, hyields, hend, rfl, hy⟩

/-- The method returns null, and its result, to which the object is bound as well, is the object. -/
theorem callMethod_rebinds :
    (stepping "x").isValid = true ∧
      ∃ g₀ g cs N, start {} (stepping "x") [] toString = .ok g₀ ∧
        processFrom processors 0 g₀ ((stepping "x").code.take 6) = (g, none) ∧
        (stepping "x").code[6]? = some (callNext "x") ∧
        Yields (processors.find .callMethod (callNext "x")) g () (g.emit cs) ∧
        methodGame.functions (g.regions.functionRef g.ns 1) = some (g.commandsAt 1) ∧
        (∀ U, Runs methodGame cs holding U ↔ U = N) ∧ N.value? returned = some .empty ∧
        N.value? xSlot = some coin := by
  obtain ⟨g₀, g, hstart, hwalk, harrived⟩ := exists_arrived "x"
  have hyields := callNext_yields "x" harrived.body
  have hcopies := harrived.copiesOfCall_next "x"
  have hspaces : ∀ b ∈ copiesOfCall g 1 next (callNext "x").arguments (object "x"), b.1.space = b.2.space := by
    rw [hcopies, harrived.slot_x]
    decide
  have hend : ∀ U, Runs methodGame (commandsOfCall g 1 next (callNext "x").arguments (object "x")) holding U ↔
      U = stepped.copiedAll [(xSlot, returned), (xSlot, selfSlot)] := by
    intro U
    rw [runs_commandsOfCall_iff hspaces, harrived.passes_next, harrived.functionRef_next]
    simp [runs_copyData_iff, functions_next, runs_next_iff, hcopies, harrived.slot_x]
  refine ⟨isValid_stepping "x", g₀, g, _, _, hstart, hwalk, rfl, hyields, ?_, hend, rfl, rfl⟩
  rw [harrived.functionRef_next, functions_next, harrived.commands, place_object (holder_eq_self (by decide))]
  rfl

end Datapack.Generation
