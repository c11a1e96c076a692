import Datapack.Proofs.Command.Expressible
import Datapack.Proofs.Generation.Errors
import Datapack.Proofs.Lookup

/-!
# Accepted instructions

Which instructions the generator expresses, said without the commands it writes: `accepts` lists for every
opcode what its operands have to be and what has to be there for it.
-/

namespace Datapack.Generation

open Ir Command

variable {g : Generation}

/-! ## References -/

def isReadable (r : Option Reference) : Bool := (literalOf r).isSome || (varOf r).isSome

def isWritable (r : Option Reference) : Bool := (varOf r).isSome

def spaceOf (r : Option Reference) : Space := Space.ofType (typeOf r)

/-- What reading a reference gives, without its place. -/
def shapeOf (r : Option Reference) : Command.Operand :=
  match literalOf r with
  | some l => .literal l
  | none => .slot ⟨"", "", spaceOf r⟩

theorem literalOf_of_shape {l : Literal} {r : Option Reference}
    (h : (Command.Operand.literal l).shape = shapeOf r) : literalOf r = some l := by
  unfold shapeOf at h
  split at h
  · next l' hl' => rw [hl', Command.Operand.literal.inj h]
  · cases h

theorem spaceOf_of_shape {s : Slot} {r : Option Reference} (h : (Command.Operand.slot s).shape = shapeOf r) :
    literalOf r = none ∧ s.space = spaceOf r := by
  unfold shapeOf at h
  split at h
  · cases h
  · next hnone => exact ⟨hnone, congrArg Slot.space (Command.Operand.slot.inj h)⟩

/-- Whether the slots of a type can hold the value of a reference. -/
def stores (t : Ty) (r : Option Reference) : Bool :=
  Space.ofType t = .storage || (shapeOf r).isNumeric

theorem type_of_var? {r : Reference} {v : Variable} (h : r.var? = some v) :
    r.literal? = none ∧ r.type = v.type := by
  cases r with
  | var w =>
      obtain rfl := Option.some.inj h
      exact ⟨rfl, rfl⟩
  | const w =>
      obtain rfl := Option.some.inj h
      exact ⟨rfl, rfl⟩
  | _ => cases h

theorem decides_operand (r : Option Reference) :
    Decides (operand r) g (isReadable r) fun o => o.shape = shapeOf r := by
  unfold operand
  split
  · exact .throw _
  · exact .pure rfl
  · next r hliteral =>
    split
    · next v hv =>
      obtain ⟨hnone, htype⟩ := type_of_var? hv
      have hread : isReadable (some r) = true := by simp [isReadable, varOf, hv]
      have hshape : (Command.Operand.slot (Layout.slot g v)).shape = shapeOf (some r) := by
        simp [shapeOf, literalOf, hnone, Operand.shape, space_slot, spaceOf, typeOf, htype]
      exact .get_bind (hread ▸ .pure hshape)
    · next hv =>
      have hread : isReadable (some r) = false := by
        cases r with
        | literal l => exact absurd rfl (hliteral l)
        | var v => cases hv
        | const v => cases hv
        | _ => rfl
      exact (Decides.throw _).congr hread.symm

theorem slot_ne_nowhere (h : g.ns ≠ "") (v : Variable) : Layout.slot g v ≠ .nowhere := by
  have hplace : ∀ path t, place g.ns path t ≠ .nowhere := by
    intro path t heq
    unfold place at heq
    cases hspace : Space.ofType t with
    | score =>
        rw [hspace] at heq
        exact h (congrArg Slot.target heq)
    | storage =>
        rw [hspace] at heq
        cases congrArg Slot.space heq
  unfold Layout.slot
  split
  · split
    · exact hplace _ _
    · exact hplace _ _
  · exact hplace _ _

theorem decides_destination (r : Option Reference) :
    Decides (destination r) g (isWritable r)
      fun s => s.space = spaceOf r ∧ (g.ns ≠ "" → s ≠ .nowhere) := by
  unfold destination
  split
  · exact .throw _
  · next r =>
    split
    · next v hv =>
      have hwrite : isWritable (some r) = true := by simp [isWritable, varOf, hv]
      have hspace : (Layout.slot g v).space = spaceOf (some r) := by
        rw [space_slot, spaceOf, typeOf, Option.map_some, Option.getD_some, (type_of_var? hv).2]
      exact .get_bind ((Decides.pure ⟨hspace, fun hns => slot_ne_nowhere hns v⟩).congr hwrite.symm)
    · next hv =>
      have hwrite : isWritable (some r) = false := by simp [isWritable, varOf, hv]
      exact (Decides.throw _).congr hwrite.symm

theorem decides_emitAssign {dst : Slot} {t : Ty} (hdst : dst.space = Space.ofType t) {o : Command.Operand}
    {r : Option Reference} (ho : o.shape = shapeOf r) :
    Decides (Gen.emitLowered (assign dst o)) g (stores t r) fun _ => True := by
  refine (Decides.emitLowered _).congr ?_
  rw [isOk_assign, hdst, ← isNumeric_shape, ho, stores]

/-! ## Library functions -/

/-- Whether a library function can be called, given whether its result is copied and which inputs there
are. -/
def callsLibrary (name : String) (copied : Bool) (has : String → Bool) : Bool :=
  (libraries.find? (·.name = name)).any fun l => (name = "concat" && copied) || l.params.all has

theorem decides_stageInputs (l : Library) {io : Slot} (hio : io.space = .storage) (args : Arguments) :
    Decides (stageInputs l io args) g (l.params.all fun p => (args.lookup p).isSome) fun _ => True := by
  unfold stageInputs
  refine (Decides.mapM fun p _ g' _ => ?_).followed fun _ _ _ _ => .pure trivial
  refine (Decides.orFail (Q := fun _ => True) fun _ _ => trivial).followed fun o g'' _ _ => ?_
  have hok : (assign (io.child p) o).isOk = true := by
    rw [isOk_assign]
    exact Bool.or_eq_true_iff.2 (.inl (decide_eq_true hio))
  split
  · exact .pure trivial
  · next u hu =>
    rw [hu] at hok
    cases hok

theorem decides_callLibrary (name : String) (dst : Slot) (args : Arguments) :
    Decides (callLibrary name dst args) g
      (callsLibrary name (dst ≠ .nowhere) fun p => (args.lookup p).isSome) fun _ => True := by
  unfold callLibrary callsLibrary
  refine (Decides.orFail fun _ h => h).any fun l g _ _ => .get_bind ?_
  extract_lets io ref finish side
  have hfinish : ∀ cs g, Decides (finish cs) g true fun _ => True := fun cs g =>
    (Decides.change (.addHelper g _ _)).after fun _ _ _ _ => .pure trivial
  split
  · next hconcat =>
    rw [hconcat, Bool.true_or]
    -- the inputs of a concatenation are data, which takes any value
    have hok : ∀ l r, (concat dst l r io ref).isOk = true := by
      intro l r
      unfold concat
      rw [isOk_bind fun _ _ => isOk_bind (b := true) fun _ _ => rfl, isOk_assign, isOk_assign]
      rfl
    split
    · next cs _ => exact (Decides.pure (Q := fun _ => True) trivial).after fun cs g' _ _ => hfinish cs g'
    · next u hu =>
      have herror := hok (side "left") (side "right")
      rw [hu] at herror
      cases herror
  · next hconcat =>
    rw [Bool.eq_false_iff.2 hconcat, Bool.false_or]
    refine (decides_stageInputs l rfl args).followed fun staged g' _ _ => ?_
    exact (Decides.pure (Q := fun _ => True) trivial).after fun cs g'' _ _ => hfinish cs g''

theorem decides_emitLibrary {name : String} {dst : Slot} {args : Arguments} {b : Bool}
    (h : callsLibrary name (dst ≠ .nowhere) (fun p => (args.lookup p).isSome) = b) :
    Decides (callLibrary name dst args >>= Gen.emit) g b fun _ => True :=
  ((decides_callLibrary name dst args).followed fun cs _ _ _ => .emit cs).congr h

/-! ## Data instructions -/

theorem decides_assignment (ins : Instruction) :
    Decides (assignment ins) g
      (isWritable (ins.refAt 0) && (isReadable (ins.refAt 1) && stores (typeOf (ins.refAt 0)) (ins.refAt 1)))
      fun _ => True :=
  (decides_destination _).bind fun _ _ _ ⟨hdst, _⟩ => (decides_operand _).bind fun _ _ _ hsrc =>
    decides_emitAssign hdst hsrc

def joinsTexts (ins : Instruction) : Bool :=
  ins.binaryOperator = .add && typeOf (ins.refAt 0) = .data .string

theorem decides_binary (ins : Instruction) :
    Decides (binary ins) g
      (isWritable (ins.refAt 0) && (isReadable (ins.refAt 2) && (isReadable (ins.refAt 3)
        && (joinsTexts ins || computes (spaceOf (ins.refAt 0)) ins.binaryOperator (shapeOf (ins.refAt 2))
          (shapeOf (ins.refAt 3))))))
      fun _ => True := by
  unfold binary
  refine (decides_destination _).bind fun dst _ _ ⟨hdst, _⟩ => (decides_operand _).bind fun l _ _ hl =>
    (decides_operand _).bind fun r g' _ hr => ?_
  unfold joinsTexts
  split
  · next hjoins =>
    rw [hjoins]
    exact decides_emitLibrary (by simp [callsLibrary, libraries])
  · next hjoins =>
    refine .get_bind ((Decides.emitLowered _).congr ?_)
    rw [isOk_binaryOp, hdst, ← computes_shape, hl, hr, Bool.eq_false_iff.2 hjoins, Bool.false_or]

theorem decides_comparison (ins : Instruction) :
    Decides (comparison ins) g
      (isWritable (ins.refAt 0) && (isReadable (ins.refAt 2) && (isReadable (ins.refAt 3)
        && compares ins.compareOperator (shapeOf (ins.refAt 2)) (shapeOf (ins.refAt 3)))))
      fun _ => True := by
  unfold comparison
  refine (decides_destination _).bind fun dst _ _ _ => (decides_operand _).bind fun l _ _ hl =>
    (decides_operand _).bind fun r g' _ hr => .get_bind ((Decides.emitLowered _).congr ?_)
  rw [isOk_compare _ rfl, ← compares_shape, hl, hr]

theorem decides_unary (ins : Instruction) :
    Decides (unary ins) g
      (isWritable (ins.refAt 0) && (isReadable (ins.refAt 2)
        && transforms (spaceOf (ins.refAt 0)) ins.unaryOperator (shapeOf (ins.refAt 2))))
      fun _ => True := by
  unfold unary
  refine (decides_destination _).bind fun dst _ _ ⟨hdst, _⟩ => (decides_operand _).bind fun x g' _ hx =>
    .get_bind ((Decides.emitLowered _).congr ?_)
  rw [isOk_unaryOp, hdst, ← transforms_shape, hx]

def converts (into : Space) (target : DataType) (r : Option Reference) : Bool :=
  match literalOf r with
  | some l => (evalCast target l).any fun v => into = .storage || v.int?.isSome
  | none => target = .string || typeOf r ≠ .data .string

theorem decides_castSlot (dst : Slot) (target : DataType) (source : Ty) (src : Slot) :
    Decides (castSlot dst target source src) g (target = .string || source ≠ .data .string) fun _ => True := by
  unfold castSlot
  split
  · next h =>
    have hstring : target = .string := of_decide_eq_true (Bool.and_eq_true_iff.1 h).1
    exact decides_emitLibrary (by simp [callsLibrary, libraries, hstring])
  · split
    · next h =>
      have hsource : source = .data .int := of_decide_eq_true (Bool.and_eq_true_iff.1 h).2
      exact .get_bind ((Decides.emit _).congr (by simp [hsource]))
    · split
      · next h => exact (Decides.throw _).congr (by simpa using h)
      · next h =>
        have hfree : target = .string ∨ source ≠ .data .string := by
          by_contra hnot
          exact h (by simpa using not_or.1 hnot)
        exact (Decides.emit _).congr (by simpa using hfree)

theorem decides_conversion (ins : Instruction) :
    Decides (conversion ins) g
      (isWritable (ins.refAt 0) && (isReadable (ins.refAt 2)
        && converts (spaceOf (ins.refAt 0)) ins.castTarget (ins.refAt 2)))
      fun _ => True := by
  unfold conversion
  refine (decides_destination _).bind fun dst _ _ ⟨hdst, _⟩ => (decides_operand _).bind fun o g' _ ho => ?_
  unfold converts
  cases o with
  | literal l =>
      rw [literalOf_of_shape ho]
      dsimp only
      cases evalCast ins.castTarget l with
      | none => exact .throw _
      | some v => exact (Decides.emitLowered _).congr (by rw [isOk_store, hdst]; rfl)
  | slot s =>
      rw [(spaceOf_of_shape ho).1]
      exact decides_castSlot _ _ _ _

theorem decides_newObject (ins : Instruction) :
    Decides (newObject ins) g (isWritable (ins.refAt 0)) fun _ => True :=
  (decides_destination _).followed fun _ _ _ _ => .emit _

def hasProperties (r : Option Reference) : Bool :=
  isReadable r && ((literalOf r).isNone && spaceOf r = .storage)

theorem decides_propertySlot (obj : Option Reference) (name : String) :
    Decides (propertySlot obj name) g (hasProperties obj) fun s => s.space = .storage := by
  unfold propertySlot
  refine (decides_operand _).bind fun o _ _ ho => ?_
  cases o with
  | literal l =>
      rw [literalOf_of_shape ho]
      exact .throw _
  | slot s =>
      obtain ⟨hnone, hspace⟩ := spaceOf_of_shape ho
      rw [hnone, ← hspace]
      dsimp only
      split
      · next h =>
        have hstorage : ((none : Option Literal).isNone && decide (s.space = Space.storage)) = true := by simp [h]
        exact hstorage ▸ .pure h
      · next h => exact (Decides.throw _).congr (by simpa using h)

theorem decides_getProperty (ins : Instruction) :
    Decides (getProperty ins) g (hasProperties ins.propertyObject && isWritable ins.propertyOther)
      fun _ => True :=
  (decides_propertySlot _ _).bind fun _ _ _ _ => (decides_destination _).followed fun _ _ _ _ => .emit _

theorem decides_setProperty (ins : Instruction) :
    Decides (setProperty ins) g (hasProperties ins.propertyObject && isReadable ins.propertyOther)
      fun _ => True := by
  unfold setProperty
  refine (decides_propertySlot _ _).bind fun dst _ _ hdst => (decides_operand _).followed fun src _ _ _ =>
    (Decides.emitLowered _).congr ?_
  rw [isOk_assign, hdst]
  rfl

/-! ## Control flow -/

theorem decides_regionNamed (name : String) :
    Decides (regionNamed name) g (g.resolve name).isSome fun _ => True :=
  .get_bind (.orFail fun _ _ => trivial)

theorem decides_afterCall (n : Nat) : Decides (afterCall n) g true fun _ => True := by
  obtain ⟨checks, g', hyields, hlowers, -⟩ := exists_afterCall g n
  exact .of_yields hyields (.of_lowers hlowers) trivial

theorem decides_settle (ns : List Nat) : Decides (settle ns) g true fun _ => True := by
  refine (Decides.forM (p := fun _ => true) fun n _ g' _ => ?_).congr (by simp)
  exact (decides_afterCall n).after fun _ _ _ _ => .emit _

theorem decides_jumpTo (name : String) :
    Decides (jumpTo name) g (g.resolve name).isSome fun _ => True := by
  unfold jumpTo
  refine (decides_regionNamed name).followed fun n g' _ _ => .get_bind ?_
  split
  · exact .emit _
  · refine (Decides.emit _).after fun _ g₁ _ _ => ?_
    have hsettle := decides_settle (g := g₁) [n]
    rwa [settle_singleton] at hsettle

theorem decides_branchTo (flag : Slot) (p : Polarity) (name : String) :
    Decides (branchTo flag p name) g (name = "" || (g.resolve name).isSome) fun _ => True := by
  unfold branchTo
  split
  · next h => exact (Decides.pure trivial).congr (by simp [h])
  · next h =>
    refine ((decides_regionNamed name).followed fun n g' _ _ => .get_bind ?_).congr (by simp [h])
    exact (Decides.emit _).after fun _ _ _ _ => .pure trivial

theorem decides_condJump (ins : Instruction) :
    Decides (condJump ins) g
      (isReadable ins.condition && (branches ins).all fun x => (g.resolve x).isSome) fun _ => True := by
  unfold condJump
  refine (decides_operand _).bind fun o g₁ hcalm ho => ?_
  cases o with
  | literal l =>
      have hcondition : ins.condition = some (.literal l) := by
        have hliteral := literalOf_of_shape ho
        unfold literalOf at hliteral
        obtain ⟨r, hr, hl⟩ := Option.bind_eq_some_iff.1 hliteral
        cases r with
        | literal l' => rw [hr, Option.some.inj hl]
        | _ => cases hl
      unfold branches
      simp only [hcondition]
      generalize (if l.truthy?.getD false then ins.onTrue else ins.onFalse) = name
      split
      · next hname => exact (Decides.pure trivial).congr (by simp [hname])
      · next hname => exact (decides_jumpTo _).congr (by simp [hname, hcalm.alike.resolve])
  | slot s =>
      have hbranches : branches ins = [ins.onTrue, ins.onFalse].filter (· ≠ "") := by
        unfold branches
        split
        · next l hl =>
          rw [hl] at ho
          cases ho
        · rfl
      have hrest : ∀ flag g₂, Calm g₁ g₂ → Decides
          (do
            let onTrue ← branchTo flag .fails ins.onTrue
            let onFalse ← branchTo flag .holds ins.onFalse
            settle (onTrue ++ onFalse)) g₂ ((branches ins).all fun x => (g.resolve x).isSome) fun _ => True := by
        intro flag g₂ hcalm'
        have hcalm₂ := hcalm.trans hcalm'
        have hsides : (branches ins).all (fun x => (g.resolve x).isSome)
            = ((ins.onTrue = "" || (g.resolve ins.onTrue).isSome)
              && (ins.onFalse = "" || (g.resolve ins.onFalse).isSome)) := by
          rw [hbranches]
          by_cases htrue : ins.onTrue = "" <;> by_cases hfalse : ins.onFalse = "" <;> simp [htrue, hfalse]
        rw [hsides]
        refine Decides.bind (Q := fun _ => True) ?_ fun ns g₃ hcalm₃ _ =>
          Decides.followed (Q := fun _ => True) ?_ fun ms g₄ _ _ => decides_settle _
        · rw [← hcalm₂.alike.resolve]
          exact decides_branchTo flag .fails ins.onTrue
        · rw [← (hcalm₂.trans hcalm₃).alike.resolve]
          exact decides_branchTo flag .holds ins.onFalse
      dsimp only
      split
      · refine Decides.after (Q := fun _ => True) ?_ fun name g₂ hcalm₂ _ => .get_bind ?_
        · exact .of_yields (.freshName _) ⟨⟨rfl, rfl, rfl, rfl, rfl, rfl, rfl⟩, rfl⟩ trivial
        · exact (Decides.emit _).after fun _ g₃ hcalm₃ _ => hrest _ g₃ (hcalm₂.trans hcalm₃)
      · exact hrest s g₁ (.refl _)

def loopAt? (g : Generation) (name : String) : Option Nat :=
  match (if name = "" then none else g.resolve name).filter fun n => (g.regions.at? n).kind = .loop with
  | some n => some n
  | none => g.regions.enclosing g.current [.loop]

theorem decides_loopOf (name : String) :
    Decides (loopOf name) g (loopAt? g name).isSome fun n => loopAt? g name = some n := by
  unfold loopOf loopAt?
  refine .get_bind ?_
  dsimp only
  generalize Option.filter (fun n => decide ((g.regions.at? n).kind = .loop))
    (if name = "" then none else g.resolve name) = named
  cases named with
  | some n => exact Decides.pure (Q := fun m => some n = some m) rfl
  | none => exact .orFail fun _ h => h

theorem decides_raise (kind : ExitKind) (flag : String) (consumer : Nat) :
    Decides (raise kind flag consumer) g true fun _ => True :=
  .of_yields (yields_raised g kind flag consumer) (.raised g flag _) trivial

theorem decides_breakLoop (ins : Instruction) :
    Decides (breakLoop ins) g (loopAt? g ins.jumpTarget).isSome fun _ => True :=
  (decides_loopOf _).followed fun _ _ _ _ => .get_bind (decides_raise _ _ _)

theorem isSome_parent? {loop body : Nat} (h : bodyOfLoop? g loop = some body) :
    (g.regions.parent? body).isSome = true := by
  have hfound := List.find?_some h
  simp only [Bool.and_eq_true, decide_eq_true_eq] at hfound
  obtain ⟨check, hcheck, -⟩ := Option.bind_eq_some_iff.1 hfound.2
  rw [hcheck]
  rfl

theorem Alike.bodyOfLoop? {g' : Generation} (h : Alike g g') (loop : Nat) :
    Generation.bodyOfLoop? g' loop = Generation.bodyOfLoop? g loop := by
  simp only [Generation.bodyOfLoop?, h.ancestors, h.current, h.kind, h.parent?, h.enclosing]

theorem decides_continueLoop (ins : Instruction) :
    Decides (continueLoop ins) g ((loopAt? g ins.jumpTarget).any fun loop => (bodyOfLoop? g loop).isSome)
      fun _ => True := by
  unfold continueLoop
  refine (decides_loopOf _).any fun loop g₁ hcalm _ => .get_bind ?_
  rw [← hcalm.alike.bodyOfLoop?]
  extract_lets missing
  refine (Decides.orFail (Q := fun body => (g₁.regions.parent? body).isSome = true) fun _ h =>
    isSome_parent? h).followed fun body g₂ _ hparent => ?_
  rw [← hparent]
  refine (Decides.orFail (Q := fun _ => True) fun _ _ => trivial).followed fun check g₃ _ _ => ?_
  split
  · exact .emit _
  · exact decides_raise _ _ _

theorem space_place (ns path : String) (t : Ty) : (place ns path t).space = Space.ofType t := by
  unfold place
  cases Space.ofType t <;> rfl

def returns (g : Generation) (body : Nat) (r : Option Reference) : Bool :=
  r.isNone || (g.ownerOf? body).any fun f => isReadable r && stores f.returnType r

theorem decides_storeReturn (body : Nat) (r : Option Reference) :
    Decides (storeReturn body r) g (returns g body r) fun _ => True := by
  unfold storeReturn returns
  cases r with
  | none => exact .pure trivial
  | some r =>
      refine .get_bind ((Decides.orFail fun _ h => h).any fun f _ _ _ =>
        (decides_operand _).bind fun src _ _ hsrc => ?_)
      exact decides_emitAssign (space_place _ _ _) hsrc

theorem decides_ret (ins : Instruction) :
    Decides (ret ins) g
      ((g.regions.enclosing g.current [.function]).all fun body => returns g body (ins.refAt 0))
      fun _ => True := by
  unfold ret
  refine .get_bind ?_
  cases g.regions.enclosing g.current [.function] with
  | none => exact .emit _
  | some body =>
      refine (decides_storeReturn _ _).followed fun _ _ _ _ => ?_
      split
      · exact .emit _
      · exact decides_raise _ _ _

/-! ## Calls -/

/-- The value bound to a parameter at a call, or its default. -/
def valueFor (args : List Argument) (p : Parameter) : Option Reference :=
  match args.find? (·.name = p.name) with
  | some a => a.value
  | none => p.default

/-- Whether a parameter gets a value at a call that its slot can hold. -/
def binds (args : List Argument) (p : Parameter) : Bool :=
  isReadable (valueFor args p) && stores p.type (valueFor args p)

def callsBody (g : Generation) (result : Option Reference) (f : Function) (args : List Argument) : Bool :=
  (g.bodyOf? f).isSome && (f.params.all (binds args)
    && (result.isNone || f.returnType = Ty.null || isWritable result))

theorem decides_argument (f : Function) (args : List Argument) (p : Parameter) (body : Nat) :
    Decides (do
      let src ← operand (← argumentFor f args p)
      Gen.emitLowered (assign (Layout.paramSlot (← get) body p) src)) g (binds args p) fun _ => True := by
  have hassign : ∀ r, Decides (do
      let src ← operand r
      Gen.emitLowered (assign (Layout.paramSlot (← get) body p) src)) g (isReadable r && stores p.type r)
        fun _ => True := fun r =>
    (decides_operand r).bind fun src _ _ hsrc => .get_bind (decides_emitAssign (space_place _ _ _) hsrc)
  unfold binds valueFor argumentFor
  cases args.find? (·.name = p.name) with
  | some a => exact hassign a.value
  | none =>
      cases p.default with
      | some d => exact hassign (some d)
      | none => exact Decides.bind (c := true) (Q := fun _ => False) (.throw _) fun _ _ _ h => h.elim

theorem decides_callBody (result : Option Reference) (f : Function) (args : List Argument) :
    Decides (callBody result f args) g (callsBody g result f args) fun _ => True := by
  unfold callBody callsBody
  refine .get_bind ((Decides.orFail (Q := fun _ => True) fun _ _ => trivial).bind fun body g₁ _ _ => ?_)
  refine (Decides.forM fun p _ g' _ => decides_argument f args p body).bind fun _ g₂ _ _ => .get_bind ?_
  refine (Decides.emit _).after fun _ g₃ _ _ => ?_
  cases result with
  | none => exact .pure trivial
  | some r =>
      dsimp only
      split
      · next h => exact (Decides.pure trivial).congr (by simp [h])
      · next h =>
        refine ((decides_destination _).followed fun dst _ _ _ => .get_bind ?_).congr (by simp [h])
        exact (Decides.emit _).after fun _ _ _ _ => .pure trivial

theorem decides_callMethod (ins : Instruction) :
    Decides (callMethod ins) g
      (ins.function?.any fun f => callsBody g ins.result f ins.arguments) fun _ => True := by
  unfold callMethod
  refine (Decides.orFail fun _ h => h).any fun f g₁ hcalm _ => ?_
  have hbody : callsBody g₁ ins.result f ins.arguments = callsBody g ins.result f ins.arguments := by
    simp only [callsBody, bodyOf?, hcalm.alike.functions]
  rw [← hbody]
  refine (decides_callBody _ _ _).followed fun body g₂ _ _ => ?_
  refine (Decides.forM (p := fun _ => true) fun p _ g₃ _ => ?_).congr (by simp)
  split
  · exact .pure trivial
  · next a _ =>
    split
    · exact .pure trivial
    · next h =>
      -- an object that is copied back is a variable
      have hwrite : isWritable a.value = true := by
        rw [Bool.or_eq_true, not_or] at h
        simpa [isWritable, Option.isNone_iff_eq_none, Option.isSome_iff_ne_none] using h.2
      exact ((decides_destination _).followed fun _ _ _ _ => .get_bind (.emit _)).congr hwrite

/-- The values of all arguments by name, without their places. -/
def shapesOf (args : List Argument) : Arguments := args.reverse.map fun a => (a.name, shapeOf a.value)

theorem decides_addArgument (acc : Arguments) (a : Argument) :
    Decides (addArgument acc a) g (isReadable a.value) fun values => ∀ p, (values.lookup p).map (·.shape)
      = if p = a.name then some (shapeOf a.value) else (acc.lookup p).map (·.shape) := by
  have hoperand := decides_operand (g := g) a.value
  constructor
  · intro hread
    obtain ⟨o, g', hyields⟩ := hoperand.succeeds hread
    exact ⟨_, g', run_addArgument_ok acc hyields⟩
  · intro values g' hyields
    unfold Yields at hyields
    rcases h : (operand a.value).run g with ⟨e | o, g₁⟩
    · rw [run_addArgument_error acc h] at hyields
      cases (Prod.mk.inj hyields).1
    · obtain ⟨hread, hcalm, ho⟩ := hoperand.ensures o g₁ h
      rw [run_addArgument_ok acc h] at hyields
      obtain ⟨hvalues, rfl⟩ := Prod.mk.inj hyields
      obtain rfl := Except.ok.inj hvalues
      refine ⟨hread, hcalm, fun p => ?_⟩
      rw [lookup_cons_ite, lookup_filter_fst_ne]
      by_cases hp : p = a.name
      · rw [if_pos hp, if_pos hp, Option.map_some, ho]
      · rw [if_neg hp, if_neg hp, if_neg hp]

theorem decides_addArguments (args : List Argument) (acc : Arguments) :
    Decides (args.foldlM addArgument acc) g (args.all (isReadable ·.value)) fun values =>
      ∀ p, (values.lookup p).map (·.shape)
        = ((shapesOf args).lookup p).or ((acc.lookup p).map (·.shape)) := by
  induction args generalizing acc g with
  | nil => exact .pure fun p => rfl
  | cons a args ih =>
      rw [List.foldlM_cons, List.all_cons]
      refine (decides_addArgument acc a).bind fun acc' g' _ hacc => (ih acc').post fun values hvalues p => ?_
      have hlast : (shapesOf (a :: args)).lookup p
          = ((shapesOf args).lookup p).or (if p = a.name then some (shapeOf a.value) else none) := by
        rw [shapesOf, List.reverse_cons, List.map_append, List.lookup_append, shapesOf]
        simp only [List.map_cons, List.map_nil, lookup_cons_ite, List.lookup_nil]
      rw [hvalues, hacc, hlast, Option.or_assoc]
      split <;> rfl

theorem decides_argumentValues (args : List Argument) :
    Decides (argumentValues args) g (args.all (isReadable ·.value)) fun values =>
      ∀ p, (values.lookup p).map (·.shape) = (shapesOf args).lookup p :=
  (decides_addArguments args []).post fun _ hvalues p => (hvalues p).trans Option.or_none

def templateArg : Command.Operand → TemplateArg
  | .literal l => .known (argumentForm l)
  | .slot s => .runtime s

def rendersTemplate (name : String) (args : Arguments) : Bool :=
  (builtinTemplates.find? (·.name = name)).any (·.takes (args.map fun x => (x.1, templateArg x.2)))

theorem quiet_renderTemplate_iff (name : String) (args : Arguments) :
    Quiet (renderTemplate name args) g ↔ rendersTemplate name args = true := by
  unfold renderTemplate
  rw [quiet_get_bind_iff]
  extract_lets renderer args'
  have hargs : args' = args.map fun x => (x.1, templateArg x.2) := by
    refine List.map_congr_left fun x _ => ?_
    obtain ⟨p, o⟩ := x
    cases o <;> rfl
  have hok : (renderer.render (g.newId (g.ids + 1)) name args').isOk = rendersTemplate name args := by
    rw [isOk_render, hargs]
    rfl
  split
  · next t objection h =>
    rw [h] at hok
    exact iff_of_false (not_quiet_report rfl) (hok ▸ Bool.false_ne_true)
  · next e _ h =>
    rw [h] at hok
    exact (Decides.throw (Q := fun _ => True) _).quiet_iff.trans (by rw [← hok]; rfl)
  · next r h =>
    rw [h] at hok
    rw [← hok]
    refine Decides.quiet_iff (Q := fun _ => True) ?_
    split
    · next path body _ =>
      have hadd := Calm.addHelper g path body
      have hcalm : Calm g { g.addHelper path body with ids := g.ids + 1 } :=
        hadd.trans ⟨⟨rfl, rfl, rfl, rfl, rfl, rfl, rfl⟩, rfl⟩
      exact (Decides.change hcalm).after fun _ _ _ _ => .emit _
    · exact .emit _

/-- Only what is known of the arguments matters, not their places. -/
theorem rendersTemplate_shapes {name : String} {args shapes : Arguments}
    (h : ∀ p, (args.lookup p).map (·.shape) = shapes.lookup p) :
    rendersTemplate name args = rendersTemplate name shapes := by
  refine congrArg (Option.any · _) (funext fun t => takes_congr fun p => ?_)
  rw [lookup_map, lookup_map, ← h]
  cases args.lookup p with
  | none => rfl
  | some o => cases o <;> rfl

def callsBuiltin (f : Function) (args : List Argument) : Bool :=
  args.all (isReadable ·.value)
    && (f.name = "print" || (f.name ∈ templateBuiltins && rendersTemplate f.name (shapesOf args)))

theorem quiet_callBuiltin_iff (ins : Instruction) (f : Function) :
    Quiet (callBuiltin ins f) g ↔ callsBuiltin f ins.arguments = true := by
  unfold callBuiltin callsBuiltin
  by_cases hprint : f.name = "print"
  · rw [if_pos hprint, decide_eq_true hprint, Bool.true_or, Bool.and_true]
    refine Decides.quiet_iff (Q := fun _ => True)
      ((Decides.mapM fun a _ g₁ _ => ?_).followed fun _ _ _ _ => .emit _)
    exact (decides_operand _).followed fun o _ _ _ => .get_bind (.pure trivial)
  · rw [if_neg hprint, decide_eq_false hprint, Bool.false_or]
    by_cases htemplate : f.name ∈ templateBuiltins
    · rw [if_pos htemplate, decide_eq_true htemplate, Bool.true_and]
      refine (decides_argumentValues ins.arguments).quiet_bind_iff fun values g₁ _ hvalues => ?_
      rw [quiet_renderTemplate_iff, rendersTemplate_shapes hvalues]
    · rw [if_neg htemplate, decide_eq_false htemplate, Bool.false_and, Bool.and_false]
      exact iff_of_false (not_quiet_report (severity_located _ _)) Bool.false_ne_true

def callsLibraryFunction (result : Option Reference) (f : Function) (args : List Argument) : Bool :=
  args.all (isReadable ·.value) && ((result.isNone || isWritable result)
    && callsLibrary f.name result.isSome fun p => ((shapesOf args).lookup p).isSome)

theorem decides_callLibraryFunction (hns : g.ns ≠ "") (ins : Instruction) (f : Function) :
    Decides (callLibraryFunction ins f) g (callsLibraryFunction ins.result f ins.arguments) fun _ => True := by
  unfold callLibraryFunction callsLibraryFunction
  refine (decides_argumentValues _).bind fun values g₁ hcalm hvalues => ?_
  have hhas : ∀ p, (values.lookup p).isSome = ((shapesOf ins.arguments).lookup p).isSome := by
    intro p
    rw [← hvalues, Option.isSome_map]
  cases ins.result with
  | none => exact decides_emitLibrary (by simp [hhas])
  | some r =>
      refine (decides_destination _).bind fun dst g₂ _ ⟨_, hdst⟩ => decides_emitLibrary ?_
      have hne := hdst (by rwa [hcalm.alike.ns])
      simp [hhas, hne]

def callsFunction (g : Generation) (result : Option Reference) (f : Function) (args : List Argument) : Bool :=
  match f.kind with
  | .builtin => callsBuiltin f args
  | .library => callsLibraryFunction result f args
  | _ => callsBody g result f args

theorem quiet_call_iff (hns : g.ns ≠ "") (ins : Instruction) :
    Quiet (call ins) g ↔ (ins.function?.any fun f => callsFunction g ins.result f ins.arguments) = true := by
  unfold call
  cases ins.function? with
  | none =>
      exact (Decides.bind (c := true) (Q := fun _ => False) (T := fun _ => True) (.throw _)
        fun _ _ _ h => h.elim).quiet_iff
  | some f =>
      change Quiet (match f.kind with
        | .builtin => callBuiltin ins f
        | .library => callLibraryFunction ins f
        | _ => discard (callBody ins.result f ins.arguments)) g
          ↔ callsFunction g ins.result f ins.arguments = true
      have hbody : Quiet (discard (callBody ins.result f ins.arguments)) g
          ↔ callsBody g ins.result f ins.arguments = true :=
        ((decides_callBody ins.result f ins.arguments).followed (T := fun _ => True)
          fun _ _ _ _ => .pure trivial).quiet_iff
      unfold callsFunction
      cases f.kind with
      | builtin => exact quiet_callBuiltin_iff ins f
      | library => exact (decides_callLibraryFunction hns ins f).quiet_iff
      | function => exact hbody
      | method => exact hbody

/-! ## Instructions -/

/-- Whether the generator expresses an instruction. -/
def accepts (g : Generation) (ins : Instruction) : Bool :=
  match ins.op with
  | .jump => (g.resolve ins.jumpTarget).isSome
  | .condJump => isReadable ins.condition && (branches ins).all fun x => (g.resolve x).isSome
  | .breakLoop => (loopAt? g ins.jumpTarget).isSome
  | .continueLoop => (loopAt? g ins.jumpTarget).any fun loop => (bodyOfLoop? g loop).isSome
  | .ret => (g.regions.enclosing g.current [.function]).all fun body => returns g body (ins.refAt 0)
  | .call => ins.function?.any fun f => callsFunction g ins.result f ins.arguments
  | .callMethod => ins.function?.any fun f => callsBody g ins.result f ins.arguments
  | .declare | .newObject => isWritable (ins.refAt 0)
  | .assign => isWritable (ins.refAt 0)
    && (isReadable (ins.refAt 1) && stores (typeOf (ins.refAt 0)) (ins.refAt 1))
  | .binaryOp => isWritable (ins.refAt 0) && (isReadable (ins.refAt 2) && (isReadable (ins.refAt 3)
    && (joinsTexts ins || computes (spaceOf (ins.refAt 0)) ins.binaryOperator (shapeOf (ins.refAt 2))
      (shapeOf (ins.refAt 3)))))
  | .compare => isWritable (ins.refAt 0) && (isReadable (ins.refAt 2) && (isReadable (ins.refAt 3)
    && compares ins.compareOperator (shapeOf (ins.refAt 2)) (shapeOf (ins.refAt 3))))
  | .unaryOp => isWritable (ins.refAt 0) && (isReadable (ins.refAt 2)
    && transforms (spaceOf (ins.refAt 0)) ins.unaryOperator (shapeOf (ins.refAt 2)))
  | .cast => isWritable (ins.refAt 0) && (isReadable (ins.refAt 2)
    && converts (spaceOf (ins.refAt 0)) ins.castTarget (ins.refAt 2))
  | .getProperty => hasProperties ins.propertyObject && isWritable ins.propertyOther
  | .setProperty => hasProperties ins.propertyObject && isReadable ins.propertyOther
  | .scopeBegin | .scopeEnd | .function | .classDef | .undefined _ => true

theorem quiet_functionDef (ins : Instruction) : Quiet (functionDef ins) g := by
  unfold functionDef
  split
  · exact quiet_of_yields (.pure ()) rfl
  · rw [quiet_get_bind_iff]
    split
    · exact quiet_of_yields (.pure ()) rfl
    · exact quiet_of_yields (.change _) rfl

theorem quiet_declare_iff (ins : Instruction) : Quiet (declare ins) g ↔ isWritable (ins.refAt 0) = true := by
  unfold declare isWritable
  cases varOf (ins.refAt 0) with
  | some v => exact iff_of_true (quiet_of_yields (.change _) rfl) rfl
  | none => exact iff_of_false (not_quiet_throw _ g) Bool.false_ne_true

/-- An opcode without a processor is a warning. -/
theorem quiet_fallback (ins : Instruction) : Quiet (Processors.fallback ins) g := by
  refine quiet_of_yields (.bind (.bind .get (.pure _)) (.bind (.emit _) (.change _))) ?_
  have hwarning : (Diagnostic.unregisteredOpcode ins.op.name ins.loc).severity ≠ .error := by
    unfold Diagnostic.unregisteredOpcode
    rw [severity_located]
    exact nofun
  simp [errors, report, Generation.emit, emitAt, Bag.errorCount, Bag.count, hwarning]

theorem quiet_find_iff (hns : g.ns ≠ "") {ins : Instruction} (hstack : ins.op = .scopeEnd → g.stack ≠ []) :
    Quiet (processors.find ins.op ins) g ↔ accepts g ins = true := by
  unfold accepts
  cases hop : ins.op with
  | jump => exact (decides_jumpTo _).quiet_iff
  | condJump => exact (decides_condJump ins).quiet_iff
  | breakLoop => exact (decides_breakLoop ins).quiet_iff
  | continueLoop => exact (decides_continueLoop ins).quiet_iff
  | ret => exact (decides_ret ins).quiet_iff
  | call => exact quiet_call_iff hns ins
  | callMethod => exact (decides_callMethod ins).quiet_iff
  | newObject => exact (decides_newObject ins).quiet_iff
  | assign => exact (decides_assignment ins).quiet_iff
  | binaryOp => exact (decides_binary ins).quiet_iff
  | compare => exact (decides_comparison ins).quiet_iff
  | unaryOp => exact (decides_unary ins).quiet_iff
  | cast => exact (decides_conversion ins).quiet_iff
  | getProperty => exact (decides_getProperty ins).quiet_iff
  | setProperty => exact (decides_setProperty ins).quiet_iff
  | classDef => exact (Decides.pure (Q := fun _ => True) trivial).quiet_iff
  | declare => exact quiet_declare_iff ins
  | scopeBegin => exact iff_of_true (quiet_of_yields (.change _) rfl) rfl
  | function => exact iff_of_true (quiet_functionDef ins) rfl
  | undefined code => exact iff_of_true (quiet_fallback ins) rfl
  | scopeEnd =>
      obtain ⟨n, stack, hopen⟩ := List.exists_cons_of_ne_nil (hstack hop)
      exact iff_of_true (quiet_of_yields (.pop hopen) rfl) rfl

end Datapack.Generation
