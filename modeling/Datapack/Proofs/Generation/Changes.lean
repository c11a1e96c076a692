import Datapack.Proofs.Command.Spared
import Datapack.Proofs.Generation.Growth
import Mathlib.Logic.Relation

/-!
# What an instruction changes

The processors of data instructions change the state of the generator in few ways: they emit commands in
the innermost region, take fresh names and leave notes beside the regions.  `Makes C g m Q` says that
`m` takes the state `g` on by changes of `C` only, whether it fails or not, and that its value and the
state behind satisfy `Q`.  What all changes keep is then kept by every processor.
-/

namespace Datapack.Generation

open Ir Command

/-! ## Slots of flags -/

/-- A slot with the name of an exit flag. -/
def IsFlag (s : Slot) : Prop := ∃ kind x ns, s = .score (Plan.stem kind ++ x) ns

theorem dollar_mem_stem (kind : ExitKind) (x : String) : '$' ∈ (Plan.stem kind ++ x).toList := by
  rw [Plan.toList_stem]
  cases kind <;> exact List.mem_cons_self

theorem not_isFlag_storage (id path : String) : ¬IsFlag (.storage id path) := by
  rintro ⟨kind, x, ns, h⟩
  exact Space.noConfusion (congrArg Slot.space h)

theorem not_isFlag_place (ns path : String) (t : Ty) : ¬IsFlag (place ns path t) := by
  unfold place
  cases Space.ofType t with
  | storage => exact not_isFlag_storage _ _
  | score =>
      rintro ⟨kind, x, ns', h⟩
      exact Plan.holder_ne path (dollar_mem_stem kind x) (congrArg Slot.path h)

theorem not_isFlag_slot (g : Generation) (v : Variable) : ¬IsFlag (Layout.slot g v) := by
  unfold Layout.slot
  split
  · split
    · exact not_isFlag_place _ _ _
    · exact not_isFlag_place _ _ _
  · exact not_isFlag_place _ _ _

theorem not_isFlag_scratch (g : Generation) : ¬IsFlag (Layout.registers g).scratch := by
  rintro ⟨kind, x, ns, h⟩
  exact Plan.scratch_ne_stem kind x (congrArg Slot.path h)

theorem not_isFlag_buffer (g : Generation) : ¬IsFlag (Layout.registers g).buffer :=
  not_isFlag_storage _ _

theorem not_isFlag_child {s : Slot} (h : s.space = .storage) (key : String) : ¬IsFlag (s.child key) := by
  rintro ⟨kind, x, ns, hflag⟩
  have hspace : s.space = .score := congrArg Slot.space hflag
  rw [h] at hspace
  exact Space.noConfusion hspace

/-! ## Changes -/

/-- A change by an instruction that moves data. -/
inductive Change : Generation → Generation → Prop
  | emit {g : Generation} {cs : List Command} (h : SparesAll IsFlag cs) : Change g (g.emit cs)
  | note (g : Generation) (fresh ids : Nat) (diagnostics : Bag) (helpers : List (String × List Command))
      (onLoad onTick : List String) :
      Change g { g with fresh, ids, diagnostics, helpers, onLoad, onTick }

/-- A change by a call: the body of a function is called as well. -/
inductive Invocation : Generation → Generation → Prop
  | change {g g' : Generation} (h : Change g g') : Invocation g g'
  | body {g : Generation} {n : Nat} (h : n ∈ g.functions.map Prod.fst) :
      Invocation g (g.emit [callRegion g n])

/-- States that agree in everything but what is generated. -/
structure Alike (g g' : Generation) : Prop where
  config : g'.config = g.config
  tree : g'.tree = g.tree
  functions : g'.functions = g.functions
  current : g'.current = g.current
  stack : g'.stack = g.stack
  index : g'.index = g.index
  sketch : g'.regions.sketch = g.regions.sketch

namespace Alike

variable {g g' g'' : Generation}

theorem refl (g : Generation) : Alike g g := ⟨rfl, rfl, rfl, rfl, rfl, rfl, rfl⟩

theorem trans (h : Alike g g') (h' : Alike g' g'') : Alike g g'' :=
  ⟨h'.config.trans h.config, h'.tree.trans h.tree, h'.functions.trans h.functions,
    h'.current.trans h.current, h'.stack.trans h.stack, h'.index.trans h.index,
    h'.sketch.trans h.sketch⟩

theorem emit (g : Generation) (cs : List Command) : Alike g (g.emit cs) :=
  ⟨rfl, rfl, rfl, rfl, rfl, rfl, Regions.sketch_update (Region.bare_emit cs) _ _⟩

theorem ns (h : Alike g g') : g'.ns = g.ns := by
  rw [Generation.ns, h.config, Generation.ns]

theorem length (h : Alike g g') : g'.regions.length = g.regions.length := by
  rw [← Regions.length_sketch, h.sketch, Regions.length_sketch]

theorem kind (h : Alike g g') (n : Nat) : (g'.regions.at? n).kind = (g.regions.at? n).kind := by
  have hat := congrArg (·.at? n) h.sketch
  simp only [Regions.at?_sketch] at hat
  have hkind := congrArg Region.kind hat
  exact hkind

theorem parent? (h : Alike g g') (n : Nat) : g'.regions.parent? n = g.regions.parent? n := by
  rw [← Regions.parent?_sketch, h.sketch, Regions.parent?_sketch]

theorem ancestors (h : Alike g g') (n : Nat) : g'.regions.ancestors n = g.regions.ancestors n := by
  rw [← Regions.ancestors_sketch, h.sketch, Regions.ancestors_sketch]

theorem enclosing (h : Alike g g') (n : Nat) (kinds : List ScopeKind) :
    g'.regions.enclosing n kinds = g.regions.enclosing n kinds := by
  rw [← Regions.enclosing_sketch, h.sketch, Regions.enclosing_sketch]

theorem absolutePath (h : Alike g g') (n : Nat) :
    g'.regions.absolutePath n = g.regions.absolutePath n := by
  rw [← Regions.absolutePath_sketch, h.sketch, Regions.absolutePath_sketch]

theorem functionRef (h : Alike g g') (ns : String) (n : Nat) :
    g'.regions.functionRef ns n = g.regions.functionRef ns n := by
  rw [← Regions.functionRef_sketch, h.sketch, Regions.functionRef_sketch]

theorem callRegion (h : Alike g g') (n : Nat) : callRegion g' n = callRegion g n := by
  rw [Generation.callRegion, h.functionRef, h.ns, Generation.callRegion]

theorem flag (h : Alike g g') (flag : String) : Layout.flag g' flag = Layout.flag g flag := by
  rw [Layout.flag, h.ns, Layout.flag]

theorem slot (h : Alike g g') (v : Variable) : Layout.slot g' v = Layout.slot g v := by
  have hpath : g'.regions.symbolPath g.current v.name = g.regions.symbolPath g.current v.name := by
    rw [← Regions.symbolPath_sketch, h.sketch, Regions.symbolPath_sketch]
  unfold Layout.slot Layout.returnSlot
  simp only [hpath, h.ns, h.current, h.enclosing, h.absolutePath]

end Alike

theorem Change.alike {g g' : Generation} (h : Change g g') : Alike g g' := by
  cases h with
  | emit _ => exact .emit _ _
  | note => exact ⟨rfl, rfl, rfl, rfl, rfl, rfl, rfl⟩

theorem Invocation.alike {g g' : Generation} (h : Invocation g g') : Alike g g' := by
  cases h with
  | change h => exact h.alike
  | body _ => exact .emit _ _

abbrev Reaches (C : Generation → Generation → Prop) : Generation → Generation → Prop :=
  Relation.ReflTransGen C

theorem Reaches.alike {C : Generation → Generation → Prop} (hC : ∀ g g', C g g' → Alike g g')
    {g g' : Generation} (h : Reaches C g g') : Alike g g' := by
  induction h with
  | refl => exact .refl _
  | tail _ hlast ih => exact ih.trans (hC _ _ hlast)

/-- A computation takes a state on by changes of `C`, and what it gives satisfies `Q`. -/
def Makes {α : Type} (C : Generation → Generation → Prop) (g : Generation) (m : Gen α)
    (Q : α → Generation → Prop) : Prop :=
  Reaches C g (m.run g).2 ∧ ∀ a, (m.run g).1 = .ok a → Q a (m.run g).2

namespace Makes

variable {α β : Type} {C D : Generation → Generation → Prop} {g : Generation} {Q : α → Generation → Prop}
  {Q' : β → Generation → Prop}

theorem run_bind (m : Gen α) (f : α → Gen β) (g : Generation) :
    (m >>= f).run g = match m.run g with
      | (.ok a, g') => (f a).run g'
      | (.error e, g') => (.error e, g') := by
  rw [ExceptT.run_bind]
  simp only [Bind.bind, StateT.bind]
  rcases m.run g with ⟨_ | _, _⟩ <;> rfl

theorem bind {m : Gen α} {f : α → Gen β} (h : Makes C g m Q)
    (h' : ∀ a g', Reaches C g g' → Q a g' → Makes C g' (f a) Q') : Makes C g (m >>= f) Q' := by
  unfold Makes
  rw [run_bind]
  obtain ⟨hreach, hvalue⟩ := h
  rcases hrun : m.run g with ⟨a, g'⟩
  rw [hrun] at hreach hvalue
  cases a with
  | error e => exact ⟨hreach, fun a ha => by cases ha⟩
  | ok a =>
      obtain ⟨hreach', hvalue'⟩ := h' a g' hreach (hvalue a rfl)
      exact ⟨hreach.trans hreach', hvalue'⟩

theorem pure {a : α} (h : Q a g) : Makes C g (Pure.pure a) Q := by
  refine ⟨.refl, fun b hb => ?_⟩
  obtain rfl : a = b := Except.ok.inj hb
  exact h

theorem throw (e : GenError) : Makes C g (MonadExcept.throw e : Gen α) Q :=
  ⟨.refl, fun a ha => by cases ha⟩

theorem get_bind {f : Generation → Gen β} (h : Makes C g (f g) Q') :
    Makes C g (MonadState.get >>= f) Q' := h

theorem mono {m : Gen α} (h : Makes C g m Q) (hC : ∀ g g', C g g' → D g g') : Makes D g m Q :=
  ⟨Relation.ReflTransGen.mono hC _ _ h.1, h.2⟩

theorem post {m : Gen α} {Q₁ : α → Generation → Prop} (h : Makes C g m Q) (hQ : ∀ a g, Q a g → Q₁ a g) :
    Makes C g m Q₁ :=
  ⟨h.1, fun a ha => hQ a _ (h.2 a ha)⟩

theorem change {f : Generation → Generation} (h : C g (f g)) :
    Makes C g (Gen.change f) fun _ _ => True :=
  ⟨.single h, fun _ _ => trivial⟩

theorem orFail {message : String} {o : Option α} (h : ∀ a, o = some a → Q a g) :
    Makes C g (Gen.orFail message o) Q := by
  cases o with
  | none => exact .throw _
  | some a => exact .pure (h a rfl)

theorem mapM {xs : List α} {f : α → Gen β} {P : β → Prop}
    (h : ∀ x ∈ xs, ∀ g, Makes C g (f x) fun b _ => P b) :
    Makes C g (xs.mapM f) fun bs _ => ∀ b ∈ bs, P b := by
  induction xs generalizing g with
  | nil =>
      rw [List.mapM_nil]
      exact .pure (by simp)
  | cons x xs ih =>
      rw [List.mapM_cons]
      refine (h x List.mem_cons_self g).bind fun b g' _ hb => ?_
      refine (ih fun y hy => h y (List.mem_cons_of_mem _ hy)).bind fun bs g'' _ hbs => ?_
      exact .pure (List.forall_mem_cons.2 ⟨hb, hbs⟩)

theorem forM {xs : List α} {f : α → Gen PUnit} (h : ∀ x ∈ xs, ∀ g, Makes C g (f x) fun _ _ => True) :
    Makes C g (xs.forM f) fun _ _ => True := by
  induction xs generalizing g with
  | nil => exact .pure trivial
  | cons x xs ih =>
      change Makes C g (f x >>= fun _ => xs.forM f) _
      exact (h x List.mem_cons_self g).bind fun _ g' _ _ => ih fun y hy => h y (List.mem_cons_of_mem _ hy)

theorem foldlM {xs : List α} {f : β → α → Gen β} (h : ∀ b, ∀ x ∈ xs, ∀ g, Makes C g (f b x) fun _ _ => True)
    (b : β) : Makes C g (xs.foldlM f b) fun _ _ => True := by
  induction xs generalizing g b with
  | nil => exact .pure trivial
  | cons x xs ih =>
      rw [List.foldlM_cons]
      exact (h b x List.mem_cons_self g).bind fun b g' _ _ =>
        ih (fun b y hy => h b y (List.mem_cons_of_mem _ hy)) b

end Makes

/-! ## Elementary computations -/

section Elementary

variable {g : Generation}

theorem makes_emit {cs : List Command} (h : SparesAll IsFlag cs) :
    Makes Change g (Gen.emit cs) fun _ _ => True :=
  .change (.emit h)

theorem makes_emitLowered {cs : Lowered} (h : Lowered.Spares IsFlag cs) :
    Makes Change g (Gen.emitLowered cs) fun _ _ => True := by
  cases cs with
  | error u => exact .throw _
  | ok cs => exact makes_emit (h cs rfl)

theorem makes_freshName (stem : String) : Makes Change g (Gen.freshName stem) fun name g' =>
    name = stem ++ toString g'.fresh :=
  ⟨.single (.note g (g.fresh + 1) g.ids g.diagnostics g.helpers g.onLoad g.onTick),
    fun _ ha => (Except.ok.inj ha).symm⟩

theorem makes_operand (r : Option Reference) : Makes Change g (operand r) fun _ _ => True := by
  unfold operand
  split
  · exact .throw _
  · exact .pure trivial
  · split
    · exact .get_bind (.pure trivial)
    · exact .throw _

theorem makes_destination (r : Option Reference) :
    Makes Change g (destination r) fun s _ => ¬IsFlag s := by
  unfold destination
  split
  · exact .throw _
  · split
    · exact .get_bind (.pure (not_isFlag_slot _ _))
    · exact .throw _

theorem change_report (d : Diagnostic) : Change g (g.report d) :=
  .note g g.fresh g.ids (g.diagnostics ++ [d]) g.helpers g.onLoad g.onTick

theorem change_addHelper (path : String) (body : List Command) : Change g (g.addHelper path body) := by
  unfold addHelper
  split
  · exact .note g g.fresh g.ids g.diagnostics g.helpers g.onLoad g.onTick
  · exact .note g g.fresh g.ids g.diagnostics (g.helpers ++ [(path, body)]) g.onLoad g.onTick

end Elementary

/-! ## Data instructions -/

section Data

variable {g : Generation}

theorem makes_stageInputs (l : Library) {io : Slot} (hio : io.space = .storage) (args : Arguments) :
    Makes Change g (stageInputs l io args) fun cs _ => SparesAll IsFlag cs := by
  unfold stageInputs
  refine (Makes.mapM (P := SparesAll IsFlag) fun p _ g' => ?_).bind fun staged g' _ hstaged => ?_
  · refine (Makes.orFail (Q := fun _ _ => True) fun _ _ => trivial).bind fun o g' _ _ => ?_
    have hspares := spares_assign (not_isFlag_child hio p) o
    split
    · next cs hcs => exact .pure (hspares cs hcs)
    · exact .throw _
  · exact .pure (.flatten hstaged)

theorem makes_callLibrary (name : String) (dst : Slot) (args : Arguments) :
    Makes Change g (callLibrary name dst args) fun cs _ => SparesAll IsFlag cs := by
  unfold callLibrary
  refine (Makes.orFail (Q := fun _ _ => True) fun _ _ => trivial).bind fun l g' _ _ => .get_bind ?_
  extract_lets io ref finish
  have hfinish : ∀ cs g, SparesAll IsFlag cs → Makes Change g (finish cs) fun cs _ => SparesAll IsFlag cs :=
    fun cs _ hcs => (Makes.change (change_addHelper _ _)).bind fun _ _ _ _ => .pure hcs
  split
  · have hspares : ∀ l r, Lowered.Spares IsFlag (concat dst l r io ref) :=
      fun l r => spares_concat (not_isFlag_child rfl "left") (not_isFlag_child rfl "right") l r ref
    split
    · next cs hcs =>
      exact (Makes.pure (Q := fun ds _ => ds = cs) rfl).bind fun ds g _ hds =>
        hfinish ds g (hds ▸ hspares _ _ cs hcs)
    · exact (Makes.throw (Q := fun _ _ => False) _).bind fun _ _ _ h => h.elim
  · refine (makes_stageInputs l rfl args).bind fun staged g'' _ hstaged => ?_
    refine Makes.bind (Q := fun cs _ => SparesAll IsFlag cs) (.pure ?_) fun cs g _ => hfinish cs g
    have hcall : SparesAll IsFlag [.callWith ref io] := .single trivial
    refine (hstaged.append hcall).append ?_
    split
    · exact .nil
    · exact spares_copy _ _

theorem makes_assignment (ins : Instruction) : Makes Change g (assignment ins) fun _ _ => True := by
  unfold assignment
  refine (makes_destination _).bind fun dst _ _ hdst => ?_
  exact (makes_operand _).bind fun src _ _ _ => makes_emitLowered (spares_assign hdst src)

theorem makes_binary (ins : Instruction) : Makes Change g (binary ins) fun _ _ => True := by
  unfold binary
  refine (makes_destination _).bind fun dst _ _ hdst => ?_
  refine (makes_operand _).bind fun l _ _ _ => (makes_operand _).bind fun r g' _ _ => ?_
  split
  · exact (makes_callLibrary _ _ _).bind fun cs _ _ hcs => makes_emit hcs
  · exact .get_bind (makes_emitLowered (spares_binaryOp hdst (not_isFlag_scratch g') _ l r))

theorem makes_comparison (ins : Instruction) : Makes Change g (comparison ins) fun _ _ => True := by
  unfold comparison
  refine (makes_destination _).bind fun dst _ _ hdst => ?_
  refine (makes_operand _).bind fun l _ _ _ => (makes_operand _).bind fun r g' _ _ => .get_bind ?_
  exact makes_emitLowered (spares_compare hdst (not_isFlag_scratch g') (not_isFlag_buffer g') _ l r)

theorem makes_unary (ins : Instruction) : Makes Change g (unary ins) fun _ _ => True := by
  unfold unary
  refine (makes_destination _).bind fun dst _ _ hdst => ?_
  exact (makes_operand _).bind fun x _ _ _ => .get_bind (makes_emitLowered (spares_unaryOp hdst _ x))

theorem makes_castSlot {dst : Slot} (target : DataType) (source : Ty) (src : Slot) :
    Makes Change g (castSlot dst target source src) fun _ _ => True := by
  unfold castSlot
  split
  · exact (makes_callLibrary _ _ _).bind fun cs _ _ hcs => makes_emit hcs
  · split
    · refine .get_bind (makes_emit ?_)
      unfold truthOf
      split
      · exact .single trivial
      · exact .append (spares_copy _ _) (.single trivial)
    · split
      · exact .throw _
      · exact makes_emit (spares_copy _ _)

theorem makes_conversion (ins : Instruction) : Makes Change g (conversion ins) fun _ _ => True := by
  unfold conversion
  refine (makes_destination _).bind fun dst _ _ hdst => (makes_operand _).bind fun o _ _ _ => ?_
  cases o with
  | slot s => exact makes_castSlot _ _ _
  | literal l =>
      dsimp only
      split
      · exact makes_emitLowered (spares_store hdst _)
      · exact .throw _

theorem makes_newObject (ins : Instruction) : Makes Change g (newObject ins) fun _ _ => True := by
  unfold newObject
  exact (makes_destination _).bind fun dst _ _ _ => makes_emit (.single trivial)

theorem makes_propertySlot (obj : Option Reference) (name : String) :
    Makes Change g (propertySlot obj name) fun s _ => ¬IsFlag s := by
  unfold propertySlot
  refine (makes_operand _).bind fun o _ _ _ => ?_
  cases o with
  | literal l => exact .throw _
  | slot s =>
      dsimp only
      split
      · next hspace => exact .pure (not_isFlag_child hspace _)
      · exact .throw _

theorem makes_getProperty (ins : Instruction) : Makes Change g (getProperty ins) fun _ _ => True := by
  unfold getProperty
  refine (makes_propertySlot _ _).bind fun src _ _ _ => ?_
  exact (makes_destination _).bind fun dst _ _ _ => makes_emit (spares_copy dst src)

theorem makes_setProperty (ins : Instruction) : Makes Change g (setProperty ins) fun _ _ => True := by
  unfold setProperty
  refine (makes_propertySlot _ _).bind fun dst _ _ hdst => ?_
  exact (makes_operand _).bind fun src _ _ _ => makes_emitLowered (spares_assign hdst src)

theorem makes_fallback (ins : Instruction) :
    Makes Change g (Processors.fallback ins) fun _ _ => True := by
  unfold Processors.fallback
  refine Makes.bind (Q := fun _ _ => True) (.get_bind (.pure trivial)) fun classes _ _ _ => ?_
  have hcomment : SparesAll IsFlag [.comment ("unsupported: " ++ ins.text classes)] := .single trivial
  refine (makes_emit hcomment).bind fun _ g' _ _ => ?_
  exact .change (change_report _)

theorem makes_functionDef (ins : Instruction) : Makes Change g (functionDef ins) fun _ _ => True := by
  unfold functionDef
  split
  · exact .pure trivial
  · refine .get_bind ?_
    split
    · exact .pure trivial
    · exact .change (.note _ _ _ _ _ _ _)

end Data

/-! ## Calls -/

section Calls

variable {g : Generation}

theorem Makes.invocation {α : Type} {m : Gen α} {Q : α → Generation → Prop} (h : Makes Change g m Q) :
    Makes Invocation g m Q :=
  h.mono fun _ _ => .change

theorem makes_argumentFor (f : Function) (args : List Argument) (p : Parameter) :
    Makes Change g (argumentFor f args p) fun _ _ => True := by
  unfold argumentFor
  split
  · exact .pure trivial
  · split
    · exact .pure trivial
    · exact .throw _

theorem makes_callBody (result : Option Reference) (f : Function) (args : List Argument) :
    Makes Invocation g (callBody result f args) fun _ _ => True := by
  unfold callBody
  refine .get_bind ?_
  refine (Makes.orFail (Q := fun body g' => body ∈ g'.functions.map Prod.fst) fun body hbody => ?_).bind
    fun body g' _ hbody => ?_
  · obtain ⟨x, hx, rfl⟩ := Option.map_eq_some_iff.1 hbody
    exact List.mem_map_of_mem (List.mem_of_find?_eq_some hx)
  refine Makes.bind (Q := fun _ _ => True) (.forM fun p _ g => .invocation ?_) fun _ g'' hreach _ => ?_
  · refine (makes_argumentFor f args p).bind fun r _ _ _ => (makes_operand r).bind fun src _ _ _ => ?_
    exact .get_bind (makes_emitLowered (spares_assign (not_isFlag_place _ _ _) src))
  rw [← (hreach.alike fun _ _ => Invocation.alike).functions] at hbody
  refine .get_bind ((Makes.change (.body hbody)).bind fun _ _ _ _ => ?_)
  split
  · exact .pure trivial
  · split
    · exact .pure trivial
    · refine .invocation ((makes_destination _).bind fun dst _ _ _ => .get_bind ?_)
      exact (makes_emit (spares_copy _ _)).bind fun _ _ _ _ => .pure trivial

theorem makes_callMethod (ins : Instruction) : Makes Invocation g (callMethod ins) fun _ _ => True := by
  unfold callMethod
  refine (Makes.orFail (Q := fun _ _ => True) fun _ _ => trivial).bind fun f _ _ _ => ?_
  refine (makes_callBody _ _ _).bind fun body _ _ _ => .forM fun p _ g => .invocation ?_
  split
  · exact .pure trivial
  · split
    · exact .pure trivial
    · exact (makes_destination _).bind fun dst _ _ _ => .get_bind (makes_emit (spares_copy _ _))

theorem makes_argumentValues (args : List Argument) :
    Makes Change g (argumentValues args) fun _ _ => True := by
  unfold argumentValues
  refine .foldlM (fun acc a _ g => ⟨?_, fun _ _ => trivial⟩) []
  have hreach := (makes_operand (g := g) a.value).1
  rcases hrun : (operand a.value).run g with ⟨_ | o, g'⟩
  all_goals
    rw [hrun] at hreach
    simp only [ExceptT.run] at hrun ⊢
    rwa [hrun]

theorem makes_renderTemplate (name : String) (args : Arguments) :
    Makes Change g (renderTemplate name args) fun _ _ => True := by
  unfold renderTemplate
  refine .get_bind ?_
  extract_lets renderer args
  split
  · exact .change (change_report _)
  · exact .throw _
  · next r hr =>
    have hemit := fun g => makes_emit (g := g) (spares_render hr)
    split
    · next path body _ =>
      refine Makes.bind (Makes.change ?_) fun _ g _ _ => hemit g
      unfold addHelper
      split
      · exact .note _ _ _ _ _ _ _
      · exact .note _ _ _ _ _ _ _
    · exact hemit g

theorem makes_print (ins : Instruction) : Makes Change g (print ins) fun _ _ => True := by
  unfold print
  refine Makes.bind (Q := fun _ _ => True) ?_ fun parts _ _ _ => makes_emit (.single trivial)
  refine (Makes.mapM (P := fun _ => True) fun a _ g => ?_).post fun _ _ _ => trivial
  exact (makes_operand _).bind fun o _ _ _ => .get_bind (.pure trivial)

theorem makes_callLibraryFunction (ins : Instruction) (f : Function) :
    Makes Change g (callLibraryFunction ins f) fun _ _ => True := by
  unfold callLibraryFunction
  refine (makes_argumentValues _).bind fun args _ _ _ => ?_
  have hcall : ∀ dst g, Makes Change g (callLibrary f.name dst args >>= Gen.emit) fun _ _ => True :=
    fun dst _ => (makes_callLibrary _ dst args).bind fun cs _ _ hcs => makes_emit hcs
  split
  · exact hcall _ _
  · exact (makes_destination _).bind fun dst g _ _ => hcall dst g

theorem makes_callBuiltin (ins : Instruction) (f : Function) :
    Makes Change g (callBuiltin ins f) fun _ _ => True := by
  unfold callBuiltin
  split
  · exact makes_print ins
  · split
    · exact (makes_argumentValues _).bind fun args _ _ _ => makes_renderTemplate _ _
    · exact .change (change_report _)

theorem makes_call (ins : Instruction) : Makes Invocation g (call ins) fun _ _ => True := by
  unfold call
  refine (Makes.orFail (Q := fun _ _ => True) fun _ _ => trivial).bind fun f _ _ _ => ?_
  split
  · exact .invocation (makes_callBuiltin ins f)
  · exact .invocation (makes_callLibraryFunction ins f)
  · exact (makes_callBody _ _ _).bind fun _ _ _ _ => .pure trivial

end Calls

end Datapack.Generation
