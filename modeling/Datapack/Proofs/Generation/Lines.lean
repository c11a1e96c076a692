import Datapack.Output.Standard
import Datapack.Proofs.Command.Lines
import Datapack.Proofs.Command.Pool
import Datapack.Proofs.Generation.References

/-!
# Function files line by line

A function file is split at its line breaks into the commands of its region, as long as no command has a
line break of its own.  Names never bring one in: they are put through maps to the characters of holders
and of resource names.  Text literals do, wherever they are written as they are; so the files are right
for programs whose literals have no line break, messages to players apart.
-/

namespace Datapack.Generation

open Ir Command Text

variable {g g' : Generation}

/-! ## Names -/

theorem unbroken_holder (path : String) : Text.Unbroken (holder path) := by
  refine unbroken_map (fun c => ?_) path
  unfold holderChar
  split
  · next hc =>
    rintro rfl
    exact absurd hc (by decide)
  · split <;> decide

/-- What an instruction may write into commands has no line break, and nothing generated so far has one. -/
structure Lined (g : Generation) : Prop where
  ns : Text.Unbroken g.ns
  objective : Text.Unbroken g.pool.objective
  newId : ∀ n, Text.Unbroken (g.newId n)
  exits : ∀ x ∈ g.exits, Text.Unbroken x.1
  commands : ∀ n, AllUnbroken (g.commandsAt n)

/-- A change that brings no line break into what is generated. -/
def StaysLined (g g' : Generation) : Prop := Lined g → Lined g'

namespace Lined

theorem of_reaches (h : Lined g) (hreach : Reaches StaysLined g g') : Lined g' := by
  induction hreach with
  | refl => exact h
  | tail _ hlast ih => exact hlast ih

theorem place (h : Lined g) (path : String) (t : Ty) : (place g.ns path t).Unbroken := by
  unfold Generation.place
  split
  · exact ⟨unbroken_holder path, h.ns⟩
  · exact ⟨unbroken_holder path, unbroken_append.2 ⟨h.ns, unbroken_word rfl⟩⟩

theorem slot (h : Lined g) (v : Variable) : (Layout.slot g v).Unbroken := by
  unfold Layout.slot
  split
  · split
    · exact h.place _ _
    · exact h.place _ _
  · exact h.place _ _

theorem flag (h : Lined g) {name : String} (hname : Text.Unbroken name) : (Layout.flag g name).Unbroken :=
  ⟨hname, h.ns⟩

theorem libraryIo (h : Lined g) : (libraryIo g.ns).Unbroken :=
  ⟨unbroken_word rfl, unbroken_append.2 ⟨h.ns, unbroken_word rfl⟩⟩

theorem registers (h : Lined g) : (Layout.registers g).Unbroken := by
  refine ⟨fun n s hs => ?_, ⟨unbroken_word rfl, h.ns⟩,
    ⟨unbroken_word rfl, unbroken_append.2 ⟨h.ns, unbroken_word rfl⟩⟩⟩
  change g.pool.constant? n = some s at hs
  unfold Pool.constant? at hs
  split at hs <;> cases hs
  refine ⟨?_, h.objective⟩
  change Text.Unbroken (if n < 0 then _ else _)
  split <;> exact unbroken_append.2 ⟨unbroken_word rfl, unbroken_int _⟩

theorem callRegion (h : Lined g) (n : Nat) : (callRegion g n).Unbroken := by
  refine unbroken_append.2 ⟨unbroken_append.2 ⟨h.ns, unbroken_word rfl⟩, ?_⟩
  refine unbroken_intercalate (unbroken_word rfl) fun x hx => ?_
  obtain ⟨segment, -, rfl⟩ := List.mem_map.1 hx
  exact unbroken_resourceName _

end Lined

/-! ## Changes -/

theorem staysLined_emit {cs : List Command} (h : AllUnbroken cs) : StaysLined g (g.emit cs) := by
  intro hg
  refine ⟨hg.ns, hg.objective, hg.newId, hg.exits, fun n c hc => ?_⟩
  exact (mem_commandsAt_emit hc).elim (hg.commands n c) (h c)

theorem lines_emit {cs : List Command} (h : AllUnbroken cs) :
    Makes StaysLined g (Gen.emit cs) fun _ _ => True :=
  .change (staysLined_emit h)

theorem lines_emitLowered {cs : Lowered} (h : Lowered.Unbroken cs) :
    Makes StaysLined g (Gen.emitLowered cs) fun _ _ => True := by
  cases cs with
  | error u => exact .throw _
  | ok cs => exact lines_emit (h cs rfl)

theorem lines_report (d : Diagnostic) : Makes StaysLined g (Gen.change (·.report d)) fun _ _ => True :=
  .change fun h => ⟨h.ns, h.objective, h.newId, h.exits, h.commands⟩

theorem staysLined_addHelper (path : String) (body : List Command) (ids : Nat) :
    StaysLined g { g.addHelper path body with ids } := by
  obtain ⟨helpers, heq⟩ := addHelper_eq g path body
  rw [heq]
  exact fun h => ⟨h.ns, h.objective, h.newId, h.exits, h.commands⟩

theorem staysLined_reset (check : Nat) {s : Slot} (hs : s.Unbroken) :
    StaysLined g { g with
      regions := g.regions.update check (·.prepend [.setScore s 0]), resets := check :: g.resets } := by
  refine fun h => ⟨h.ns, h.objective, h.newId, h.exits, fun n c hc => ?_⟩
  unfold commandsAt at hc
  rcases at?_update_cases g.regions check n (·.prepend [.setScore s 0]) with heq | ⟨-, heq⟩
  · rw [heq] at hc
    exact h.commands n c hc
  · rw [heq] at hc
    rcases List.mem_cons.1 hc with rfl | hc
    · exact hs
    · exact h.commands n c hc

/-- A reference whose literal, if it is one, has no line break. -/
def Spells (r : Option Reference) : Prop := ∀ l, r = some (.literal l) → LiteralUnbroken l

theorem lines_operand (h : Lined g) {r : Option Reference} (hr : Spells r) :
    Makes StaysLined g (operand r) fun o g' => g' = g ∧ o.Unbroken := by
  refine (edits_operand r).post fun o g' ⟨hg, hliteral, hslot⟩ => ⟨hg, ?_⟩
  cases o with
  | literal l => exact hr l ((hliteral l).1 rfl)
  | slot s =>
      obtain ⟨v, -, rfl⟩ := hslot s rfl
      exact h.slot v

theorem lines_destination (h : Lined g) (r : Option Reference) :
    Makes StaysLined g (destination r) fun s g' => g' = g ∧ s.Unbroken := by
  refine (edits_destination r).post fun s g' ⟨hg, v, _, hs⟩ => ⟨hg, ?_⟩
  rw [hs]
  exact h.slot v

/-! ## Data instructions -/

theorem lines_stageInputs (l : Library) (hl : ∀ p ∈ l.params, Text.Unbroken p) {io : Slot} (hio : io.Unbroken)
    {args : Arguments} (hargs : ∀ x ∈ args, x.2.Unbroken) :
    Makes StaysLined g (stageInputs l io args) fun cs _ => AllUnbroken cs := by
  unfold stageInputs
  refine (Makes.mapM (P := AllUnbroken) fun p hp g' => ?_).bind fun staged _ _ hstaged => ?_
  · refine (Makes.orFail (Q := fun o _ => o.Unbroken) fun o ho => ?_).bind fun o _ _ ho => ?_
    · obtain ⟨front, back, hsplit, -⟩ := List.lookup_eq_some_iff.1 ho
      exact hargs (p, o) (hsplit ▸ List.mem_append_right _ List.mem_cons_self)
    · have hassign := unbroken_assign (hio.child (hl p hp)) ho
      split
      · next cs hcs => exact .pure (hassign cs hcs)
      · exact .throw _
  · exact .pure (.flatten hstaged)

theorem unbroken_libraries : ∀ l ∈ libraries, ∀ word ∈ l.name :: l.params, Text.Unbroken word := by
  decide +kernel

theorem lines_callLibrary (h : Lined g) (name : String) {dst : Slot} (hdst : dst.Unbroken) {args : Arguments}
    (hargs : ∀ x ∈ args, x.2.Unbroken) :
    Makes StaysLined g (callLibrary name dst args) fun cs _ => AllUnbroken cs := by
  unfold callLibrary
  refine (Makes.orFail (Q := fun l g' => g' = g ∧ l ∈ libraries ∧ l.name = name) fun l hl =>
    ⟨rfl, List.mem_of_find?_eq_some hl, by simpa using List.find?_some hl⟩).bind
      fun l g' _ ⟨hg, hl, hname⟩ => .get_bind ?_
  subst hg
  obtain ⟨hword, hparams⟩ := List.forall_mem_cons.1 (unbroken_libraries l hl)
  rw [hname] at hword
  extract_lets io ref finish
  have hio : io.Unbroken := h.libraryIo
  have href : Text.Unbroken ref := by
    refine unbroken_append.2 ⟨unbroken_append.2 ⟨h.ns, unbroken_word rfl⟩, ?_⟩
    exact unbroken_append.2 ⟨unbroken_append.2 ⟨unbroken_word rfl, unbroken_word rfl⟩, hword⟩
  have hfinish : ∀ cs g, AllUnbroken cs → Makes StaysLined g (finish cs) fun cs _ => AllUnbroken cs := by
    intro cs g hcs
    have hkeeps := staysLined_addHelper (g := g) (libraryPath name) (l.body io)
      (g.addHelper (libraryPath name) (l.body io)).ids
    exact (Makes.change hkeeps).bind fun _ _ _ _ => .pure hcs
  have hside : ∀ p, ((args.lookup p).getD (.slot .nowhere)).Unbroken := by
    intro p
    cases hlookup : args.lookup p with
    | none => exact ⟨unbroken_word rfl, unbroken_word rfl⟩
    | some o =>
        obtain ⟨front, back, hsplit, -⟩ := List.lookup_eq_some_iff.1 hlookup
        exact hargs (p, o) (hsplit ▸ List.mem_append_right _ List.mem_cons_self)
  split
  · split
    · next cs hcs =>
      have hconcat := unbroken_concat hdst (hside "left") (hside "right") hio href cs hcs
      exact (Makes.pure (Q := fun ds _ => ds = cs) rfl).bind fun ds g _ hds => hfinish ds g (hds ▸ hconcat)
    · exact (Makes.throw (Q := fun _ _ => False) _).bind fun _ _ _ h => h.elim
  · refine (lines_stageInputs l hparams hio hargs).bind fun staged _ _ hstaged => ?_
    refine Makes.bind (Q := fun cs _ => AllUnbroken cs) (.pure ?_) fun cs g _ => hfinish cs g
    have hcall : AllUnbroken [.callWith ref io] := .single ⟨href, hio⟩
    refine (hstaged.append hcall).append ?_
    split
    · exact .nil
    · exact unbroken_copy hdst (hio.child (unbroken_word rfl))

theorem lines_emitLibrary (h : Lined g) (name : String) {dst : Slot} (hdst : dst.Unbroken) {args : Arguments}
    (hargs : ∀ x ∈ args, x.2.Unbroken) :
    Makes StaysLined g (callLibrary name dst args >>= Gen.emit) fun _ _ => True :=
  (lines_callLibrary h name hdst hargs).bind fun _ _ _ hcs => lines_emit hcs

theorem lines_assignment (h : Lined g) {ins : Instruction} (hsource : Spells (ins.refAt 1)) :
    Makes StaysLined g (assignment ins) fun _ _ => True := by
  unfold assignment
  refine (lines_destination h _).bind fun dst g₁ _ ⟨hg, hdst⟩ => ?_
  subst hg
  refine (lines_operand h hsource).bind fun src g₂ _ ⟨hg, hsrc⟩ => ?_
  exact lines_emitLowered (unbroken_assign hdst hsrc)

theorem lines_binary (h : Lined g) {ins : Instruction} (hl : Spells (ins.refAt 2)) (hr : Spells (ins.refAt 3)) :
    Makes StaysLined g (binary ins) fun _ _ => True := by
  unfold binary
  refine (lines_destination h _).bind fun dst g₁ _ ⟨hg, hdst⟩ => ?_
  subst hg
  refine (lines_operand h hl).bind fun l g₂ _ ⟨hg, hl⟩ => ?_
  subst hg
  refine (lines_operand h hr).bind fun r g₃ _ ⟨hg, hr⟩ => ?_
  subst hg
  split
  · exact lines_emitLibrary h _ hdst
      (List.forall_mem_cons.2 ⟨hl, List.forall_mem_singleton.2 hr⟩)
  · exact .get_bind (lines_emitLowered (unbroken_binaryOp h.registers hdst _ hl hr))

theorem lines_comparison (h : Lined g) {ins : Instruction} (hl : Spells (ins.refAt 2))
    (hr : Spells (ins.refAt 3)) : Makes StaysLined g (comparison ins) fun _ _ => True := by
  unfold comparison
  refine (lines_destination h _).bind fun dst g₁ _ ⟨hg, hdst⟩ => ?_
  subst hg
  refine (lines_operand h hl).bind fun l g₂ _ ⟨hg, hl⟩ => ?_
  subst hg
  refine (lines_operand h hr).bind fun r g₃ _ ⟨hg, hr⟩ => .get_bind ?_
  subst hg
  exact lines_emitLowered (unbroken_compare h.registers hdst _ hl hr)

theorem lines_unary (h : Lined g) {ins : Instruction} (hx : Spells (ins.refAt 2)) :
    Makes StaysLined g (unary ins) fun _ _ => True := by
  unfold unary
  refine (lines_destination h _).bind fun dst g₁ _ ⟨hg, hdst⟩ => ?_
  subst hg
  refine (lines_operand h hx).bind fun x g₂ _ ⟨hg, hx⟩ => .get_bind ?_
  subst hg
  exact lines_emitLowered (unbroken_unaryOp h.registers hdst _ hx)

theorem unbroken_truthOf {env : Registers} (henv : env.Unbroken) {dst src : Slot} (hdst : dst.Unbroken)
    (hsrc : src.Unbroken) : AllUnbroken (truthOf env dst src) := by
  unfold truthOf
  split
  · exact .single ⟨hdst, hsrc, trivial⟩
  · exact (unbroken_copy henv.scratch hsrc).append (.single ⟨hdst, henv.scratch, trivial⟩)

theorem lines_castSlot (h : Lined g) {dst src : Slot} (hdst : dst.Unbroken) (target : DataType) (source : Ty)
    (hsrc : src.Unbroken) : Makes StaysLined g (castSlot dst target source src) fun _ _ => True := by
  unfold castSlot
  split
  · exact lines_emitLibrary h _ hdst (List.forall_mem_singleton.2 hsrc)
  · split
    · exact .get_bind (lines_emit (unbroken_truthOf h.registers hdst hsrc))
    · split
      · exact .throw _
      · exact lines_emit (unbroken_copy hdst hsrc)

theorem lines_conversion (h : Lined g) {ins : Instruction} (hx : Spells (ins.refAt 2)) :
    Makes StaysLined g (conversion ins) fun _ _ => True := by
  unfold conversion
  refine (lines_destination h _).bind fun dst g₁ _ ⟨hg, hdst⟩ => ?_
  subst hg
  refine (lines_operand h hx).bind fun o g₂ _ ⟨hg, ho⟩ => ?_
  subst hg
  cases o with
  | slot s => exact lines_castSlot h hdst _ _ ho
  | literal l =>
      dsimp only
      split
      · next hv => exact lines_emitLowered (unbroken_store hdst (unbroken_evalCast ho hv))
      · exact .throw _

theorem lines_newObject (h : Lined g) (ins : Instruction) :
    Makes StaysLined g (newObject ins) fun _ _ => True := by
  unfold newObject
  refine (lines_destination h _).bind fun dst _ _ hdst => lines_emit (.single ⟨hdst.2, fun s hs => ?_⟩)
  cases hs

theorem lines_propertySlot (h : Lined g) (obj : Option Reference) (name : String) :
    Makes StaysLined g (propertySlot obj name) fun s g' => g' = g ∧ s.Unbroken := by
  unfold propertySlot
  refine (edits_operand obj).bind fun o g₁ _ ⟨hg, _, hslot⟩ => ?_
  subst hg
  cases o with
  | literal l => exact .throw _
  | slot s =>
      obtain ⟨v, -, rfl⟩ := hslot s rfl
      dsimp only
      split
      · exact .pure ⟨rfl, (h.slot v).child (unbroken_holder name)⟩
      · exact .throw _

theorem lines_getProperty (h : Lined g) (ins : Instruction) :
    Makes StaysLined g (getProperty ins) fun _ _ => True := by
  unfold getProperty
  refine (lines_propertySlot h _ _).bind fun src g₁ _ ⟨hg, hsrc⟩ => ?_
  subst hg
  exact (lines_destination h _).bind fun dst _ _ ⟨_, hdst⟩ => lines_emit (unbroken_copy hdst hsrc)

theorem lines_setProperty (h : Lined g) {ins : Instruction} (hvalue : Spells ins.propertyOther) :
    Makes StaysLined g (setProperty ins) fun _ _ => True := by
  unfold setProperty
  refine (lines_propertySlot h _ _).bind fun dst g₁ _ ⟨hg, hdst⟩ => ?_
  subst hg
  exact (lines_operand h hvalue).bind fun src _ _ ⟨_, hsrc⟩ => lines_emitLowered (unbroken_assign hdst hsrc)

theorem lines_functionDef (ins : Instruction) : Makes StaysLined g (functionDef ins) fun _ _ => True := by
  unfold functionDef
  split
  · exact .pure trivial
  · refine .get_bind ?_
    split
    · exact .pure trivial
    · exact .change fun h => ⟨h.ns, h.objective, h.newId, h.exits, h.commands⟩

/-! ## Calls -/

theorem lines_argumentFor (f : Function) (args : List Argument) (p : Parameter)
    (hargs : ∀ a ∈ args, Spells a.value) (hdefault : Spells p.default) :
    Makes StaysLined g (argumentFor f args p) fun r g' => g' = g ∧ Spells r := by
  unfold argumentFor
  split
  · next a ha => exact .pure ⟨rfl, hargs a (List.mem_of_find?_eq_some ha)⟩
  · split
    · next d hd => exact .pure ⟨rfl, hd ▸ hdefault⟩
    · exact .throw _

theorem lines_callBody (h : Lined g) (result : Option Reference) (f : Function) {args : List Argument}
    (hargs : ∀ a ∈ args, Spells a.value) (hdefaults : ∀ p ∈ f.params, Spells p.default) :
    Makes StaysLined g (callBody result f args) fun _ _ => True := by
  unfold callBody
  refine .get_bind ?_
  refine (Makes.orFail (Q := fun _ _ => True) fun _ _ => trivial).bind fun body g₁ hreach _ => ?_
  refine (Makes.forM_reached fun p hp g' hreach' => ?_).bind fun _ g₂ hreach' _ => .get_bind ?_
  · have hg' := h.of_reaches (hreach.trans hreach')
    refine (lines_argumentFor f args p hargs (hdefaults p hp)).bind fun r g₂ _ ⟨hg, hr⟩ => ?_
    subst hg
    refine (lines_operand hg' hr).bind fun src g₃ _ ⟨hg, hsrc⟩ => .get_bind ?_
    subst hg
    exact lines_emitLowered (unbroken_assign (hg'.place _ _) hsrc)
  have hg₂ := h.of_reaches (hreach.trans hreach')
  refine (lines_emit (.single (hg₂.callRegion body))).bind fun _ g₃ hreach'' _ => ?_
  have hg₃ := hg₂.of_reaches hreach''
  split
  · exact .pure trivial
  · split
    · exact .pure trivial
    · refine (lines_destination hg₃ _).bind fun dst g₄ _ ⟨hg, hdst⟩ => .get_bind ?_
      subst hg
      exact (lines_emit (unbroken_copy hdst (hg₃.place _ _))).bind fun _ _ _ _ => .pure trivial

theorem lines_callMethod (h : Lined g) {ins : Instruction}
    (hspells : ∀ f, ins.function? = some f →
      (∀ a ∈ ins.arguments, Spells a.value) ∧ ∀ p ∈ f.params, Spells p.default) :
    Makes StaysLined g (callMethod ins) fun _ _ => True := by
  unfold callMethod
  refine (Makes.orFail (Q := fun f g' => g' = g ∧ ins.function? = some f) fun _ h => ⟨rfl, h⟩).bind
    fun f g₁ _ ⟨hg, hf⟩ => ?_
  subst hg
  obtain ⟨hargs, hdefaults⟩ := hspells f hf
  refine (lines_callBody h _ f hargs hdefaults).bind fun body g₂ hreach _ => ?_
  refine .forM_reached fun p _ g' hreach' => ?_
  have hg' := h.of_reaches (hreach.trans hreach')
  split
  · exact .pure trivial
  · split
    · exact .pure trivial
    · refine (lines_destination hg' _).bind fun dst g₃ _ ⟨hg, hdst⟩ => .get_bind ?_
      subst hg
      exact lines_emit (unbroken_copy hdst (hg'.place _ _))

theorem lines_addArgument (h : Lined g) {a : Argument} (ha : Spells a.value) {acc : Arguments}
    (hacc : ∀ x ∈ acc, x.2.Unbroken) :
    Makes StaysLined g (addArgument acc a) fun xs g' => g' = g ∧ ∀ x ∈ xs, x.2.Unbroken := by
  obtain ⟨hreach, hvalue⟩ := lines_operand h ha
  unfold Makes
  rcases hrun : (operand a.value).run g with ⟨e | o, g'⟩
  · rw [hrun] at hreach
    rw [run_addArgument_error acc hrun]
    exact ⟨hreach, fun _ h => by cases h⟩
  · rw [hrun] at hreach hvalue
    obtain ⟨rfl, ho⟩ := hvalue o rfl
    rw [run_addArgument_ok acc hrun]
    refine ⟨hreach, fun xs hxs => ⟨rfl, ?_⟩⟩
    cases hxs
    exact List.forall_mem_cons.2 ⟨ho, fun x hx => hacc x (List.mem_filter.1 hx).1⟩

theorem lines_argumentValues (h : Lined g) {args : List Argument} (hargs : ∀ a ∈ args, Spells a.value) :
    Makes StaysLined g (argumentValues args) fun xs g' => g' = g ∧ ∀ x ∈ xs, x.2.Unbroken := by
  have hfold : ∀ acc : Arguments, (∀ x ∈ acc, x.2.Unbroken) →
      Makes StaysLined g (args.foldlM addArgument acc) fun xs g' => g' = g ∧ ∀ x ∈ xs, x.2.Unbroken := by
    induction args with
    | nil => exact fun acc hacc => .pure ⟨rfl, hacc⟩
    | cons a args ih =>
        intro acc hacc
        obtain ⟨ha, hargs⟩ := List.forall_mem_cons.1 hargs
        rw [List.foldlM_cons]
        refine (lines_addArgument h ha hacc).bind fun xs g' _ hxs => ?_
        obtain ⟨rfl, hxs⟩ := hxs
        exact ih hargs xs hxs
  exact hfold [] (List.forall_mem_nil _)

theorem lines_renderTemplate (h : Lined g) (name : String) {args : Arguments}
    (hargs : ∀ x ∈ args, x.2.Unbroken) : Makes StaysLined g (renderTemplate name args) fun _ _ => True := by
  unfold renderTemplate
  refine .get_bind ?_
  extract_lets renderer args'
  have hargs' : ∀ x ∈ args', x.2.Unbroken := by
    intro x hx
    obtain ⟨⟨p, o⟩, ho, rfl⟩ := List.mem_map.1 hx
    have ho := hargs _ ho
    cases o with
    | literal l => exact unbroken_argumentForm ho
    | slot s => exact ho
  split
  · exact lines_report _
  · exact .throw _
  · next r hr =>
    have hcommands : AllUnbroken r.commands := by
      refine unbroken_render unbroken_builtinTemplates h.ns ?_ ?_ (h.newId _) hargs' hr
      · exact unbroken_append.2 ⟨h.ns, unbroken_word rfl⟩
      · exact unbroken_append.2 ⟨unbroken_word rfl, unbroken_word rfl⟩
    split
    · next path body _ =>
      exact (Makes.change (staysLined_addHelper path body (g.ids + 1))).bind fun _ _ _ _ => lines_emit hcommands
    · exact lines_emit hcommands

/-- A message may show any text. -/
theorem lines_print (ins : Instruction) : Makes StaysLined g (print ins) fun _ _ => True := by
  unfold print
  refine Makes.bind (Q := fun _ _ => True) ?_ fun parts _ _ _ => lines_emit (.single (unbroken_word rfl))
  refine (Makes.mapM (P := fun _ => True) fun a _ g => ?_).post fun _ _ _ => trivial
  exact (edits_operand _).bind fun o _ _ _ => .get_bind (.pure trivial)

theorem lines_callLibraryFunction (h : Lined g) {ins : Instruction} (f : Function)
    (hargs : ∀ a ∈ ins.arguments, Spells a.value) :
    Makes StaysLined g (callLibraryFunction ins f) fun _ _ => True := by
  unfold callLibraryFunction
  refine (lines_argumentValues h hargs).bind fun args g₁ _ ⟨hg, hargs⟩ => ?_
  subst hg
  split
  · exact lines_emitLibrary h _ ⟨unbroken_word rfl, unbroken_word rfl⟩ hargs
  · refine (lines_destination h _).bind fun dst g₂ _ ⟨hg, hdst⟩ => ?_
    subst hg
    exact lines_emitLibrary h _ hdst hargs

/-- A call that shows a message to players. -/
def ShowsMessage (f : Function) : Prop := f.kind = .builtin ∧ f.name = "print"

instance : DecidablePred ShowsMessage := fun _ => inferInstanceAs (Decidable (_ ∧ _))

theorem lines_callBuiltin (h : Lined g) {ins : Instruction} {f : Function}
    (hargs : ¬ShowsMessage f → ∀ a ∈ ins.arguments, Spells a.value) :
    Makes StaysLined g (callBuiltin ins f) fun _ _ => True := by
  unfold callBuiltin
  split
  · exact lines_print ins
  · next hname =>
    split
    · refine (lines_argumentValues h (hargs fun hshows => hname hshows.2)).bind
        fun args g₁ _ ⟨hg, hargs⟩ => ?_
      subst hg
      exact lines_renderTemplate h _ hargs
    · exact lines_report _

theorem lines_call (h : Lined g) {ins : Instruction}
    (hspells : ∀ f, ins.function? = some f → ¬ShowsMessage f →
      (∀ a ∈ ins.arguments, Spells a.value) ∧ ∀ p ∈ f.params, Spells p.default) :
    Makes StaysLined g (call ins) fun _ _ => True := by
  unfold call
  refine (Makes.orFail (Q := fun f g' => g' = g ∧ ins.function? = some f) fun _ h => ⟨rfl, h⟩).bind
    fun f g₁ _ ⟨hg, hf⟩ => ?_
  subst hg
  have hspells := hspells f hf
  split
  · exact lines_callBuiltin h fun hshows => (hspells hshows).1
  · next hkind =>
    exact lines_callLibraryFunction h f (hspells fun hshows => nomatch hkind.symm.trans hshows.1).1
  · next hbuiltin _ =>
    obtain ⟨hargs, hdefaults⟩ := hspells fun hshows => hbuiltin hshows.1
    exact (lines_callBody h _ f hargs hdefaults).bind fun _ _ _ _ => .pure trivial

/-! ## Control flow -/

theorem lines_checkFlag (h : Lined g) {flag : String} (hflag : Text.Unbroken flag) (e : Exit) :
    Makes StaysLined g (checkFlag flag e) fun cs _ => AllUnbroken cs := by
  have hslot := h.flag hflag
  have hraised : ∀ c : Command, c.Unbroken → AllUnbroken [ifRaised (Layout.flag g flag) c] :=
    fun c hc => .single ⟨hslot, trivial, hc⟩
  unfold checkFlag
  refine .get_bind ?_
  extract_lets slot
  split
  · exact .pure (hraised _ trivial)
  · split
    · exact .pure (.single hslot)
    · exact .pure (hraised _ hslot)
    · split
      · exact .pure .nil
      · next check _ =>
        have hcall := hraised (.returnRun (callRegion g check)) (h.callRegion check)
        split
        · exact (Makes.change (staysLined_reset check hslot)).bind fun _ _ _ _ => .pure hcall
        · exact .pure hcall

theorem lines_afterCall (h : Lined g) (n : Nat) :
    Makes StaysLined g (afterCall n) fun cs _ => AllUnbroken cs := by
  unfold afterCall
  refine .get_bind ?_
  refine (Makes.mapM_reached (P := AllUnbroken) fun x hx g' hreach => ?_).bind
    fun checks _ _ hchecks => .pure (.flatten hchecks)
  obtain ⟨flag, -, hlookup⟩ := List.mem_filterMap.1 hx
  obtain ⟨e, he, rfl⟩ := Option.map_eq_some_iff.1 hlookup
  obtain ⟨front, back, hexits, -⟩ := List.lookup_eq_some_iff.1 he
  have hflag := h.exits (flag, e) (hexits ▸ List.mem_append_right _ List.mem_cons_self)
  exact lines_checkFlag (h.of_reaches hreach) hflag e

theorem lines_settle (h : Lined g) (ns : List Nat) : Makes StaysLined g (settle ns) fun _ _ => True :=
  .forM_reached fun n _ _ hreach => (lines_afterCall (h.of_reaches hreach) n).bind fun _ _ _ hcs => lines_emit hcs

theorem lines_jumpTo (h : Lined g) (name : String) : Makes StaysLined g (jumpTo name) fun _ _ => True := by
  unfold jumpTo
  refine (makes_regionNamed name).bind fun n g' _ ⟨hg, hn⟩ => .get_bind ?_
  subst hg
  split
  · exact lines_emit (.single (h.callRegion n))
  · refine (lines_emit (.single (h.callRegion n))).bind fun _ g₁ hreach _ => ?_
    have hsettle := lines_settle (h.of_reaches hreach) [n]
    rwa [settle_singleton] at hsettle

theorem lines_branchTo (h : Lined g) {flag : Slot} (hflag : flag.Unbroken) (p : Polarity) (name : String) :
    Makes StaysLined g (branchTo flag p name) fun _ _ => True := by
  unfold branchTo
  split
  · exact .pure trivial
  · refine (makes_regionNamed name).bind fun n g' _ ⟨hg, hn⟩ => .get_bind ?_
    subst hg
    have hcall : AllUnbroken [.guarded p flag (.exactly 0) (callRegion g' n)] :=
      .single ⟨hflag, trivial, h.callRegion n⟩
    exact (lines_emit hcall).bind fun _ _ _ _ => .pure trivial

theorem lines_branches (h : Lined g) {flag : Slot} (hflag : flag.Unbroken) (onTrue onFalse : String) :
    Makes StaysLined g
      (do
        let onTrue ← branchTo flag .fails onTrue
        let onFalse ← branchTo flag .holds onFalse
        settle (onTrue ++ onFalse)) fun _ _ => True := by
  refine (lines_branchTo h hflag .fails onTrue).bind fun ns g₁ hreach _ => ?_
  have hg₁ := h.of_reaches hreach
  refine (lines_branchTo hg₁ hflag .holds onFalse).bind fun ms g₂ hreach' _ => ?_
  exact lines_settle (hg₁.of_reaches hreach') (ns ++ ms)

theorem lines_freshName (stem : String) : Makes StaysLined g (Gen.freshName stem) fun name _ =>
    ∃ n : Nat, name = stem ++ toString n :=
  .of_yields (.freshName stem) (.single fun h => ⟨h.ns, h.objective, h.newId, h.exits, h.commands⟩) ⟨_, rfl⟩

/-- A condition is tested, never written. -/
theorem lines_condJump (h : Lined g) (ins : Instruction) : Makes StaysLined g (condJump ins) fun _ _ => True := by
  unfold condJump
  refine (edits_operand _).bind fun o g₁ _ ⟨hg, _, hslot⟩ => ?_
  subst hg
  cases o with
  | literal l =>
      dsimp only
      generalize (if l.truthy?.getD false then ins.onTrue else ins.onFalse) = name
      split
      · exact .pure trivial
      · exact lines_jumpTo h _
  | slot s =>
      obtain ⟨v, -, rfl⟩ := hslot s rfl
      have hs := h.slot v
      dsimp only
      split
      · refine (lines_freshName _).bind fun name g₂ hreach ⟨n, hname⟩ => .get_bind ?_
        have hg₂ := h.of_reaches hreach
        have hsaved : (Slot.score name g₂.ns).Unbroken :=
          ⟨hname ▸ unbroken_append.2 ⟨unbroken_word rfl, unbroken_nat n⟩, hg₂.ns⟩
        refine (lines_emit (unbroken_copy hsaved hs)).bind fun _ g₃ hreach' _ => ?_
        exact lines_branches (hg₂.of_reaches hreach') hsaved _ _
      · exact lines_branches h hs _ _

theorem staysLined_register {flag : String} (hflag : Text.Unbroken flag) (x : Exit) :
    StaysLined g (register g flag x) := by
  intro h
  unfold register
  split
  · exact h
  · refine ⟨h.ns, h.objective, h.newId, fun y hy => ?_, h.commands⟩
    rcases List.mem_append.1 hy with hy | hy
    · exact h.exits y hy
    · rw [List.mem_singleton.1 hy]
      exact hflag

theorem staysLined_markFrames (flag : String) (ms : List Nat) : StaysLined g (markFrames flag ms g) := by
  refine fun h => ⟨h.ns, h.objective, h.newId, h.exits, fun n c hc => ?_⟩
  unfold commandsAt markFrames at hc
  rw [commands_markAll] at hc
  exact h.commands n c hc

theorem lines_raise (h : Lined g) (kind : ExitKind) {flag : String} (hflag : Text.Unbroken flag)
    (consumer : Nat) : Makes StaysLined g (raise kind flag consumer) fun _ _ => True := by
  have hcommands : AllUnbroken [.setScore (Layout.flag g flag) 1, .ret 0] :=
    List.forall_mem_cons.2 ⟨h.flag hflag, List.forall_mem_singleton.2 trivial⟩
  have hregister : Reaches StaysLined g (register g flag ⟨kind, consumer⟩) :=
    .single (staysLined_register hflag _)
  exact .of_yields (yields_raised g kind flag consumer)
    ((hregister.tail (staysLined_emit hcommands)).tail (staysLined_markFrames _ _)) trivial

theorem lines_breakLoop (h : Lined g) (ins : Instruction) :
    Makes StaysLined g (breakLoop ins) fun _ _ => True := by
  unfold breakLoop
  refine (makes_loopOf _).bind fun loop g' _ ⟨hg, _⟩ => .get_bind ?_
  subst hg
  exact lines_raise h _ (unbroken_append.2 ⟨unbroken_word rfl, unbroken_holder _⟩) _

theorem lines_continueLoop (h : Lined g) (ins : Instruction) :
    Makes StaysLined g (continueLoop ins) fun _ _ => True := by
  unfold continueLoop
  refine (makes_loopOf _).bind fun loop g₁ _ ⟨hg, _⟩ => .get_bind ?_
  subst hg
  extract_lets missing
  refine (Makes.orFail (Q := fun _ g' => g' = g₁) fun _ _ => rfl).bind fun body g₂ _ hg => ?_
  subst hg
  refine (Makes.orFail (Q := fun _ g' => g' = g₂) fun _ _ => rfl).bind fun check g₃ _ hg => ?_
  subst hg
  split
  · exact lines_emit (.single (h.callRegion check))
  · exact lines_raise h _ (unbroken_append.2 ⟨unbroken_word rfl, unbroken_holder _⟩) _

theorem lines_storeReturn (h : Lined g) (body : Nat) {value : Option Reference} (hvalue : Spells value) :
    Makes StaysLined g (storeReturn body value) fun _ _ => True := by
  unfold storeReturn
  split
  · exact .pure trivial
  · refine .get_bind ((Makes.orFail (Q := fun _ g' => g' = g) fun _ _ => rfl).bind fun f g₁ _ hg => ?_)
    subst hg
    refine (lines_operand h hvalue).bind fun src g₂ _ ⟨hg, hsrc⟩ => ?_
    exact lines_emitLowered (unbroken_assign (h.place _ _) hsrc)

theorem lines_ret (h : Lined g) {ins : Instruction} (hvalue : Spells (ins.refAt 0)) :
    Makes StaysLined g (ret ins) fun _ _ => True := by
  unfold ret
  refine .get_bind ?_
  split
  · exact lines_emit (.single trivial)
  · refine (lines_storeReturn h _ hvalue).bind fun _ g' hreach _ => ?_
    split
    · exact lines_emit (.single trivial)
    · exact lines_raise (h.of_reaches hreach) _ (unbroken_append.2 ⟨unbroken_word rfl, unbroken_holder _⟩) _

/-! ## Instructions -/

/-- The defaults of the parameters of the function that an instruction calls. -/
def defaults (ins : Instruction) : List Literal :=
  (ins.function?.toList.flatMap Function.params).filterMap fun p => literalOf p.default

/-- The literals that an instruction may write into commands as they are.  A condition is only tested, and
a message to players is written as JSON. -/
def written (ins : Instruction) : List Literal :=
  match ins.op with
  | .condJump => []
  | .call => if ins.function?.any (ShowsMessage ·) then [] else ins.literals ++ defaults ins
  | .callMethod => ins.literals ++ defaults ins
  | _ => ins.literals

/-- An instruction whose opcode has a processor and that writes no text literal with a line break. -/
def Plain (ins : Instruction) : Prop :=
  ins.op ∈ Opcode.all ∧ ∀ l ∈ written ins, LiteralUnbroken l

instance : DecidablePred Plain := fun _ => inferInstanceAs (Decidable (_ ∧ _))

theorem spells_of_mem_reads {ins : Instruction} (h : ∀ l ∈ ins.literals, LiteralUnbroken l)
    {r : Option Reference} (hr : ∀ x, r = some x → x ∈ ins.reads) : Spells r := by
  intro l hl
  refine h l (List.mem_filterMap.2 ⟨.literal l, ?_, rfl⟩)
  exact List.mem_append_right _ (hr _ hl)

theorem spells_refAt {ins : Instruction} (h : ∀ l ∈ ins.literals, LiteralUnbroken l) {i : Nat}
    (hi : i ∈ ins.readSlots) : Spells (ins.refAt i) :=
  spells_of_mem_reads h fun _ hx => List.mem_append_left _ (List.mem_filterMap.2 ⟨i, hi, hx⟩)

theorem spells_arguments {ins : Instruction} (h : ∀ l ∈ ins.literals, LiteralUnbroken l)
    (hcall : ins.isCall = true) : ∀ a ∈ ins.arguments, Spells a.value := by
  intro a ha
  refine spells_of_mem_reads h fun x hx => List.mem_append_right _ ?_
  rw [if_pos hcall]
  exact List.mem_filterMap.2 ⟨a, ha, hx⟩

theorem spells_call {ins : Instruction} (hcall : ins.isCall = true)
    (h : ∀ l ∈ ins.literals ++ defaults ins, LiteralUnbroken l) {f : Function} (hf : ins.function? = some f) :
    (∀ a ∈ ins.arguments, Spells a.value) ∧ ∀ p ∈ f.params, Spells p.default := by
  obtain ⟨hliterals, hdefaults⟩ := List.forall_mem_append.1 h
  refine ⟨spells_arguments hliterals hcall, fun p hp l hl => hdefaults l (List.mem_filterMap.2 ⟨p, ?_, ?_⟩)⟩
  · simpa [hf] using hp
  · rw [hl]
    rfl

theorem lines_declare (ins : Instruction) : Makes StaysLined g (declare ins) fun _ _ => True := by
  unfold declare
  split
  · next v _ =>
    refine .change fun h => ⟨h.ns, h.objective, h.newId, h.exits, fun n c hc => h.commands n c ?_⟩
    unfold commandsAt at hc ⊢
    rwa [Regions.commands_update (f := (·.declare v)) fun _ => rfl] at hc
  · exact .throw _

theorem lines_pop : Makes StaysLined g Gen.pop fun _ _ => True := by
  cases hstack : g.stack with
  | nil =>
      have hpop : g.pop? = none := by rw [Generation.pop?, hstack]
      unfold Gen.pop
      refine .get_bind ?_
      rw [hpop]
      exact .throw _
  | cons n stack =>
      exact .of_yields (.pop hstack) (.single fun h => ⟨h.ns, h.objective, h.newId, h.exits, h.commands⟩) trivial

/-- Processing an instruction that writes no line break keeps what is generated free of them. -/
theorem lines_find (h : Lined g) {ins : Instruction} (hplain : Plain ins) :
    Makes StaysLined g (processors.find ins.op ins) fun _ _ => True := by
  obtain ⟨hdefined, hwritten⟩ := hplain
  have hspells : ∀ i ∈ ins.readSlots, written ins = ins.literals → Spells (ins.refAt i) :=
    fun i hi heq => spells_refAt (heq ▸ hwritten) hi
  unfold written Instruction.readSlots at hspells
  unfold written at hwritten
  cases hop : ins.op with
  | scopeBegin => exact .change fun h => ⟨h.ns, h.objective, h.newId, h.exits, h.commands⟩
  | scopeEnd => exact lines_pop
  | declare => exact lines_declare ins
  | jump => exact lines_jumpTo h _
  | condJump => exact lines_condJump h ins
  | breakLoop => exact lines_breakLoop h ins
  | continueLoop => exact lines_continueLoop h ins
  | function => exact lines_functionDef ins
  | newObject => exact lines_newObject h ins
  | getProperty => exact lines_getProperty h ins
  | classDef => exact .pure trivial
  | undefined code => exact absurd hdefined (by simp [hop, Opcode.all])
  | call =>
      refine lines_call h fun f hf hshows => ?_
      rw [hop] at hwritten
      simp only [hf, Option.any_some, decide_eq_true_eq, if_neg hshows] at hwritten
      exact spells_call (by rw [Instruction.isCall, hop]) hwritten hf
  | callMethod =>
      rw [hop] at hwritten
      exact lines_callMethod h fun f hf => spells_call (by rw [Instruction.isCall, hop]) hwritten hf
  | ret =>
      simp only [hop] at hspells
      exact lines_ret h (hspells 0 (by simp) trivial)
  | assign =>
      simp only [hop] at hspells
      exact lines_assignment h (hspells 1 (by simp) trivial)
  | unaryOp =>
      simp only [hop] at hspells
      exact lines_unary h (hspells 2 (by simp) trivial)
  | binaryOp =>
      simp only [hop] at hspells
      exact lines_binary h (hspells 2 (by simp) trivial) (hspells 3 (by simp) trivial)
  | compare =>
      simp only [hop] at hspells
      exact lines_comparison h (hspells 2 (by simp) trivial) (hspells 3 (by simp) trivial)
  | cast =>
      simp only [hop] at hspells
      exact lines_conversion h (hspells 2 (by simp) trivial)
  | setProperty =>
      simp only [hop] at hspells
      refine lines_setProperty h ?_
      rw [Instruction.propertyOther, hop]
      exact hspells 2 (by simp) trivial

/-! ## Function files -/

theorem lined_processFrom (i : Nat) {s : Stream} (hplain : ∀ ins ∈ s, Plain ins) (h : Lined g) :
    Lined (processFrom processors i g s).1 := by
  induction s generalizing i g with
  | nil => exact h
  | cons ins s ih =>
      obtain ⟨hins, hplain⟩ := List.forall_mem_cons.1 hplain
      have hindex : Lined { g with index := i } := ⟨h.ns, h.objective, h.newId, h.exits, h.commands⟩
      have hreach := (lines_find hindex hins).1
      unfold processFrom
      rcases hrun : (processors.find ins.op ins).run { g with index := i } with ⟨e | a, g'⟩
      all_goals
        rw [hrun] at hreach
        have hlined := hindex.of_reaches hreach
      · dsimp only
        split
        · exact hlined
        · exact ih _ hplain ⟨hlined.ns, hlined.objective, hlined.newId, hlined.exits, hlined.commands⟩
      · exact ih _ hplain hlined

variable {config : Config} {p : Program} {diagnostics : Bag} {newId : Nat → String} {g₀ : Generation}
  {e : Option ProcessingError}

theorem commandsAt_start (hstart : start config p diagnostics newId = .ok g₀) (n : Nat) :
    g₀.commandsAt n = [] := by
  obtain ⟨t, ht⟩ := exists_tree hstart
  obtain ⟨hstarts, -⟩ := starts_of_start hstart ht
  by_cases hn : n < t.nodes.length
  · exact hstarts.commands n hn
  · rw [commandsAt, Regions.at?, List.getElem?_eq_none (by rw [hstarts.length]; omega)]
    rfl

theorem lined_start (hstart : start config p diagnostics newId = .ok g₀) (hns : Text.Unbroken config.ns)
    (hnewId : ∀ n, Text.Unbroken (newId n)) : Lined g₀ := by
  have hcommands := commandsAt_start hstart
  unfold start at hstart
  split at hstart
  · cases hstart
  · split at hstart
    · cases hstart
    · cases hstart
      refine ⟨hns, ?_, hnewId, List.forall_mem_nil _, fun n => ?_⟩
      · change Text.Unbroken (Pool.collect _ _).objective
        rw [(Pool.targets_collect _ _).1]
        exact unbroken_append.2 ⟨hns, unbroken_word rfl⟩
      · rw [hcommands]
        exact .nil

theorem commandsAt_lower (hlower : lower g₀ = (g, e)) (n : Nat) :
    g.commandsAt n = (processFrom processors 0 g₀ g₀.program.code).1.commandsAt n := by
  have hprocess : process processors g₀ = processFrom processors 0 g₀ g₀.program.code := rfl
  rw [lower, hprocess] at hlower
  split at hlower
  · next g₁ hrun =>
    cases hlower
    obtain ⟨helpers, tags, hfinish⟩ := finish_eq g₁
    rw [hfinish, hrun]
    rfl
  · next g₁ e₁ hrun =>
    cases hlower
    rw [hrun]

theorem split_functionText {cs : List Command} (hne : cs ≠ []) (h : AllUnbroken cs) :
    Text.split '\n' (Output.functionText cs) = cs.map Command.text ++ [""] := by
  have hsep : "\n".toList = ['\n'] := by decide
  have hlines : ∀ x ∈ cs.map Command.text, '\n' ∉ x.toList := by
    intro x hx
    obtain ⟨c, hc, rfl⟩ := List.mem_map.1 hx
    exact (h c hc).text.not_mem
  have hsplit := split_append hsep ("\n".intercalate (cs.map Command.text)) ""
  rw [String.append_empty] at hsplit
  rw [Output.functionText, hsplit, split_intercalate hsep (by simpa using hne), flatMap_split hlines]
  rfl

/-- The file of a region is split at its line breaks into the commands of the region, for every program
whose opcodes have processors and whose instructions write no text literal with a line break. -/
theorem lines_of_regionFile (hstart : start config p diagnostics newId = .ok g₀) (hlower : lower g₀ = (g, e))
    (hdebug : config.debug = false) (hns : Text.Unbroken config.ns) (hnewId : ∀ n, Text.Unbroken (newId n))
    (hplain : ∀ ins ∈ p.code, Plain ins) (time : String) :
    ∀ n ∈ g.regions.nonEmpty, (∀ c ∈ g.commandsAt n, Text.Unbroken c.text) ∧
      Text.split '\n' (Output.regionFile time g n).2 = (g.commandsAt n).map Command.text ++ [""] := by
  obtain ⟨t, ht⟩ := exists_tree hstart
  obtain ⟨-, hconfig, hprogram, -⟩ := starts_of_start hstart ht
  have hlined := lined_processFrom 0 (hprogram ▸ hplain) (lined_start hstart hns hnewId)
  obtain ⟨hkept, -⟩ := kept_of_lower hstart hlower
  intro n hn
  have hcommands : AllUnbroken (g.commandsAt n) := by
    rw [commandsAt_lower hlower]
    exact hlined.commands n
  have hne : g.commandsAt n ≠ [] := by simpa [commandsAt] using (List.mem_filter.1 hn).2
  refine ⟨fun c hc => (hcommands c hc).text, ?_⟩
  have hbare : (Output.regionFile time g n).2 = Output.functionText (g.commandsAt n) := by
    unfold Output.regionFile
    rw [hkept, hconfig, hdebug]
    exact String.empty_append
  rw [hbare, split_functionText hne hcommands]

/-- A text variable that is given words in quotes and copied to another. -/
def quotation : Stream :=
  let x : Variable := { id := "x", name := "x", type := .data .string }
  let y : Variable := { id := "y", name := "y", type := .data .string }
  [.declare (some (.var x)), .declare (some (.var y)),
    .assign (some (.var x)) (some (.literal (.str "\"two words\""))), .assign (some (.var y)) (some (.var x))]

theorem lines_of_regionFile_quotation :
    ∃ g₀ g, start {} { code := quotation } [] toString = .ok g₀ ∧ lower g₀ = (g, none) ∧
      (∀ ins ∈ quotation, Plain ins) ∧ 0 ∈ g.regions.nonEmpty ∧ (g.commandsAt 0).length = 2 ∧
      Text.split '\n' (Output.regionFile "" g 0).2 = (g.commandsAt 0).map Command.text ++ [""] := by
  obtain ⟨g₀, g, hstart, hlower, hregion, hlength⟩ :
      ∃ g₀ g, start {} { code := quotation } [] toString = .ok g₀ ∧ lower g₀ = (g, none) ∧
        0 ∈ g.regions.nonEmpty ∧ (g.commandsAt 0).length = 2 := by
    refine ⟨_, _, rfl, Prod.ext rfl (Option.isNone_iff_eq_none.1 ?_), ?_, ?_⟩
    all_goals decide +kernel
  have hplain : ∀ ins ∈ quotation, Plain ins := by decide +kernel
  exact ⟨g₀, g, hstart, hlower, hplain, hregion, hlength, (lines_of_regionFile hstart hlower rfl (by decide)
    (fun n => unbroken_nat n) hplain "" 0 hregion).2⟩

/-- A text variable that is given two lines. -/
def broken : Stream :=
  let x : Variable := { id := "x", name := "x", type := .data .string }
  [.declare (some (.var x)), .assign (some (.var x)) (some (.literal (.str "a\nb")))]

theorem lines_of_regionFile_broken :
    Program.isValid { code := broken } = true ∧ Config.problems {} = [] ∧
      ∃ g₀ g, start {} { code := broken } [] toString = .ok g₀ ∧ lower g₀ = (g, none) ∧
        Bag.hasErrors g.diagnostics = false ∧ 0 ∈ g.regions.nonEmpty ∧
        Text.split '\n' (Output.regionFile "" g 0).2 =
          ["data modify storage mcfc:vars mcfc.x set value \"a", "b\"", ""] ∧
        (g.commandsAt 0).map Command.text = ["data modify storage mcfc:vars mcfc.x set value \"a\nb\""] ∧
        Text.split '\n' (Output.regionFile "" g 0).2 ≠ (g.commandsAt 0).map Command.text ++ [""] := by
  obtain ⟨g₀, g, hstart, hlower, herrors, hregion, hfile, hcommands⟩ :
      ∃ g₀ g, start {} { code := broken } [] toString = .ok g₀ ∧ lower g₀ = (g, none) ∧
        Bag.hasErrors g.diagnostics = false ∧ 0 ∈ g.regions.nonEmpty ∧
        Text.split '\n' (Output.regionFile "" g 0).2 =
          ["data modify storage mcfc:vars mcfc.x set value \"a", "b\"", ""] ∧
        (g.commandsAt 0).map Command.text =
          ["data modify storage mcfc:vars mcfc.x set value \"a\nb\""] := by
    refine ⟨_, _, rfl, Prod.ext rfl (Option.isNone_iff_eq_none.1 ?_), ?_, ?_, ?_, ?_⟩
    all_goals decide +kernel
  refine ⟨by decide +kernel, by decide +kernel, g₀, g, hstart, hlower, herrors, hregion, hfile, hcommands, ?_⟩
  rw [hfile, hcommands]
  exact fun h => absurd (congrArg List.length h) (by decide)

end Datapack.Generation
