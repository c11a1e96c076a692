import Datapack.Proofs.Command.Callees
import Datapack.Proofs.Generation.Walk

/-!
# References of the generator

A generation writes to its regions in few ways.  `Edit A` lists them: the functions called are those of
regions in `A` and helpers that are registered by then.  Every processor makes edits only, and what all
edits keep, the generator keeps.  Some instructions are sure to leave a command behind; the processor of
such an instruction fills the innermost region, or an error is reported.
-/

namespace Datapack.Generation

open Ir Command

variable {A : Nat → Prop} {g g' : Generation}

/-! ## Edits -/

def enginePaths : List String :=
  initPath :: libraries.map (libraryPath ·.name)
    ++ builtinTemplates.map fun t => engineDirectory ++ "/template" ++ "/" ++ t.name

/-- The function of a region in `A`. -/
def OfRegion (A : Nat → Prop) (g : Generation) (f : String) : Prop :=
  ∃ n, A n ∧ f = g.regions.functionRef g.ns n

/-- A function of a region in `A`, or one of the compiler's own that is registered. -/
def Refers (A : Nat → Prop) (g : Generation) (f : String) : Prop :=
  OfRegion A g f ∨ ∃ path ∈ g.helpers.map Prod.fst, f = g.helperRef path

/-- The rounds that an exit starts again are those of checks in `A`. -/
def Restarts (A : Nat → Prop) (g : Generation) (e : Exit) : Prop :=
  e.kind = .continueLoop → ∀ c, g.regions.parent? e.consumer = some c → A c

/-- A change by an instruction that neither opens nor closes a region and declares nothing. -/
inductive Edit (A : Nat → Prop) : Generation → Generation → Prop
  | emit {g : Generation} {cs : List Command} (h : CallOnly (Refers A g) cs) : Edit A g (g.emit cs)
  | note (g : Generation) (fresh ids : Nat) (ds : Bag) :
      Edit A g { g with fresh, ids, diagnostics := g.diagnostics ++ ds }
  | helper (g : Generation) {path : String} {body : List Command} (hpath : path ∈ enginePaths)
      (hbody : CallOnly (fun _ => False) body) : Edit A g (g.addHelper path body)
  | hook (g : Generation) (onLoad onTick : List String)
      (h : ∀ f ∈ onLoad ++ onTick, f ∈ g.onLoad ++ g.onTick ∨ OfRegion A g f) :
      Edit A g { g with onLoad, onTick }
  | register (g : Generation) (flag : String) {e : Exit} (h : Restarts A g e) :
      Edit A g { g with exits := g.exits ++ [(flag, e)] }
  | mark (g : Generation) (flag : String) (ms : List Nat) : Edit A g (markFrames flag ms g)
  | reset (g : Generation) (n : Nat) (s : Slot) :
      Edit A g
        { g with regions := g.regions.update n (·.prepend [.setScore s 0]), resets := n :: g.resets }

theorem Edit.alike (h : Edit A g g') : Alike g g' := by
  cases h with
  | emit _ => exact .emit _ _
  | note => exact ⟨rfl, rfl, rfl, rfl, rfl, rfl, rfl⟩
  | helper _ _ =>
      obtain ⟨helpers, heq⟩ := addHelper_eq g _ _
      rw [heq]
      exact ⟨rfl, rfl, rfl, rfl, rfl, rfl, rfl⟩
  | hook => exact ⟨rfl, rfl, rfl, rfl, rfl, rfl, rfl⟩
  | register _ _ => exact ⟨rfl, rfl, rfl, rfl, rfl, rfl, rfl⟩
  | mark flag ms => exact alike_markFrames flag ms g
  | reset n s =>
      exact ⟨rfl, rfl, rfl, rfl, rfl, rfl, Regions.sketch_update (Region.bare_prepend _) _ _⟩

theorem alike_of_edits (h : Reaches (Edit A) g g') : Alike g g' := h.alike fun _ _ => Edit.alike

theorem addHelper_cases (g : Generation) (path : String) (body : List Command) :
    (path ∈ g.helpers.map Prod.fst ∧ g.addHelper path body = g) ∨
      (path ∉ g.helpers.map Prod.fst ∧
        g.addHelper path body = { g with helpers := g.helpers ++ [(path, body)] }) := by
  have hiff : g.helpers.any (·.1 = path) = true ↔ path ∈ g.helpers.map Prod.fst := by
    simp
  unfold addHelper
  split
  · next h => exact .inl ⟨hiff.1 h, rfl⟩
  · next h => exact .inr ⟨mt hiff.2 h, rfl⟩

theorem mem_helpers_addHelper (g : Generation) (path : String) (body : List Command) :
    path ∈ (g.addHelper path body).helpers.map Prod.fst ∧
      ∀ x ∈ g.helpers.map Prod.fst, x ∈ (g.addHelper path body).helpers.map Prod.fst := by
  rcases addHelper_cases g path body with ⟨hmem, heq⟩ | ⟨-, heq⟩
  · rw [heq]
    exact ⟨hmem, fun _ hx => hx⟩
  · rw [heq, List.map_append]
    exact ⟨List.mem_append_right _ List.mem_cons_self, fun _ hx => List.mem_append_left _ hx⟩

theorem Edit.helpers (h : Edit A g g') : ∀ path ∈ g.helpers.map Prod.fst, path ∈ g'.helpers.map Prod.fst := by
  cases h with
  | helper _ _ => exact (mem_helpers_addHelper g _ _).2
  | _ => exact fun _ h => h

theorem Alike.ofRegion {f : String} (h : Alike g g') : OfRegion A g' f ↔ OfRegion A g f := by
  simp only [OfRegion, h.functionRef, h.ns]

theorem Refers.of_edits {f : String} (h : Refers A g f) (hedits : Reaches (Edit A) g g') : Refers A g' f := by
  have hhelpers : ∀ path ∈ g.helpers.map Prod.fst, path ∈ g'.helpers.map Prod.fst := by
    induction hedits with
    | refl => exact fun _ h => h
    | tail _ hlast ih => exact fun path hpath => hlast.helpers path (ih path hpath)
  have halike := alike_of_edits hedits
  rcases h with h | ⟨path, hpath, rfl⟩
  · exact .inl (halike.ofRegion.2 h)
  · exact .inr ⟨path, hhelpers path hpath, by rw [helperRef, helperRef, halike.ns]⟩

theorem Restarts.of_alike {e : Exit} (h : Restarts A g e) (halike : Alike g g') : Restarts A g' e := by
  intro hkind c hc
  rw [halike.parent?] at hc
  exact h hkind c hc

/-! ## Commands and errors stay -/

/-- A region has a command, or an error has been reported. -/
def FilledAt (n : Nat) (g : Generation) : Prop :=
  g.commandsAt n ≠ [] ∨ ∃ d ∈ g.diagnostics, d.severity = .error

/-- The innermost region has a command, or an error has been reported. -/
def Filled (g : Generation) : Prop := g.current < g.regions.length → FilledAt g.current g

theorem at?_update_cases (rs : Regions) (n m : Nat) (f : Region → Region) :
    (rs.update n f).at? m = rs.at? m ∨ (m < rs.length ∧ (rs.update n f).at? m = f (rs.at? m)) := by
  by_cases hm : m = n
  · by_cases hlt : m < rs.length
    · subst hm
      exact .inr ⟨hlt, Regions.at?_update_self f hlt⟩
    · refine .inl ?_
      unfold Regions.update Regions.at?
      rw [List.getElem?_eq_none (by rw [List.length_modify]; omega), List.getElem?_eq_none (by omega)]
  · exact .inl (Regions.at?_update_ne f hm)

theorem mem_commandsAt_emit {cs : List Command} {n : Nat} {c : Command} (h : c ∈ (g.emit cs).commandsAt n) :
    c ∈ g.commandsAt n ∨ c ∈ cs := by
  unfold commandsAt Generation.emit Generation.emitAt at h
  rcases at?_update_cases g.regions g.current n (·.emit cs) with heq | ⟨-, heq⟩
  · rw [heq] at h
    exact .inl h
  · rw [heq] at h
    exact List.mem_append.1 h

theorem Edit.commandsAt (h : Edit A g g') {n : Nat} {c : Command} (hc : c ∈ g'.commandsAt n) :
    c ∈ g.commandsAt n ∨ ∀ f ∈ c.callees, Refers A g f := by
  cases h with
  | emit hcs => exact (mem_commandsAt_emit hc).imp_right fun hc => hcs c hc
  | helper _ _ =>
      obtain ⟨helpers, heq⟩ := addHelper_eq g _ _
      rw [heq] at hc
      exact .inl hc
  | mark flag ms =>
      unfold Generation.commandsAt markFrames at hc
      rw [commands_markAll] at hc
      exact .inl hc
  | reset m s =>
      unfold Generation.commandsAt at hc
      rcases at?_update_cases g.regions m n (·.prepend [.setScore s 0]) with heq | ⟨-, heq⟩
      · rw [heq] at hc
        exact .inl hc
      · rw [heq] at hc
        rcases List.mem_cons.1 hc with rfl | hc
        · exact .inr (by simp [callees])
        · exact .inl hc
  | _ => exact .inl hc

theorem commandsAt_ne_nil_of_update {rs : Regions} {n m : Nat} {f : Region → Region}
    (hf : ∀ r, r.commands ≠ [] → (f r).commands ≠ []) (h : (rs.at? m).commands ≠ []) :
    ((rs.update n f).at? m).commands ≠ [] := by
  rcases at?_update_cases rs n m f with heq | ⟨-, heq⟩
  · rwa [heq]
  · rw [heq]
    exact hf _ h

theorem FilledAt.of_edit {n : Nat} (h : FilledAt n g) (hedit : Edit A g g') : FilledAt n g' := by
  rcases h with h | ⟨d, hd, herror⟩
  · refine .inl ?_
    cases hedit with
    | emit _ => exact commandsAt_ne_nil_of_update (f := (·.emit _)) (fun r hr => by simp [Region.emit, hr]) h
    | helper _ _ =>
        obtain ⟨helpers, heq⟩ := addHelper_eq g _ _
        rwa [heq]
    | mark flag ms =>
        unfold commandsAt markFrames
        rw [commands_markAll]
        exact h
    | reset m s => exact commandsAt_ne_nil_of_update (f := (·.prepend _)) (fun r hr => by simp [Region.prepend]) h
    | _ => exact h
  · refine .inr ⟨d, ?_, herror⟩
    cases hedit with
    | note fresh ids ds => exact List.mem_append_left _ hd
    | helper _ _ =>
        obtain ⟨helpers, heq⟩ := addHelper_eq g _ _
        rwa [heq]
    | _ => exact hd

theorem FilledAt.of_edits {n : Nat} (h : FilledAt n g) (hedits : Reaches (Edit A) g g') : FilledAt n g' := by
  induction hedits with
  | refl => exact h
  | tail _ hlast ih => exact ih.of_edit hlast

theorem Filled.of_edits (h : Filled g) (hedits : Reaches (Edit A) g g') : Filled g' := by
  have halike := alike_of_edits hedits
  intro hlt
  rw [halike.current, halike.length] at hlt
  rw [halike.current]
  exact (h hlt).of_edits hedits

theorem filled_emit {cs : List Command} (h : cs ≠ []) : Filled (g.emit cs) := by
  intro hlt
  have halike := Alike.emit g cs
  refine .inl ?_
  rw [halike.current, commandsAt_emit (by rwa [halike.current, halike.length] at hlt), if_pos rfl]
  simp [h]

theorem filled_report {d : Diagnostic} (h : d.severity = .error) : Filled (g.report d) :=
  fun _ => .inr ⟨d, List.mem_append_right _ List.mem_cons_self, h⟩

/-! ## Elementary computations -/

namespace Makes

variable {α β : Type} {C : Generation → Generation → Prop} {Q : α → Generation → Prop}

theorem change_of_reaches {f : Generation → Generation} (h : Reaches C g (f g)) :
    Makes C g (Gen.change f) fun _ g' => g' = f g :=
  .of_yields (.change f) h rfl

/-- As `mapM`, where every step starts from a state that is reached. -/
theorem mapM_reached {xs : List α} {f : α → Gen β} {P : β → Prop}
    (h : ∀ x ∈ xs, ∀ g', Reaches C g g' → Makes C g' (f x) fun b _ => P b) :
    Makes C g (xs.mapM f) fun bs _ => ∀ b ∈ bs, P b := by
  induction xs generalizing g with
  | nil =>
      rw [List.mapM_nil]
      exact .pure (by simp)
  | cons x xs ih =>
      rw [List.mapM_cons]
      refine (h x List.mem_cons_self g .refl).bind fun b g' hreach hb => ?_
      refine (ih fun y hy g'' hreach' =>
        h y (List.mem_cons_of_mem _ hy) g'' (hreach.trans hreach')).bind fun bs g'' _ hbs => ?_
      exact .pure (List.forall_mem_cons.2 ⟨hb, hbs⟩)

/-- As `forM`, where every step starts from a state that is reached. -/
theorem forM_reached {xs : List α} {f : α → Gen PUnit}
    (h : ∀ x ∈ xs, ∀ g', Reaches C g g' → Makes C g' (f x) fun _ _ => True) :
    Makes C g (xs.forM f) fun _ _ => True := by
  induction xs generalizing g with
  | nil => exact .pure trivial
  | cons x xs ih =>
      change Makes C g (f x >>= fun _ => xs.forM f) _
      exact (h x List.mem_cons_self g .refl).bind fun _ g' hreach _ => ih fun y hy g'' hreach' =>
        h y (List.mem_cons_of_mem _ hy) g'' (hreach.trans hreach')

theorem filled {m : Gen α} (h : Makes (Edit A) g m Q) (hfilled : Filled g) :
    Makes (Edit A) g m fun _ g' => Filled g' :=
  ⟨h.1, fun _ _ => hfilled.of_edits h.1⟩

end Makes

theorem edits_emit {cs : List Command} (h : CallOnly (Refers A g) cs) :
    Makes (Edit A) g (Gen.emit cs) fun _ g' => cs ≠ [] → Filled g' :=
  .of_yields (.emit cs) (.single (.emit h)) filled_emit

theorem edits_emit_cons {c : Command} {cs : List Command} (h : CallOnly (Refers A g) (c :: cs)) :
    Makes (Edit A) g (Gen.emit (c :: cs)) fun _ g' => Filled g' :=
  (edits_emit h).post fun _ _ hfilled => hfilled (List.cons_ne_nil _ _)

theorem edits_emitLowered {cs : Lowered} (h : Lowered.Acts (Refers A g) cs) :
    Makes (Edit A) g (Gen.emitLowered cs) fun _ g' => Filled g' := by
  cases cs with
  | error u => exact .throw _
  | ok cs => exact (edits_emit (h cs rfl).1).post fun _ _ hfilled => hfilled (h cs rfl).2

theorem edits_emitAssign (dst : Slot) (o : Command.Operand) :
    Makes (Edit A) g (Gen.emitLowered (assign dst o)) fun _ g' => o ≠ .slot dst → Filled g' := by
  cases hassign : assign dst o with
  | error u => exact .throw _
  | ok cs =>
      refine (edits_emit (callOnly_assign hassign)).post fun _ g' hfilled hne => hfilled ?_
      exact (acts_assign (F := fun _ => True) hne cs hassign).2

theorem edits_report {d : Diagnostic} (h : d.severity = .error) :
    Makes (Edit A) g (Gen.change (·.report d)) fun _ g' => Filled g' :=
  .of_yields (.change _) (.single (.note g g.fresh g.ids [d])) (filled_report h)

theorem edits_freshName (stem : String) :
    Makes (Edit A) g (Gen.freshName stem) fun _ _ => True := by
  have hnote := Edit.note (A := A) g (g.fresh + 1) g.ids []
  rw [List.append_nil] at hnote
  exact .of_yields (.freshName stem) (.single hnote) trivial

theorem edits_operand (r : Option Reference) {C : Generation → Generation → Prop} :
    Makes C g (operand r) fun o g' => g' = g ∧ (∀ l, o = .literal l ↔ r = some (.literal l)) ∧
      ∀ s, o = .slot s → ∃ v, varOf r = some v ∧ s = Layout.slot g v := by
  unfold operand
  split
  · exact .throw _
  · exact .pure ⟨rfl, by simp, fun s hs => by cases hs⟩
  · next r hliteral =>
    split
    · next v hv =>
      have hne : ∀ l, r ≠ .literal l := hliteral
      refine .get_bind (.pure ⟨rfl, by simp [hne], fun s hs => ?_⟩)
      exact ⟨v, hv, (Command.Operand.slot.inj hs).symm⟩
    · exact .throw _

theorem edits_destination (r : Option Reference) {C : Generation → Generation → Prop} :
    Makes C g (destination r) fun s g' => g' = g ∧ ∃ v, varOf r = some v ∧ s = Layout.slot g v := by
  unfold destination
  split
  · exact .throw _
  · split
    · next v hv => exact .get_bind (.pure ⟨rfl, v, hv, rfl⟩)
    · exact .throw _

/-! ## Data instructions -/

/-- The two references are not kept in one slot. -/
def Separated (g : Generation) (r r' : Option Reference) : Prop :=
  ∀ v w, varOf r = some v → varOf r' = some w → Layout.slot g v ≠ Layout.slot g w

theorem callOnly_stageInputs (l : Library) (io : Slot) (args : Arguments)
    {C : Generation → Generation → Prop} {F : String → Prop} :
    Makes C g (stageInputs l io args) fun cs _ => CallOnly F cs := by
  unfold stageInputs
  refine (Makes.mapM (P := CallOnly F) fun p _ g' => ?_).bind fun staged g' _ hstaged => ?_
  · refine (Makes.orFail (Q := fun _ _ => True) fun _ _ => trivial).bind fun o g' _ _ => ?_
    split
    · next cs hcs => exact .pure (callOnly_assign hcs)
    · exact .throw _
  · exact .pure (.flatten hstaged)

theorem mem_enginePaths_library {l : Library} (h : l ∈ libraries) : libraryPath l.name ∈ enginePaths :=
  List.mem_append_left _ (List.mem_cons_of_mem _ (List.mem_map_of_mem h))

theorem edits_callLibrary (name : String) (dst : Slot) (args : Arguments) :
    Makes (Edit A) g (callLibrary name dst args) fun cs g' => CallOnly (Refers A g') cs ∧ cs ≠ [] := by
  unfold callLibrary
  refine (Makes.orFail (Q := fun l _ => l ∈ libraries ∧ l.name = name) fun l hl =>
    ⟨List.mem_of_find?_eq_some hl, by simpa using List.find?_some hl⟩).bind fun l g' _ ⟨hl, hname⟩ => .get_bind ?_
  subst hname
  extract_lets io ref finish
  have hfinish : ∀ cs g₁, Reaches (Edit A) g' g₁ → CallOnly (· = ref) cs → cs ≠ [] →
      Makes (Edit A) g₁ (finish cs) fun cs g₂ => CallOnly (Refers A g₂) cs ∧ cs ≠ [] := by
    intro cs g₁ hreach hcs hne
    have hbody : CallOnly (fun _ => False) (l.body io) := .silent rfl .nil
    have hedit : Edit A g₁ (g₁.addHelper (libraryPath l.name) (l.body io)) :=
      .helper g₁ (mem_enginePaths_library hl) hbody
    refine (Makes.change_of_reaches (.single hedit)).bind fun _ g₂ _ hg => .pure ⟨fun c hc f hf => ?_, hne⟩
    refine .inr ⟨libraryPath l.name, ?_, ?_⟩
    · rw [hg]
      exact (mem_helpers_addHelper g₁ _ _).1
    · rw [hcs c hc f hf, helperRef, hg, hedit.alike.ns, (alike_of_edits hreach).ns]
      rfl
  split
  · split
    · next cs hcs =>
      obtain ⟨hcalls, hne⟩ := acts_concat (F := (· = ref)) rfl _ _ cs hcs
      exact (Makes.pure (Q := fun ds _ => ds = cs) rfl).bind fun ds g₁ hreach hds =>
        hfinish ds g₁ hreach (hds ▸ hcalls) (hds ▸ hne)
    · exact (Makes.throw (Q := fun _ _ => False) _).bind fun _ _ _ h => h.elim
  · refine (callOnly_stageInputs (F := (· = ref)) l io args).bind fun staged g₁ hreach hstaged => ?_
    refine Makes.bind (Q := fun cs _ => CallOnly (· = ref) cs ∧ cs ≠ []) (.pure ⟨?_, by simp⟩)
      fun cs g₂ hreach' hcs => hfinish cs g₂ (hreach.trans hreach') hcs.1 hcs.2
    have hcall : CallOnly (· = ref) [.callWith ref io] := .cons (by simp [callees]) .nil
    refine (hstaged.append hcall).append ?_
    split
    · exact .nil
    · exact callOnly_copy _ _

theorem edits_emitLibrary (name : String) (dst : Slot) (args : Arguments) :
    Makes (Edit A) g (callLibrary name dst args >>= Gen.emit) fun _ g' => Filled g' :=
  (edits_callLibrary name dst args).bind fun _ _ _ ⟨hcalls, hne⟩ =>
    (edits_emit hcalls).post fun _ _ hfilled => hfilled hne

/-- Assigning between references that are not kept in one slot leaves a command. -/
theorem edits_assignment (ins : Instruction) :
    Makes (Edit A) g (assignment ins) fun _ g' =>
      Separated g (ins.refAt 0) (ins.refAt 1) → Filled g' := by
  unfold assignment
  refine (edits_destination _).bind fun dst g₁ _ ⟨hg, v, hv, hdst⟩ => ?_
  refine (edits_operand _).bind fun src g₂ _ ⟨hg', _, hsrc⟩ => ?_
  subst hg hg'
  refine (edits_emitAssign dst src).post fun _ g' hfilled hseparated => hfilled fun heq => ?_
  obtain ⟨w, hw, hslot⟩ := hsrc dst heq
  exact hseparated v w hv hw (hdst ▸ hslot)

theorem edits_binary (ins : Instruction) : Makes (Edit A) g (binary ins) fun _ g' => Filled g' := by
  unfold binary
  refine (edits_destination _).bind fun dst _ _ _ => (edits_operand _).bind fun l _ _ _ => ?_
  refine (edits_operand _).bind fun r _ _ _ => ?_
  split
  · exact edits_emitLibrary _ _ _
  · exact .get_bind (edits_emitLowered (acts_binaryOp _ l r))

theorem edits_comparison (ins : Instruction) : Makes (Edit A) g (comparison ins) fun _ g' => Filled g' := by
  unfold comparison
  refine (edits_destination _).bind fun dst _ _ _ => (edits_operand _).bind fun l _ _ _ => ?_
  exact (edits_operand _).bind fun r _ _ _ => .get_bind (edits_emitLowered (acts_compare _ l r))

theorem edits_unary (ins : Instruction) : Makes (Edit A) g (unary ins) fun _ g' => Filled g' := by
  unfold unary
  refine (edits_destination _).bind fun dst _ _ _ => (edits_operand _).bind fun x _ _ _ => ?_
  exact .get_bind (edits_emitLowered (acts_unaryOp _ x))

theorem edits_castSlot (dst : Slot) (target : DataType) (source : Ty) (src : Slot) :
    Makes (Edit A) g (castSlot dst target source src) fun _ g' => dst ≠ src → Filled g' := by
  unfold castSlot
  split
  · exact (edits_emitLibrary _ _ _).post fun _ _ hfilled _ => hfilled
  · split
    · refine .get_bind ((edits_emit ?_).post fun _ _ hfilled _ => hfilled ?_)
      · unfold truthOf
        split
        · exact .silent rfl .nil
        · exact .append (callOnly_copy _ _) (.silent rfl .nil)
      · unfold truthOf
        split <;> simp
    · split
      · exact .throw _
      · exact (edits_emit (callOnly_copy dst src)).post fun _ _ hfilled hne => hfilled (copy_ne_nil hne)

theorem edits_conversion (ins : Instruction) :
    Makes (Edit A) g (conversion ins) fun _ g' =>
      Separated g (ins.refAt 0) (ins.refAt 2) → Filled g' := by
  unfold conversion
  refine (edits_destination _).bind fun dst g₁ _ ⟨hg, v, hv, hdst⟩ => ?_
  refine (edits_operand _).bind fun o g₂ _ ⟨hg', _, ho⟩ => ?_
  subst hg hg'
  cases o with
  | literal l =>
      dsimp only
      split
      · exact (edits_emitLowered (acts_store dst _)).post fun _ _ hfilled _ => hfilled
      · exact .throw _
  | slot s =>
      refine (edits_castSlot dst _ _ s).post fun _ g' hfilled hseparated => hfilled ?_
      obtain ⟨w, hw, hslot⟩ := ho s rfl
      rw [hdst, hslot]
      exact hseparated v w hv hw

theorem edits_newObject (ins : Instruction) : Makes (Edit A) g (newObject ins) fun _ g' => Filled g' := by
  unfold newObject
  exact (edits_destination _).bind fun dst _ _ _ => edits_emit_cons (.silent rfl .nil)

theorem edits_propertySlot (obj : Option Reference) (name : String) :
    Makes (Edit A) g (propertySlot obj name) fun s g' => g' = g ∧ s.space = .storage := by
  unfold propertySlot
  refine (edits_operand _).bind fun o g₁ _ ⟨hg, _⟩ => ?_
  subst hg
  cases o with
  | literal l => exact .throw _
  | slot s =>
      dsimp only
      split
      · next hspace => exact .pure ⟨rfl, hspace⟩
      · exact .throw _

def IsScore (r : Option Reference) : Prop := ∀ v, varOf r = some v → Space.ofType v.type = .score

theorem space_slot (g : Generation) (v : Variable) : (Layout.slot g v).space = Space.ofType v.type := by
  have hplace : ∀ ns path, (place ns path v.type).space = Space.ofType v.type := by
    intro ns path
    unfold place
    cases Space.ofType v.type <;> rfl
  unfold Layout.slot
  split
  · split
    · exact hplace _ _
    · exact hplace _ _
  · exact hplace _ _

theorem edits_getProperty (ins : Instruction) :
    Makes (Edit A) g (getProperty ins) fun _ g' => IsScore ins.propertyOther → Filled g' := by
  unfold getProperty
  refine (edits_propertySlot _ _).bind fun src g₁ _ ⟨hg, hspace⟩ => ?_
  refine (edits_destination _).bind fun dst g₂ _ ⟨hg', v, hv, hdst⟩ => ?_
  refine (edits_emit (callOnly_copy dst src)).post fun _ g' hfilled hscore => hfilled (copy_ne_nil ?_)
  rintro rfl
  rw [hdst, space_slot, hscore v hv] at hspace
  cases hspace

theorem edits_setProperty (ins : Instruction) :
    Makes (Edit A) g (setProperty ins) fun _ g' => IsScore ins.propertyOther → Filled g' := by
  unfold setProperty
  refine (edits_propertySlot _ _).bind fun dst g₁ _ ⟨hg, hspace⟩ => ?_
  refine (edits_operand _).bind fun src g₂ _ ⟨hg', _, hsrc⟩ => ?_
  refine (edits_emitAssign dst src).post fun _ g' hfilled hscore => hfilled fun heq => ?_
  obtain ⟨v, hv, rfl⟩ := hsrc dst heq
  rw [space_slot, hscore v hv] at hspace
  cases hspace

theorem edits_fallback (ins : Instruction) :
    Makes (Edit A) g (Processors.fallback ins) fun _ g' => Filled g' := by
  unfold Processors.fallback
  refine Makes.bind (Q := fun _ _ => True) (.get_bind (.pure trivial)) fun classes g₁ _ _ => ?_
  have hcomment : CallOnly (Refers A g₁) [.comment ("unsupported: " ++ ins.text classes)] :=
    .silent rfl .nil
  refine (edits_emit_cons hcomment).bind fun _ g₂ _ hfilled => ?_
  exact (Makes.change_of_reaches (.single (.note g₂ g₂.fresh g₂.ids [_]))).filled hfilled

/-! ## Calls -/

theorem edits_argumentFor (f : Function) (args : List Argument) (p : Parameter)
    {C : Generation → Generation → Prop} : Makes C g (argumentFor f args p) fun _ _ => True := by
  unfold argumentFor
  split
  · exact .pure trivial
  · split
    · exact .pure trivial
    · exact .throw _

/-- Calling a function with a body in `A`. -/
theorem edits_callBody (result : Option Reference) (f : Function) (args : List Argument)
    (hbody : ∀ n, g.bodyOf? f = some n → A n) :
    Makes (Edit A) g (callBody result f args) fun _ g' => Filled g' := by
  unfold callBody
  refine .get_bind ?_
  refine (Makes.orFail (Q := fun body _ => A body) hbody).bind fun body g₁ _ hbody => ?_
  refine Makes.bind (Q := fun _ _ => True) (.forM fun p _ g => ?_) fun _ g₂ _ _ => .get_bind ?_
  · refine (edits_argumentFor f args p).bind fun r _ _ _ => (edits_operand r).bind fun src _ _ _ => ?_
    exact .get_bind ((edits_emitAssign _ src).post fun _ _ _ => trivial)
  have hcall : CallOnly (Refers A g₂) [callRegion g₂ body] :=
    .cons (List.forall_mem_singleton.2 (.inl ⟨body, hbody, rfl⟩)) .nil
  refine (edits_emit_cons hcall).bind fun _ g₃ _ hfilled => ?_
  -- reading the result back adds to what the call leaves
  split
  · exact .pure hfilled
  · split
    · exact .pure hfilled
    · refine Makes.filled (Q := fun _ _ => True) ?_ hfilled
      refine (edits_destination _).bind fun dst _ _ _ => .get_bind ?_
      exact (edits_emit (callOnly_copy _ _)).bind fun _ _ _ _ => .pure trivial

theorem edits_callMethod (ins : Instruction)
    (hbody : ∀ f, ins.function? = some f → ∀ n, g.bodyOf? f = some n → A n) :
    Makes (Edit A) g (callMethod ins) fun _ g' => Filled g' := by
  unfold callMethod
  refine (Makes.orFail (Q := fun f g' => g' = g ∧ ins.function? = some f) fun _ h => ⟨rfl, h⟩).bind
    fun f g₁ _ ⟨hg, hf⟩ => ?_
  subst hg
  refine (edits_callBody _ _ _ (hbody f hf)).bind fun body g₂ _ hfilled => ?_
  refine Makes.filled (Makes.forM fun p _ g => ?_) hfilled
  split
  · exact .pure trivial
  · split
    · exact .pure trivial
    · refine (edits_destination _).bind fun dst _ _ _ => .get_bind ?_
      exact (edits_emit (callOnly_copy _ _)).post fun _ _ _ => trivial

def addArgument (acc : Arguments) (a : Argument) : Gen Arguments := fun g =>
  match (operand a.value).run g with
  | (.ok o, g) => (.ok ((a.name, o) :: acc.filter (·.1 ≠ a.name)), g)
  | (.error e, g) => (.error (.failed ("argument " ++ Text.quoted a.name ++ ": " ++ e.message)), g)

section AddArgument

variable {g' : Generation} {a : Argument} (acc : Arguments)

theorem run_addArgument_ok {o : Command.Operand} (h : (operand a.value).run g = (.ok o, g')) :
    (addArgument acc a).run g = (.ok ((a.name, o) :: acc.filter (·.1 ≠ a.name)), g') := by
  unfold addArgument
  simp only [ExceptT.run] at h ⊢
  rw [h]

theorem run_addArgument_error {e : GenError} (h : (operand a.value).run g = (.error e, g')) :
    (addArgument acc a).run g
      = (.error (.failed ("argument " ++ Text.quoted a.name ++ ": " ++ e.message)), g') := by
  unfold addArgument
  simp only [ExceptT.run] at h ⊢
  rw [h]

end AddArgument

theorem edits_argumentValues (args : List Argument) {C : Generation → Generation → Prop} :
    Makes C g (argumentValues args) fun _ _ => True := by
  unfold argumentValues
  refine .foldlM (fun acc a _ g => ⟨?_, fun _ _ => trivial⟩) []
  have hreach := (edits_operand (g := g) (C := C) a.value).1
  rcases hrun : (operand a.value).run g with ⟨_ | o, g'⟩
  all_goals
    rw [hrun] at hreach
    simp only [ExceptT.run] at hrun ⊢
    rwa [hrun]

/-- The function made for a template is registered before it is called. -/
theorem edits_renderTemplate (name : String) (args : Arguments) :
    Makes (Edit A) g (renderTemplate name args) fun _ g' => Filled g' := by
  unfold renderTemplate
  refine .get_bind ?_
  extract_lets renderer args
  split
  · exact edits_report rfl
  · exact .throw _
  · next r hr =>
    obtain ⟨hne, hhelper⟩ := render_spec hr
    split
    · next path body hsome =>
      rw [hsome] at hhelper
      obtain ⟨⟨t, ht, rfl⟩, hcalls, hbody⟩ := hhelper
      have hpath : engineDirectory ++ "/template" ++ "/" ++ t.name ∈ enginePaths :=
        List.mem_append_right _ (List.mem_map_of_mem (f := fun t : Template =>
          engineDirectory ++ "/template" ++ "/" ++ t.name) ht)
      obtain ⟨helpers, hadd⟩ := addHelper_eq g (renderer.directory ++ "/" ++ t.name) body
      have hnote := Edit.note (A := A) { g with helpers } g.fresh (g.ids + 1) []
      rw [List.append_nil] at hnote
      have hreach : Reaches (Edit A) g
          { g.addHelper (renderer.directory ++ "/" ++ t.name) body with ids := g.ids + 1 } := by
        refine (Relation.ReflTransGen.single (Edit.helper g hpath hbody)).tail ?_
        rw [hadd]
        exact hnote
      refine (Makes.change_of_reaches hreach).bind fun _ g₁ _ hg => ?_
      refine (edits_emit fun c hc f hf =>
        .inr ⟨renderer.directory ++ "/" ++ t.name, ?_, ?_⟩).post fun _ _ hfilled => hfilled hne
      · rw [hg]
        exact (mem_helpers_addHelper g _ body).1
      · rw [hcalls c hc f hf, hg, helperRef, hadd]
        rfl
    · next hnone =>
      rw [hnone] at hhelper
      exact (edits_emit fun c hc f hf => (hhelper c hc f hf).elim).post fun _ _ hfilled => hfilled hne

theorem edits_print (ins : Instruction) : Makes (Edit A) g (print ins) fun _ g' => Filled g' := by
  unfold print
  refine Makes.bind (Q := fun _ _ => True) ?_ fun parts _ _ _ =>
    edits_emit_cons (.silent rfl .nil)
  refine (Makes.mapM (P := fun _ => True) fun a _ g => ?_).post fun _ _ _ => trivial
  exact (edits_operand _).bind fun o _ _ _ => .get_bind (.pure trivial)

theorem edits_callLibraryFunction (ins : Instruction) (f : Function) :
    Makes (Edit A) g (callLibraryFunction ins f) fun _ g' => Filled g' := by
  unfold callLibraryFunction
  refine (edits_argumentValues _).bind fun args _ _ _ => ?_
  split
  · exact edits_emitLibrary _ _ _
  · exact (edits_destination _).bind fun dst _ _ _ => edits_emitLibrary _ _ _

theorem severity_located (d : Diagnostic) (loc : Option Location) :
    (d.located loc).severity = d.severity := by
  unfold Diagnostic.located
  split
  · split <;> rfl
  · rfl

theorem severity_failureReport (ins : Instruction) (e : GenError) :
    (failureReport ins e).severity = .error := by
  cases e <;> exact severity_located _ _

theorem edits_callBuiltin (ins : Instruction) (f : Function) :
    Makes (Edit A) g (callBuiltin ins f) fun _ g' => Filled g' := by
  unfold callBuiltin
  split
  · exact edits_print ins
  · split
    · exact (edits_argumentValues _).bind fun args _ _ _ => edits_renderTemplate _ _
    · exact edits_report (severity_located _ _)

theorem edits_call (ins : Instruction)
    (hbody : ∀ f, ins.function? = some f → ∀ n, g.bodyOf? f = some n → A n) :
    Makes (Edit A) g (call ins) fun _ g' => Filled g' := by
  unfold call
  refine (Makes.orFail (Q := fun f g' => g' = g ∧ ins.function? = some f) fun _ h => ⟨rfl, h⟩).bind
    fun f g₁ _ ⟨hg, hf⟩ => ?_
  subst hg
  split
  · exact edits_callBuiltin ins f
  · exact edits_callLibraryFunction ins f
  · exact (edits_callBody _ _ _ (hbody f hf)).bind fun _ _ _ hfilled => .pure hfilled

theorem edits_functionDef (ins : Instruction)
    (hhook : ∀ f, ins.function? = some f → f.hasAnnotation "load" ∨ f.hasAnnotation "tick" →
      ∀ n, g.bodyOf? f = some n → A n) :
    Makes (Edit A) g (functionDef ins) fun _ _ => True := by
  unfold functionDef
  split
  · exact .pure trivial
  · next f hf =>
    refine .get_bind ?_
    split
    · exact .pure trivial
    · next body hbody =>
      refine (Makes.change_of_reaches (.single ?_)).post fun _ _ _ => trivial
      refine .hook g _ _ fun x hx => ?_
      have hnew : f.hasAnnotation "load" ∨ f.hasAnnotation "tick" →
          x = g.regions.functionRef g.ns body → OfRegion A g x :=
        fun hannotated hx => ⟨body, hhook f hf hannotated body hbody, hx⟩
      rcases List.mem_append.1 hx with hx | hx
      · split at hx
        · next hload =>
          rcases List.mem_append.1 hx with hx | hx
          · exact .inl (List.mem_append_left _ hx)
          · exact .inr (hnew (.inl hload) (List.mem_singleton.1 hx))
        · exact .inl (List.mem_append_left _ hx)
      · split at hx
        · next htick =>
          rcases List.mem_append.1 hx with hx | hx
          · exact .inl (List.mem_append_right _ hx)
          · exact .inr (hnew (.inr htick) (List.mem_singleton.1 hx))
        · exact .inl (List.mem_append_right _ hx)

end Datapack.Generation
