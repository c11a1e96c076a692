import Datapack.Command.Pool
import Datapack.Command.Template
import Datapack.Proofs.Text.Lines

/-!
# Commands on one line

A function file has a line per command, so that a command with a line break would be read as two.  A
command is unbroken when the texts it is put together from are.  Copying and computing put nothing into
commands but slots and the literals they are given; a text literal is written as it is, up to quotes and
backslashes, so that its line breaks stay.  Messages to players are the exception: they are written as
JSON, which knows an escape for line breaks.
-/

namespace Datapack

open Text

namespace Command

open Ir

/-- A literal that is written on one line: a text literal has no line break. -/
def LiteralUnbroken (l : Literal) : Prop := ∀ s, l = .str s → Unbroken s

instance : DecidablePred LiteralUnbroken
  | .str s => decidable_of_iff (Text.Unbroken s) ⟨fun h _ hs => Literal.str.inj hs ▸ h, fun h => h s rfl⟩
  | .int _ | .bool _ | .null => isTrue nofun

structure Slot.Unbroken (s : Slot) : Prop where
  path : Text.Unbroken s.path
  target : Text.Unbroken s.target

def Operand.Unbroken : Operand → Prop
  | literal l => LiteralUnbroken l
  | slot s => s.Unbroken

def Range.Unbroken : Range → Prop
  | spelled text => Text.Unbroken text
  | _ => True

/-- A condition between slots without line breaks. -/
def Test.Unbroken : Test → Prop
  | inRange s r => s.Unbroken ∧ r.Unbroken
  | related s _ t => s.Unbroken ∧ t.Unbroken

/-- A command put together from texts without line breaks.  A message may show any text. -/
def Unbroken : Command → Prop
  | setScore s _ | addScore s _ | removeScore s _ | removeData s => s.Unbroken
  | operate dst _ src | copyData dst src | scoreToData dst src | dataToScore dst src =>
    dst.Unbroken ∧ src.Unbroken
  | setData dst l => dst.Unbroken ∧ LiteralUnbroken l
  | storeTest dst _ t => dst.Unbroken ∧ t.Unbroken
  | storeChange dst buffer src => dst.Unbroken ∧ buffer.Unbroken ∧ src.Unbroken
  | guarded _ s r c => s.Unbroken ∧ r.Unbroken ∧ c.Unbroken
  | returnRun c => c.Unbroken
  | callWith f args => Text.Unbroken f ∧ args.Unbroken
  | call text | addObjective text | comment text | template text | line text | tell text _ =>
    Text.Unbroken text
  | ret _ => True

theorem unbroken_dataForm {l : Literal} (h : LiteralUnbroken l) : Text.Unbroken (dataForm l) := by
  cases l with
  | int n => exact unbroken_int _
  | bool b => cases b <;> decide
  | null => decide
  | str s =>
      have hquoted : ∀ cs : List Char, '\n' ∉ cs → '\n' ∉ quoteChars cs := by
        intro cs hcs
        induction cs with
        | nil => exact List.not_mem_nil
        | cons c cs ih =>
            obtain ⟨hc, hcs⟩ := List.ne_and_not_mem_of_not_mem_cons hcs
            unfold quoteChars
            split <;> simp [hc, ih hcs]
      have hs := hquoted _ (h s rfl).not_mem
      rw [dataForm, dataText, unbroken_ofList]
      simp [hs]

theorem unbroken_argumentForm {l : Literal} (h : LiteralUnbroken l) : Text.Unbroken (argumentForm l) := by
  cases l with
  | int n => exact unbroken_int _
  | bool b => cases b <;> decide
  | null => decide
  | str s => exact h s rfl

theorem Slot.Unbroken.text {s : Slot} (h : s.Unbroken) : Text.Unbroken s.text := by
  unfold Slot.text
  split <;> simp only [unbroken_append, h.path, h.target, true_and, and_true]
    <;> and_intros <;> exact unbroken_word rfl

theorem Range.Unbroken.text {r : Range} (h : r.Unbroken) : Text.Unbroken r.text := by
  cases r with
  | spelled t => exact h
  | exactly n => exact unbroken_int _
  | atMost n => exact unbroken_append.2 ⟨unbroken_word rfl, unbroken_int _⟩
  | atLeast n => exact unbroken_append.2 ⟨unbroken_int _, unbroken_word rfl⟩

theorem Test.Unbroken.text {t : Test} (h : t.Unbroken) : Text.Unbroken t.text := by
  cases t with
  | inRange s r =>
      obtain ⟨hs, hr⟩ := h
      unfold Test.text
      simp only [unbroken_append, hs.path, hs.target, hr.text, and_true]
      and_intros <;> exact unbroken_word rfl
  | related s rel t =>
      obtain ⟨hs, ht⟩ := h
      have hrel : Text.Unbroken rel.text := by cases rel <;> exact unbroken_word rfl
      unfold Test.text
      simp only [unbroken_append, hs.path, hs.target, ht.path, ht.target, hrel, and_true]
      and_intros <;> exact unbroken_word rfl

/-- A command that is put together from texts without line breaks is written on one line. -/
theorem Unbroken.text {c : Command} (h : c.Unbroken) : Text.Unbroken c.text := by
  induction c with
  | setScore s n | addScore s n | removeScore s n =>
      have hn : Text.Unbroken (toString n.toInt) := unbroken_int _
      unfold Command.text
      simp only [unbroken_append, Slot.Unbroken.path h, Slot.Unbroken.target h, hn, and_true]
      and_intros <;> exact unbroken_word rfl
  | removeData s =>
      unfold Command.text
      simp only [unbroken_append, Slot.Unbroken.path h, Slot.Unbroken.target h, and_true]
      and_intros <;> exact unbroken_word rfl
  | operate dst op src =>
      obtain ⟨hdst, hsrc⟩ := h
      have hop : Text.Unbroken op.text := by cases op <;> exact unbroken_word rfl
      unfold Command.text
      simp only [unbroken_append, hdst.path, hdst.target, hsrc.path, hsrc.target, hop, and_true]
      and_intros <;> exact unbroken_word rfl
  | copyData dst src | scoreToData dst src | dataToScore dst src =>
      obtain ⟨hdst, hsrc⟩ := h
      unfold Command.text
      simp only [unbroken_append, hdst.path, hdst.target, hsrc.path, hsrc.target, and_true]
      and_intros <;> exact unbroken_word rfl
  | setData dst l =>
      obtain ⟨hdst, hl⟩ := h
      unfold Command.text
      simp only [unbroken_append, hdst.path, hdst.target, unbroken_dataForm hl, and_true]
      and_intros <;> exact unbroken_word rfl
  | storeTest dst p t =>
      obtain ⟨hdst, ht⟩ := h
      have hp : Text.Unbroken p.text := by cases p <;> exact unbroken_word rfl
      unfold Command.text
      simp only [unbroken_append, hdst.path, hdst.target, ht.text, hp, and_true]
      and_intros <;> exact unbroken_word rfl
  | storeChange dst buffer src =>
      obtain ⟨hdst, hbuffer, hsrc⟩ := h
      unfold Command.text
      simp only [unbroken_append, hdst.path, hdst.target, hbuffer.path, hbuffer.target, and_true]
      cases src with
      | literal l =>
          simp only [unbroken_append, unbroken_dataForm hsrc, and_true]
          and_intros <;> exact unbroken_word rfl
      | slot s =>
          simp only [unbroken_append, Slot.Unbroken.text hsrc, and_true]
          and_intros <;> exact unbroken_word rfl
  | guarded p s r c ih =>
      obtain ⟨hs, hr, hc⟩ := h
      have hp : Text.Unbroken p.text := by cases p <;> exact unbroken_word rfl
      unfold Command.text
      simp only [unbroken_append, hs.path, hs.target, hr.text, ih hc, hp, and_true]
      and_intros <;> exact unbroken_word rfl
  | callWith f args =>
      obtain ⟨hf, hargs⟩ := h
      unfold Command.text
      simp only [unbroken_append, hf, hargs.path, hargs.target, and_true]
      and_intros <;> exact unbroken_word rfl
  | tell selector parts =>
      have hselector : Text.Unbroken selector := h
      unfold Command.text
      simp only [unbroken_append, hselector, Json.unbroken_compact, and_true]
      and_intros <;> exact unbroken_word rfl
  | addObjective name =>
      exact unbroken_append.2 ⟨unbroken_append.2 ⟨unbroken_word rfl, h⟩, unbroken_word rfl⟩
  | ret n => exact unbroken_append.2 ⟨unbroken_word rfl, unbroken_nat n⟩
  | returnRun c ih => exact unbroken_append.2 ⟨unbroken_word rfl, ih h⟩
  | call text | comment text | template text => exact unbroken_append.2 ⟨unbroken_word rfl, h⟩
  | line content => exact h

/-! ## Copying and computing -/

def AllUnbroken (cs : List Command) : Prop := ∀ c ∈ cs, c.Unbroken

namespace AllUnbroken

variable {cs ds : List Command}

theorem nil : AllUnbroken [] := List.forall_mem_nil _

theorem single {c : Command} (h : c.Unbroken) : AllUnbroken [c] := List.forall_mem_singleton.2 h

theorem append (h : AllUnbroken cs) (h' : AllUnbroken ds) : AllUnbroken (cs ++ ds) :=
  List.forall_mem_append.2 ⟨h, h'⟩

theorem flatten {css : List (List Command)} (h : ∀ cs ∈ css, AllUnbroken cs) : AllUnbroken css.flatten := by
  intro c hc
  obtain ⟨cs, hcs, hc⟩ := List.mem_flatten.1 hc
  exact h cs hcs c hc

end AllUnbroken

/-- What an operation comes to, if anything, is written on one line per command. -/
def Lowered.Unbroken (cs : Lowered) : Prop := ∀ ds, cs = .ok ds → AllUnbroken ds

theorem Lowered.Unbroken.ok {cs : List Command} (h : AllUnbroken cs) : Lowered.Unbroken (.ok cs) := by
  intro ds hds
  cases hds
  exact h

theorem Lowered.Unbroken.error (u : Unsupported) : Lowered.Unbroken (.error u) := by
  intro ds hds
  cases hds

theorem Lowered.Unbroken.bind {α : Type} {m : Except Unsupported α} {f : α → Lowered}
    (h : ∀ a, m = .ok a → Lowered.Unbroken (f a)) : Lowered.Unbroken (m >>= f) := by
  cases m with
  | error u => exact .error u
  | ok a => exact h a rfl

structure Registers.Unbroken (env : Registers) : Prop where
  constant : ∀ n s, env.constant n = some s → s.Unbroken
  scratch : env.scratch.Unbroken
  buffer : env.buffer.Unbroken

section Builders

variable {dst src : Slot} {env : Registers}

theorem unbroken_copy (hdst : dst.Unbroken) (hsrc : src.Unbroken) : AllUnbroken (copy dst src) := by
  unfold copy
  split
  · exact .nil
  · split
    all_goals exact .single ⟨hdst, hsrc⟩

theorem unbroken_store (hdst : dst.Unbroken) {l : Literal} (hl : LiteralUnbroken l) :
    Lowered.Unbroken (store dst l) := by
  unfold store
  split
  · exact .ok (.single ⟨hdst, hl⟩)
  · split
    · exact .ok (.single hdst)
    · exact .error _

theorem unbroken_assign (hdst : dst.Unbroken) {o : Operand} (ho : o.Unbroken) :
    Lowered.Unbroken (assign dst o) := by
  cases o with
  | literal l => exact unbroken_store hdst ho
  | slot s => exact .ok (unbroken_copy hdst ho)

theorem unbroken_asScore (henv : env.Unbroken) {o : Operand} (ho : o.Unbroken) {s : Slot}
    {cs : List Command} (h : asScore env o = .ok (s, cs)) : s.Unbroken ∧ AllUnbroken cs := by
  unfold asScore at h
  split at h
  · split at h
    · cases h
    · split at h
      · next hs =>
        cases h
        exact ⟨henv.constant _ _ hs, .nil⟩
      · cases h
        exact ⟨henv.scratch, .single henv.scratch⟩
  · split at h
    · cases h
      exact ⟨ho, .nil⟩
    · cases h
      exact ⟨henv.scratch, unbroken_copy henv.scratch ho⟩

theorem unbroken_applyTo (henv : env.Unbroken) (hdst : dst.Unbroken) (op : BinaryOperator) (sop : ScoreOp)
    {r : Operand} (hr : r.Unbroken) : Lowered.Unbroken (applyTo env dst op sop r) := by
  have hadd : ∀ n, Lowered.Unbroken (.ok [addNumber dst n]) := by
    intro n
    unfold addNumber
    split <;> exact .ok (.single hdst)
  unfold applyTo
  split
  · split
    · exact hadd _
    · exact .error _
  · split
    · exact hadd _
    · exact .error _
  · refine .bind fun x hx => ?_
    obtain ⟨hs, hstaging⟩ := unbroken_asScore henv hr hx
    exact .ok (hstaging.append (.single ⟨hdst, hs⟩))

theorem unbroken_unshift {op op' : BinaryOperator} {r r' : Operand} (hr : r.Unbroken)
    (h : unshift op r = .ok (op', r')) : r'.Unbroken := by
  have hnumber : ∀ n, Operand.Unbroken (.literal (.int n)) := fun n s hs => by cases hs
  unfold unshift at h
  extract_lets shifted at h
  have hshifted : ∀ as, shifted as = .ok (op', r') → r'.Unbroken := by
    intro as has
    dsimp only [shifted] at has
    split at has
    · cases has
      exact hnumber _
    · cases has
  split at h
  · exact hshifted _ h
  · exact hshifted _ h
  · cases h
    exact hr

theorem unbroken_untangle (henv : env.Unbroken) (hdst : dst.Unbroken) (op : BinaryOperator) {l r : Operand}
    (hl : l.Unbroken) (hr : r.Unbroken) : AllUnbroken (untangle env dst op l r).1 ∧
      (untangle env dst op l r).2.1.Unbroken ∧ (untangle env dst op l r).2.2.Unbroken := by
  unfold untangle
  split
  · split
    · exact ⟨.nil, hr, hl⟩
    · exact ⟨unbroken_copy henv.scratch hdst, hl, henv.scratch⟩
  · exact ⟨.nil, hl, hr⟩

theorem unbroken_evalBinary {op : BinaryOperator} {l r v : Literal} {t : Ty} (hl : LiteralUnbroken l)
    (hr : LiteralUnbroken r) (h : evalBinary op l r t = some v) : LiteralUnbroken v := by
  unfold evalBinary at h
  cases l with
  | str a =>
      cases r with
      | str b =>
          dsimp only [Literal.str?] at h
          split at h
          · cases h
            rintro _ ⟨⟩
            exact unbroken_append.2 ⟨hl a rfl, hr b rfl⟩
          · cases h
      | _ => cases h
  | _ =>
      simp only [Literal.str?, Option.bind_eq_bind, Option.bind_eq_some_iff, Option.pure_def,
        Option.some.injEq] at h
      obtain ⟨a, -, b, -, n, -, rfl⟩ := h
      split <;> exact nofun

theorem unbroken_evalCompare {op : CompareOperator} {l r v : Literal} (h : evalCompare op l r = some v) :
    LiteralUnbroken v := by
  obtain ⟨b, -, rfl⟩ := Option.map_eq_some_iff.1 h
  exact nofun

theorem unbroken_evalUnary {op : UnaryOperator} {x v : Literal} (h : evalUnary op x = some v) :
    LiteralUnbroken v := by
  unfold evalUnary at h
  split at h
  · split at h <;> cases h
    exact nofun
  · obtain ⟨b, -, rfl⟩ := Option.map_eq_some_iff.1 h
    exact nofun
  · obtain ⟨b, -, rfl⟩ := Option.map_eq_some_iff.1 h
    exact nofun
  · cases h

theorem unbroken_evalCast {target : DataType} {x v : Literal} (hx : LiteralUnbroken x)
    (h : evalCast target x = some v) : LiteralUnbroken v := by
  unfold evalCast at h
  split at h
  · cases h
    exact hx
  · split at h <;> cases h
    · exact nofun
    · rintro _ ⟨⟩
      exact unbroken_int _

theorem unbroken_binaryOp (henv : env.Unbroken) (hdst : dst.Unbroken) (op : BinaryOperator) {l r : Operand}
    (hl : l.Unbroken) (hr : r.Unbroken) : Lowered.Unbroken (binaryOp env dst op l r) := by
  unfold binaryOp
  split
  · split
    · next hv => exact unbroken_store hdst (unbroken_evalBinary hl hr hv)
    · exact .error _
  · split
    · exact .error _
    · refine .bind fun x hx => ?_
      obtain ⟨op, r'⟩ := x
      have hr' := unbroken_unshift hr hx
      dsimp only
      cases scoreOp? op with
      | none => exact .error _
      | some sop =>
          obtain ⟨hsaving, hl', hr''⟩ := unbroken_untangle henv hdst op hl hr'
          refine .bind fun first hfirst => .bind fun rest hrest => .ok ?_
          exact (hsaving.append (unbroken_assign hdst hl' _ hfirst)).append
            (unbroken_applyTo henv hdst _ _ hr'' _ hrest)

theorem unbroken_compareScore (henv : env.Unbroken) (hdst : dst.Unbroken) (op : CompareOperator)
    {l r : Operand} (hl : l.Unbroken) (hr : r.Unbroken) : Lowered.Unbroken (compareScore env dst op l r) := by
  refine .bind fun x hx => ?_
  obtain ⟨s, staging⟩ := x
  obtain ⟨hs, hstaging⟩ := unbroken_asScore henv hl hx
  refine .ok (hstaging.append (.single ⟨hdst, ?_⟩))
  cases r with
  | slot t => exact ⟨hs, hr⟩
  | literal v =>
      refine ⟨hs, ?_⟩
      cases op <;> first | trivial | exact unbroken_word rfl

theorem unbroken_compare (henv : env.Unbroken) (hdst : dst.Unbroken) (op : CompareOperator) {l r : Operand}
    (hl : l.Unbroken) (hr : r.Unbroken) : Lowered.Unbroken (compare env dst op l r) := by
  unfold compare
  split
  · split
    · next hv => exact unbroken_store hdst (unbroken_evalCompare hv)
    · exact .error _
  · split
    · unfold compareStored
      split
      · refine .bind fun first hfirst => .ok (.append (.append ?_ (.single ⟨hdst, henv.buffer, hr⟩)) ?_)
        · exact unbroken_assign henv.buffer hl _ hfirst
        · split
          · exact .single ⟨hdst, hdst, trivial⟩
          · exact .nil
      · exact .error _
    · split
      · exact unbroken_compareScore henv hdst _ hr hl
      · exact unbroken_compareScore henv hdst _ hl hr

theorem unbroken_unaryOp (henv : env.Unbroken) (hdst : dst.Unbroken) (op : UnaryOperator) {x : Operand}
    (hx : x.Unbroken) : Lowered.Unbroken (unaryOp env dst op x) := by
  unfold unaryOp
  split
  · split
    · next hv => exact unbroken_store hdst (unbroken_evalUnary hv)
    · exact .error _
  · next s =>
    split
    · exact .error _
    · have hstaging : ∀ b : Bool, AllUnbroken (if b then copy env.scratch s else []) := by
        intro b
        cases b
        · exact .nil
        · exact unbroken_copy henv.scratch hx
      have hsource : ∀ b : Bool, (if b then env.scratch else s).Unbroken := by
        intro b
        cases b
        · exact hx
        · exact henv.scratch
      have hsub : ∀ n x, x.Unbroken → AllUnbroken [.setScore dst n, .operate dst .sub x] :=
        fun n x hx => List.forall_mem_cons.2 ⟨hdst, List.forall_mem_singleton.2 ⟨hdst, hx⟩⟩
      refine .ok (((hstaging _).append (hsub _ _ (hsource _))).append ?_)
      split
      · exact .single hdst
      · exact .nil

theorem Slot.Unbroken.child {s : Slot} (h : s.Unbroken) {key : String} (hkey : Text.Unbroken key) :
    (s.child key).Unbroken :=
  ⟨unbroken_append.2 ⟨unbroken_append.2 ⟨h.path, unbroken_word rfl⟩, hkey⟩, h.target⟩

theorem unbroken_concat (hdst : dst.Unbroken) {l r : Operand} (hl : l.Unbroken) (hr : r.Unbroken) {io : Slot}
    (hio : io.Unbroken) {function : String} (hfunction : Text.Unbroken function) :
    Lowered.Unbroken (concat dst l r io function) := by
  have hside : ∀ {key : String}, Text.Unbroken key → (io.child key).Unbroken := fun h => hio.child h
  refine .bind fun left hleft => .bind fun right hright => .ok ?_
  have hinputs := (unbroken_assign (hside (unbroken_word rfl)) hl _ hleft).append
    (unbroken_assign (hside (unbroken_word rfl)) hr _ hright)
  have hcall : AllUnbroken [.callWith function io] := .single ⟨hfunction, hio⟩
  exact (hinputs.append hcall).append (unbroken_copy hdst (hside (unbroken_word rfl)))

end Builders

/-! ## Templates -/

theorem subset_of_placeholder? {cs rest : List Char} {name : String} (h : placeholder? cs = some (name, rest)) :
    rest ⊆ cs := by
  unfold placeholder? at h
  split at h
  · cases h
  · split at h
    · split at h
      · next heq =>
        cases h
        intro c hc
        exact (List.dropWhile_suffix isNameChar).subset (heq ▸ List.mem_cons_of_mem _ hc)
      · cases h
    · cases h

/-- Reading placeholders makes up no character. -/
theorem mem_of_char_mem_pieces {c : Char} (cs : List Char) (h : Piece.char c ∈ pieces cs) : c ∈ cs := by
  fun_induction pieces cs with
  | case1 => cases h
  | case2 d => simpa using h
  | case3 a b rest _ name rest' hname _ ih =>
      have hc : c ∈ rest' := ih (by simpa using h)
      exact List.mem_cons_of_mem _ (List.mem_cons_of_mem _ (subset_of_placeholder? hname hc))
  | case4 a b rest _ _ ih | case5 a b rest _ ih =>
      rcases List.mem_cons.1 h with h | h
      · cases h
        exact List.mem_cons_self
      · exact List.mem_cons_of_mem _ (ih h)

/-- The arguments of a template that are written on one line. -/
def TemplateArg.Unbroken : TemplateArg → Prop
  | known text => Text.Unbroken text
  | runtime s => s.Unbroken

/-- A template whose own texts have no line breaks. -/
structure Template.Unbroken (t : Template) : Prop where
  name : Text.Unbroken t.name
  line : Text.Unbroken t.line
  params : ∀ p ∈ t.params, Text.Unbroken p
  defaults : ∀ d ∈ t.defaults, Text.Unbroken d.2

theorem unbroken_builtinTemplates : ∀ t ∈ builtinTemplates, t.Unbroken := by
  have hword : ∀ t ∈ builtinTemplates, ∀ w ∈ t.name :: t.line :: t.params ++ t.defaults.map Prod.snd,
      Text.Unbroken w := by decide +kernel
  intro t ht
  have hall := hword t ht
  refine ⟨hall _ (by simp), hall _ (by simp), fun p hp => hall p (by simp [hp]), fun d hd => hall _ ?_⟩
  exact List.mem_append_right _ (List.mem_map_of_mem hd)

theorem unbroken_lookup {args : List (String × String)} (h : ∀ x ∈ args, Text.Unbroken x.2) (name : String) :
    Text.Unbroken ((args.lookup name).getD "") := by
  cases hlookup : args.lookup name with
  | none => exact unbroken_word rfl
  | some text =>
      obtain ⟨front, back, rfl, -⟩ := List.lookup_eq_some_iff.1 hlookup
      exact h (name, text) (List.mem_append_right _ List.mem_cons_self)

theorem unbroken_substitute {t : Template} (ht : t.Unbroken) {values : List (String × String)}
    (hvalues : ∀ x ∈ values, Text.Unbroken x.2) : Text.Unbroken (t.substitute values) := by
  unfold Template.substitute
  rw [unbroken_ofList]
  intro hmem
  obtain ⟨piece, hpiece, hmem⟩ := List.mem_flatMap.1 hmem
  cases piece with
  | char c =>
      rw [← List.mem_singleton.1 hmem] at hpiece
      exact ht.line.not_mem (mem_of_char_mem_pieces _ hpiece)
  | placeholder name => exact (unbroken_lookup hvalues name).not_mem hmem

theorem unbroken_bind {t : Template} (ht : t.Unbroken) {args : List (String × TemplateArg)}
    (hargs : ∀ x ∈ args, x.2.Unbroken) {ps : List String} {bound : List (String × TemplateArg)}
    (hps : ∀ p ∈ ps, Text.Unbroken p) (h : Renderer.bind t args ps = .ok bound) :
    ∀ x ∈ bound, Text.Unbroken x.1 ∧ x.2.Unbroken := by
  induction ps generalizing bound with
  | nil =>
      cases h
      exact List.forall_mem_nil _
  | cons p ps ih =>
      obtain ⟨hp, hps⟩ := List.forall_mem_cons.1 hps
      have hcons : ∀ a : TemplateArg, a.Unbroken → (Renderer.bind t args ps).map ((p, a) :: ·) = .ok bound →
          ∀ x ∈ bound, Text.Unbroken x.1 ∧ x.2.Unbroken := by
        intro a ha h
        cases hrest : Renderer.bind t args ps with
        | error e =>
            rw [hrest] at h
            cases h
        | ok rest =>
            rw [hrest] at h
            cases h
            exact List.forall_mem_cons.2 ⟨⟨hp, ha⟩, ih hps hrest⟩
      unfold Renderer.bind at h
      split at h
      · next a ha =>
        obtain ⟨front, back, hsplit, -⟩ := List.lookup_eq_some_iff.1 ha
        exact hcons a (hargs (p, a) (hsplit ▸ List.mem_append_right _ List.mem_cons_self)) h
      · split at h
        · next d hd =>
          obtain ⟨front, back, hsplit, -⟩ := List.lookup_eq_some_iff.1 hd
          exact hcons (.known d) (ht.defaults (p, d) (hsplit ▸ List.mem_append_right _ List.mem_cons_self)) h
        · cases h

theorem unbroken_stage {root : Slot} (hroot : root.Unbroken) {arg : String × TemplateArg}
    (hname : Text.Unbroken arg.1) (harg : arg.2.Unbroken) : AllUnbroken (Renderer.stage root arg) := by
  have hchild := hroot.child hname
  unfold Renderer.stage
  split
  · next text htext =>
    rw [htext] at harg
    refine .single ⟨hchild, ?_⟩
    rintro _ ⟨⟩
    exact harg
  · next s hs =>
    rw [hs] at harg
    exact unbroken_copy hchild harg

/-- A rendered template is written on one line per command if its arguments are. -/
theorem unbroken_render {r : Renderer} {id name : String} {args : List (String × TemplateArg)}
    {out : Rendering} (htemplates : ∀ t ∈ r.templates, t.Unbroken) (hns : Text.Unbroken r.ns)
    (hstorage : Text.Unbroken r.storage) (hdirectory : Text.Unbroken r.directory) (hid : Text.Unbroken id)
    (hargs : ∀ x ∈ args, x.2.Unbroken) (h : r.render id name args = .ok out) : AllUnbroken out.commands := by
  unfold Renderer.render at h
  split at h
  · cases h
  · next t hfind =>
    have ht := htemplates t (List.mem_of_find?_eq_some hfind)
    split at h
    · cases h
    · cases hbind : Renderer.bind t args t.params with
      | error e =>
          rw [hbind] at h
          cases h
      | ok bound =>
          have hbound := unbroken_bind ht hargs ht.params hbind
          rw [hbind] at h
          simp only [Bind.bind, Except.bind] at h
          split at h
          · cases h
          · split at h
            · cases h
              refine .single (unbroken_substitute ht fun x hx => ?_)
              obtain ⟨⟨p, a⟩, hmem, hx⟩ := List.mem_filterMap.1 hx
              obtain ⟨text, htext, rfl⟩ := Option.map_eq_some_iff.1 hx
              have ha := (hbound _ hmem).2
              cases a with
              | known text' =>
                  cases htext
                  exact ha
              | runtime s => cases htext
            · cases h
              have hroot : (Slot.storage r.storage ("args." ++ id)).Unbroken :=
                ⟨unbroken_append.2 ⟨unbroken_word rfl, hid⟩, hstorage⟩
              have hfill : AllUnbroken (bound.flatMap (Renderer.stage (.storage r.storage ("args." ++ id)))) := by
                intro c hc
                obtain ⟨arg, harg, hc⟩ := List.mem_flatMap.1 hc
                exact unbroken_stage hroot (hbound arg harg).1 (hbound arg harg).2 c hc
              refine hfill.append (List.forall_mem_cons.2 ⟨⟨?_, hroot⟩, List.forall_mem_singleton.2 hroot⟩)
              simp only [unbroken_append, hns, hdirectory, ht.name, true_and, and_true]
              and_intros <;> exact unbroken_word rfl

end Command

end Datapack
