import Datapack.Document.Decode
import Datapack.Proofs.Document.Shape
import Datapack.Proofs.Document.Symbols

/-!
# Decoded streams are well-shaped

A document that is decoded yields one instruction for each item of its instruction array.  The operands of
an instruction fill the layout of its opcode, each read from the item in its place: `Fills` says what may
stand in a slot and which part of the document it stands for.  One lemma for each kind of operand says what
its reader accepts; `fillsAll_of_instructionOf` puts them together, opcode by opcode.
-/

namespace Datapack.Document

open Ir

/-! ## Layouts -/

/-- What stands in one place of an instruction. -/
inductive Slot where
  | name
  /-- A reference that must not be left out. -/
  | reference
  | optional
  | function
  | classSymbol
  | arguments
  | scopeKind
  | unaryOperator
  | binaryOperator
  | compareOperator
  | dataType
  deriving DecidableEq

/-- The places of the instructions of an opcode. -/
def layout : Opcode → List Slot
  | .jump | .breakLoop | .continueLoop => [.name]
  | .condJump => [.optional, .name, .name]
  | .function => [.function]
  | .call => [.optional, .function, .arguments]
  | .ret => [.optional]
  | .scopeBegin | .scopeEnd => [.name, .scopeKind]
  | .declare => [.reference]
  | .assign => [.reference, .reference]
  | .unaryOp => [.reference, .unaryOperator, .reference]
  | .binaryOp => [.reference, .binaryOperator, .reference, .reference]
  | .compare => [.reference, .compareOperator, .reference, .reference]
  | .cast => [.reference, .dataType, .reference]
  | .classDef => [.classSymbol]
  | .newObject => [.reference, .classSymbol]
  | .getProperty => [.reference, .reference, .name]
  | .setProperty => [.reference, .name, .reference]
  | .callMethod => [.optional, .classSymbol, .function, .arguments]
  | .undefined _ => []

/-- The items that fill the places of an opcode: a return without an item has the item null. -/
def itemsOf : Opcode → List Json → List Json
  | .ret, [] => [.null]
  | _, items => items

/-- An item spells a text; null spells the empty one. -/
inductive Spells : Json → String → Prop
  | text (t source : String) : Spells (.string t source) t
  | null : Spells .null ""

/-- An item gives the id of a symbol, either bare or as the field of an object. -/
inductive GivesId (key : String) : Json → String → Prop
  | bare {j : Json} {id : String} (h : Spells j id) : GivesId key j id
  | field {fields : List (String × Json)} {texts : List (String × String)} {source id : String}
      (htexts : textFields? fields = some texts) (hid : texts.reverse.lookup key = some id) :
      GivesId key (.object fields source) id

namespace Symbols

/-- An item stands for a reference; null stands for none. -/
inductive Refers (s : Symbols) : Json → Option Reference → Prop
  | none : Refers s .null none
  | some {j : Json} {o : OperandEntry} {r : Reference} (ho : OperandEntry.shape {} j = some o)
      (hr : s.Names o r) : Refers s j (some r)

/-- An argument has the name its entry gives it and the value the entry refers to. -/
structure Binds (s : Symbols) (b : BindingEntry) (a : Argument) : Prop where
  name : a.name = b.name
  value : s.Refers (b.value.getD .null) a.value

/-- What a slot holds for an item. -/
inductive Fills (s : Symbols) : Slot → Json → Operand → Prop
  | name {j : Json} {t : String} (h : Spells j t) : Fills s .name j (.text t)
  | reference {j : Json} {r : Reference} (h : s.Refers j (some r)) : Fills s .reference j (.reference (some r))
  | optional {j : Json} {r : Option Reference} (h : s.Refers j r) : Fills s .optional j (.reference r)
  | function {j : Json} {f : Function} (hid : GivesId "fn" j f.id)
      (hf : s.functions.lookup f.id = some f) : Fills s .function j (.function f)
  | classSymbol {j : Json} {c : ClassRef} (hid : GivesId "class" j c.id) (hc : s.class? c.id = some c) :
      Fills s .classSymbol j (.classSymbol c)
  | arguments {j : Json} {bs : Slots BindingEntry} {args : List Argument}
      (hbs : Shape.list {} BindingEntry.shape {} j = some bs)
      (hargs : List.Forall₂ s.Binds bs.shown args) : Fills s .arguments j (.arguments args)
  | scopeKind {j : Json} {t : String} {k : ScopeKind} (h : Spells j t) (hk : ScopeKind.ofName? t = some k) :
      Fills s .scopeKind j (.scopeKind k)
  | unaryOperator {j : Json} {t : String} {op : UnaryOperator} (h : Spells j t)
      (hop : UnaryOperator.ofName? t = some op) : Fills s .unaryOperator j (.unaryOperator op)
  | binaryOperator {j : Json} {t : String} {op : BinaryOperator} (h : Spells j t)
      (hop : BinaryOperator.ofName? t = some op) : Fills s .binaryOperator j (.binaryOperator op)
  | compareOperator {j : Json} {t : String} {op : CompareOperator} (h : Spells j t)
      (hop : CompareOperator.ofName? t = some op) : Fills s .compareOperator j (.compareOperator op)
  | dataType {j : Json} {t : String} {d : DataType} (h : Spells j t) (hd : DataType.ofName? t = some d) :
      Fills s .dataType j (.dataType d)

/-- Slots, items and operands correspond one by one. -/
inductive FillsAll (s : Symbols) : List Slot → List Json → List Operand → Prop
  | nil : FillsAll s [] [] []
  | cons {slot : Slot} {j : Json} {x : Operand} {slots : List Slot} {js : List Json} {xs : List Operand}
      (h : s.Fills slot j x) (hrest : FillsAll s slots js xs) :
      FillsAll s (slot :: slots) (j :: js) (x :: xs)

/-- An instruction is the one its entry describes. -/
structure Describes (s : Symbols) (e : InstructionEntry) (ins : Instruction) : Prop where
  op : Opcode.ofName? e.op = some ins.op
  operands : s.FillsAll (layout ins.op) (itemsOf ins.op e.args.shown) ins.operands

end Symbols

/-! ## The readers of operands -/

theorem spells_of_textOperand {j : Json} {t : String} (h : textOperand j = .ok t) : Spells j t := by
  cases j with
  | null =>
      obtain rfl := Except.ok.inj h
      exact .null
  | string t' source =>
      obtain rfl := Except.ok.inj h
      exact .text t' source
  | _ => exact nomatch h

theorem givesId_of_symbolId {key id : String} {j : Json} (h : symbolId key j = .ok id) : GivesId key j id := by
  unfold symbolId at h
  split at h
  · next hbare =>
      obtain rfl := Except.ok.inj h
      exact .bare (spells_of_textOperand hbare)
  · dsimp only at h
    split at h
    · next fields source _ =>
        split at h
        · exact nomatch h
        · next hne =>
            obtain rfl := Except.ok.inj h
            cases htexts : textFields? fields with
            | none => simp [htexts] at hne
            | some texts =>
                cases hid : texts.reverse.lookup key with
                | none => simp [htexts, hid] at hne
                | some id =>
                    simp only [Option.bind_some, hid, Option.getD_some]
                    exact .field htexts hid
    · rw [if_pos rfl] at h
      exact nomatch h

namespace Symbols

variable {s : Symbols} {classIds varIds functionIds : List String}

theorem Tables.refers_of_reference (ht : s.Tables classIds varIds functionIds) {j : Json}
    {r : Option Reference} (h : s.reference j = .ok r) : s.Refers j r := by
  cases r with
  | none =>
      unfold Symbols.reference at h
      split at h
      · next hnull =>
          cases j with
          | null => exact .none
          | _ => exact nomatch hnull
      split at h
      · exact nomatch h
      split at h
      · split at h <;> exact nomatch h
      · obtain ⟨_, _, hl⟩ := map_eq_ok_iff.1 h
        exact nomatch hl
      · split at h <;> exact nomatch h
      · split at h <;> exact nomatch h
      · exact nomatch h
  | some r =>
      obtain ⟨o, ho, hr⟩ := ht.names_of_reference h
      exact .some ho hr

theorem Tables.fills_of_required (ht : s.Tables classIds varIds functionIds) {slot : Nat} {j : Json}
    {r : Option Reference} (h : s.required slot j = .ok r) : s.Fills .reference j (.reference r) := by
  obtain ⟨read, hread, h⟩ := bind_eq_ok_iff.1 h
  cases read with
  | none => exact nomatch h
  | some r =>
      obtain rfl := pure_eq_ok_iff.1 h
      exact .reference (ht.refers_of_reference hread)

theorem Tables.fills_of_functionOperand (ht : s.Tables classIds varIds functionIds) {j : Json}
    {f : Function} (h : s.functionOperand j = .ok f) : s.Fills .function j (.function f) := by
  obtain ⟨id, hid, h⟩ := bind_eq_ok_iff.1 h
  split at h
  · next hlookup =>
      obtain rfl := Except.ok.inj h
      obtain rfl := ht.id_of_function hlookup
      exact .function (givesId_of_symbolId hid) hlookup
  · exact nomatch h

theorem fills_of_classOperand {j : Json} {c : ClassRef} (h : s.classOperand j = .ok c) :
    s.Fills .classSymbol j (.classSymbol c) := by
  obtain ⟨id, hid, h⟩ := bind_eq_ok_iff.1 h
  split at h
  · next hclass =>
      obtain rfl := Except.ok.inj h
      obtain rfl := id_of_class? hclass
      exact .classSymbol (givesId_of_symbolId hid) hclass
  · exact nomatch h

theorem Tables.fills_of_argumentOperand (ht : s.Tables classIds varIds functionIds) {j : Json}
    {args : List Argument} (h : s.argumentOperand j = .ok args) :
    s.Fills .arguments j (.arguments args) := by
  unfold argumentOperand at h
  split at h
  · exact nomatch h
  · next bs hbs =>
      refine .arguments hbs ((forall₂_of_mapM h).imp fun b a hb => ?_)
      split at hb
      · next hvalue =>
          obtain rfl := Except.ok.inj hb
          exact ⟨rfl, ht.refers_of_reference hvalue⟩
      · exact nomatch hb

theorem fills_of_scopeKindOperand {j : Json} {k : ScopeKind}
    (h : instructionOf.scopeKindOperand j = .ok k) : s.Fills .scopeKind j (.scopeKind k) := by
  obtain ⟨t, ht, h⟩ := bind_eq_ok_iff.1 h
  split at h
  · next hk =>
      obtain rfl := pure_eq_ok_iff.1 h
      exact .scopeKind (spells_of_textOperand ht) hk
  · exact nomatch h

/-! ## Instructions -/

theorem length_eq_four {α : Type} {xs : List α} (h : xs.length = 4) : ∃ a b c d, xs = [a, b, c, d] := by
  match xs, h with
  | [a, b, c, d], _ => exact ⟨a, b, c, d, rfl⟩

/-- The operands of an instruction fill the layout of its opcode.  There is one case for each shape of
layout, read in the order in which the operands are resolved. -/
theorem Tables.fillsAll_of_instructionOf (ht : s.Tables classIds varIds functionIds) {op : Opcode}
    {items : List Json} {ins : Instruction} (hret : op ≠ .ret) (harity : items.length = arity op)
    (h : s.instructionOf op items = .ok ins) :
    ins.op = op ∧ s.FillsAll (layout op) items ins.operands := by
  cases op with
  | jump | breakLoop | continueLoop =>
      obtain ⟨name, rfl⟩ := List.length_eq_one_iff.1 harity
      obtain ⟨t, hname, h⟩ := bind_eq_ok_iff.1 h
      obtain rfl := pure_eq_ok_iff.1 h
      exact ⟨rfl, .cons (.name (spells_of_textOperand hname)) .nil⟩
  | condJump =>
      obtain ⟨cond, onTrue, onFalse, rfl⟩ := List.length_eq_three.1 harity
      obtain ⟨r, hcond, h⟩ := bind_eq_ok_iff.1 h
      obtain ⟨t, htrue, h⟩ := bind_eq_ok_iff.1 h
      obtain ⟨f, hfalse, h⟩ := bind_eq_ok_iff.1 h
      obtain rfl := pure_eq_ok_iff.1 h
      exact ⟨rfl, .cons (.optional (ht.refers_of_reference hcond)) <|
        .cons (.name (spells_of_textOperand htrue)) <| .cons (.name (spells_of_textOperand hfalse)) .nil⟩
  | function =>
      obtain ⟨f, rfl⟩ := List.length_eq_one_iff.1 harity
      obtain ⟨f', hf, h⟩ := bind_eq_ok_iff.1 h
      obtain rfl := pure_eq_ok_iff.1 h
      exact ⟨rfl, .cons (ht.fills_of_functionOperand hf) .nil⟩
  | classDef =>
      obtain ⟨c, rfl⟩ := List.length_eq_one_iff.1 harity
      obtain ⟨c', hc, h⟩ := bind_eq_ok_iff.1 h
      obtain rfl := pure_eq_ok_iff.1 h
      exact ⟨rfl, .cons (fills_of_classOperand hc) .nil⟩
  | call =>
      obtain ⟨result, f, bindings, rfl⟩ := List.length_eq_three.1 harity
      obtain ⟨r, hresult, h⟩ := bind_eq_ok_iff.1 h
      obtain ⟨f', hf, h⟩ := bind_eq_ok_iff.1 h
      obtain ⟨args, hargs, h⟩ := bind_eq_ok_iff.1 h
      obtain rfl := pure_eq_ok_iff.1 h
      exact ⟨rfl, .cons (.optional (ht.refers_of_reference hresult)) <|
        .cons (ht.fills_of_functionOperand hf) <| .cons (ht.fills_of_argumentOperand hargs) .nil⟩
  | ret => exact absurd rfl hret
  | scopeBegin | scopeEnd =>
      obtain ⟨name, kind, rfl⟩ := List.length_eq_two.1 harity
      obtain ⟨t, hname, h⟩ := bind_eq_ok_iff.1 h
      obtain ⟨k, hkind, h⟩ := bind_eq_ok_iff.1 h
      obtain rfl := pure_eq_ok_iff.1 h
      exact ⟨rfl, .cons (.name (spells_of_textOperand hname)) <| .cons (fills_of_scopeKindOperand hkind) .nil⟩
  | declare =>
      obtain ⟨v, rfl⟩ := List.length_eq_one_iff.1 harity
      obtain ⟨r, hv, h⟩ := bind_eq_ok_iff.1 h
      obtain rfl := pure_eq_ok_iff.1 h
      exact ⟨rfl, .cons (ht.fills_of_required hv) .nil⟩
  | assign =>
      obtain ⟨target, source, rfl⟩ := List.length_eq_two.1 harity
      obtain ⟨r, htarget, h⟩ := bind_eq_ok_iff.1 h
      obtain ⟨x, hsource, h⟩ := bind_eq_ok_iff.1 h
      obtain rfl := pure_eq_ok_iff.1 h
      exact ⟨rfl, .cons (ht.fills_of_required htarget) <| .cons (ht.fills_of_required hsource) .nil⟩
  | unaryOp =>
      obtain ⟨result, operator, x, rfl⟩ := List.length_eq_three.1 harity
      obtain ⟨t, hname, h⟩ := bind_eq_ok_iff.1 h
      split at h
      · next op hop =>
          obtain ⟨r, hresult, h⟩ := bind_eq_ok_iff.1 h
          obtain ⟨x', hx, h⟩ := bind_eq_ok_iff.1 h
          obtain rfl := pure_eq_ok_iff.1 h
          exact ⟨rfl, .cons (ht.fills_of_required hresult) <|
            .cons (.unaryOperator (spells_of_textOperand hname) hop) <|
            .cons (ht.fills_of_required hx) .nil⟩
      · exact nomatch h
  | binaryOp =>
      obtain ⟨result, operator, left, right, rfl⟩ := length_eq_four harity
      obtain ⟨t, hname, h⟩ := bind_eq_ok_iff.1 h
      obtain ⟨r, hresult, h⟩ := bind_eq_ok_iff.1 h
      obtain ⟨x, hleft, h⟩ := bind_eq_ok_iff.1 h
      obtain ⟨y, hright, h⟩ := bind_eq_ok_iff.1 h
      split at h
      · next op hop =>
          obtain rfl := pure_eq_ok_iff.1 h
          exact ⟨rfl, .cons (ht.fills_of_required hresult) <|
            .cons (.binaryOperator (spells_of_textOperand hname) hop) <|
            .cons (ht.fills_of_required hleft) <| .cons (ht.fills_of_required hright) .nil⟩
      · exact nomatch h
  | compare =>
      obtain ⟨result, operator, left, right, rfl⟩ := length_eq_four harity
      obtain ⟨t, hname, h⟩ := bind_eq_ok_iff.1 h
      obtain ⟨r, hresult, h⟩ := bind_eq_ok_iff.1 h
      obtain ⟨x, hleft, h⟩ := bind_eq_ok_iff.1 h
      obtain ⟨y, hright, h⟩ := bind_eq_ok_iff.1 h
      split at h
      · next op hop =>
          obtain rfl := pure_eq_ok_iff.1 h
          exact ⟨rfl, .cons (ht.fills_of_required hresult) <|
            .cons (.compareOperator (spells_of_textOperand hname) hop) <|
            .cons (ht.fills_of_required hleft) <| .cons (ht.fills_of_required hright) .nil⟩
      · exact nomatch h
  | cast =>
      obtain ⟨result, target, source, rfl⟩ := List.length_eq_three.1 harity
      obtain ⟨t, hname, h⟩ := bind_eq_ok_iff.1 h
      split at h
      · next d hd =>
          obtain ⟨r, hresult, h⟩ := bind_eq_ok_iff.1 h
          obtain ⟨x, hsource, h⟩ := bind_eq_ok_iff.1 h
          obtain rfl := pure_eq_ok_iff.1 h
          exact ⟨rfl, .cons (ht.fills_of_required hresult) <|
            .cons (.dataType (spells_of_textOperand hname) hd) <|
            .cons (ht.fills_of_required hsource) .nil⟩
      · exact nomatch h
  | newObject =>
      obtain ⟨result, c, rfl⟩ := List.length_eq_two.1 harity
      obtain ⟨r, hresult, h⟩ := bind_eq_ok_iff.1 h
      obtain ⟨c', hc, h⟩ := bind_eq_ok_iff.1 h
      obtain rfl := pure_eq_ok_iff.1 h
      exact ⟨rfl, .cons (ht.fills_of_required hresult) <| .cons (fills_of_classOperand hc) .nil⟩
  | getProperty =>
      obtain ⟨result, obj, name, rfl⟩ := List.length_eq_three.1 harity
      obtain ⟨r, hresult, h⟩ := bind_eq_ok_iff.1 h
      obtain ⟨o, hobj, h⟩ := bind_eq_ok_iff.1 h
      obtain ⟨t, hname, h⟩ := bind_eq_ok_iff.1 h
      obtain rfl := pure_eq_ok_iff.1 h
      exact ⟨rfl, .cons (ht.fills_of_required hresult) <| .cons (ht.fills_of_required hobj) <|
        .cons (.name (spells_of_textOperand hname)) .nil⟩
  | setProperty =>
      obtain ⟨obj, name, value, rfl⟩ := List.length_eq_three.1 harity
      obtain ⟨o, hobj, h⟩ := bind_eq_ok_iff.1 h
      obtain ⟨t, hname, h⟩ := bind_eq_ok_iff.1 h
      obtain ⟨x, hvalue, h⟩ := bind_eq_ok_iff.1 h
      obtain rfl := pure_eq_ok_iff.1 h
      exact ⟨rfl, .cons (ht.fills_of_required hobj) <| .cons (.name (spells_of_textOperand hname)) <|
        .cons (ht.fills_of_required hvalue) .nil⟩
  | callMethod =>
      obtain ⟨result, c, f, bindings, rfl⟩ := length_eq_four harity
      obtain ⟨r, hresult, h⟩ := bind_eq_ok_iff.1 h
      obtain ⟨c', hc, h⟩ := bind_eq_ok_iff.1 h
      obtain ⟨f', hf, h⟩ := bind_eq_ok_iff.1 h
      obtain ⟨args, hargs, h⟩ := bind_eq_ok_iff.1 h
      obtain rfl := pure_eq_ok_iff.1 h
      exact ⟨rfl, .cons (.optional (ht.refers_of_reference hresult)) <| .cons (fills_of_classOperand hc) <|
        .cons (ht.fills_of_functionOperand hf) <| .cons (ht.fills_of_argumentOperand hargs) .nil⟩
  | undefined code =>
      obtain rfl := List.length_eq_zero_iff.1 harity
      obtain rfl := Except.ok.inj h
      exact ⟨rfl, .nil⟩

theorem Tables.fillsAll_of_return (ht : s.Tables classIds varIds functionIds) {items : List Json}
    {ins : Instruction} (harity : items.length ≤ 1) (h : s.instructionOf .ret items = .ok ins) :
    ins.op = .ret ∧ s.FillsAll (layout .ret) (itemsOf .ret items) ins.operands := by
  match items, harity with
  | [], _ =>
      obtain rfl := Except.ok.inj h
      exact ⟨rfl, .cons (.optional .none) .nil⟩
  | [value], _ =>
      obtain ⟨r, hvalue, h⟩ := bind_eq_ok_iff.1 h
      obtain rfl := pure_eq_ok_iff.1 h
      exact ⟨rfl, .cons (.optional (ht.refers_of_reference hvalue)) .nil⟩

theorem itemsOf_of_ne {op : Opcode} (hop : op ≠ .ret) (items : List Json) : itemsOf op items = items := by
  unfold itemsOf
  split
  · exact absurd rfl hop
  · rfl

theorem Tables.describes_of_instruction (ht : s.Tables classIds varIds functionIds) {e : InstructionEntry}
    {ins : Instruction} (h : s.instruction e = .ok ins) : s.Describes e ins := by
  unfold Symbols.instruction at h
  split at h
  · next op hop =>
      extract_lets got resolved at h
      -- a location does not change the operands
      have hresolved : (∀ ins', s.instructionOf op e.args.shown = .ok ins' → ins'.op = op ∧
          s.FillsAll (layout op) (itemsOf op e.args.shown) ins'.operands) →
          resolved () = .ok ins → s.Describes e ins := by
        intro hfills h
        simp only [resolved] at h
        split at h
        · next ins' hins =>
            obtain rfl := pure_eq_ok_iff.1 h
            obtain ⟨rfl, hoperands⟩ := hfills ins' hins
            exact ⟨hop, hoperands⟩
        · exact nomatch h
      split at h
      · next hret =>
          obtain ⟨harity, h⟩ := guard_eq_ok_iff.1 h
          subst hret
          exact hresolved (fun _ => ht.fillsAll_of_return (Nat.not_lt.1 harity)) h
      · next hret =>
          obtain ⟨harity, h⟩ := guard_eq_ok_iff.1 h
          refine hresolved (fun ins' hins => ?_) h
          rw [itemsOf_of_ne hret]
          exact ht.fillsAll_of_instructionOf hret (not_not.1 harity) hins
  · exact nomatch h

theorem Tables.describes_of_instructionsFrom (ht : s.Tables classIds varIds functionIds) {i : Nat}
    {es : List InstructionEntry} {code : Stream} (h : s.instructionsFrom i es = .ok code) :
    List.Forall₂ s.Describes es code := by
  induction es generalizing i code with
  | nil =>
      obtain rfl := Except.ok.inj h
      exact .nil
  | cons e es ih =>
      unfold instructionsFrom at h
      split at h
      · exact nomatch h
      · next hins =>
          obtain ⟨rest, hrest, h⟩ := bind_eq_ok_iff.1 h
          obtain rfl := pure_eq_ok_iff.1 h
          exact .cons (ht.describes_of_instruction hins) (ih hrest)

/-- Equal ids stand for the same symbol, different ids for different symbols. -/
structure Distinguishes (s : Symbols) : Prop where
  vars : ∀ id id' r r', s.vars.lookup id = some r → s.vars.lookup id' = some r' →
    (id = id' ↔ varOf (some r) = varOf (some r'))
  functions : ∀ id id' f f', s.functions.lookup id = some f → s.functions.lookup id' = some f' →
    (id = id' ↔ f = f')
  classes : ∀ id id' c c', s.class? id = some c → s.class? id' = some c' → (id = id' ↔ c = c')

theorem Tables.distinguishes (ht : s.Tables classIds varIds functionIds) : s.Distinguishes where
  vars id id' r r' hr hr' := by
    constructor
    · rintro rfl
      rw [Option.some.inj (hr.symm.trans hr')]
    · intro hsame
      obtain ⟨v, hv, rfl, -⟩ := ht.declares_of_lookup hr
      obtain ⟨w, hw, rfl, -⟩ := ht.declares_of_lookup hr'
      rw [Option.some.inj (hv.symm.trans (hsame.trans hw))]
  functions id id' f f' hf hf' := by
    constructor
    · rintro rfl
      exact Option.some.inj (hf.symm.trans hf')
    · rintro rfl
      exact (ht.id_of_function hf).symm.trans (ht.id_of_function hf')
  classes id id' c c' hc hc' := by
    constructor
    · rintro rfl
      exact Option.some.inj (hc.symm.trans hc')
    · rintro rfl
      exact (id_of_class? hc).symm.trans (id_of_class? hc')

end Symbols

/-! ## Documents -/

/-- An instruction is described by an entry that is read from an item. -/
def Symbols.Reads (s : Symbols) (j : Json) (ins : Instruction) : Prop :=
  ∃ e, InstructionEntry.shape.Reads j e ∧ s.Describes e ins

theorem forall₂_reads {s : Symbols} {js : List Json} {es : List InstructionEntry} {code : Stream}
    (hread : List.Forall₂ InstructionEntry.shape.Reads js es) (hdescribed : List.Forall₂ s.Describes es code) :
    List.Forall₂ s.Reads js code := by
  induction hread generalizing code with
  | nil =>
      cases hdescribed
      exact .nil
  | cons he _ ih =>
      cases hdescribed with
      | cons hins hrest => exact .cons ⟨_, he, hins⟩ (ih hrest)

/-- A document that is decoded has a symbol for each id it declares, under that id, and different symbols
for different ids; its instructions are those of its instruction array, each with the operands of its
opcode; functions have regular parameter lists, and no class reaches itself. -/
theorem decode_wellShaped {text : String} {p : Program} (h : decode text = .ok p) :
    ∃ json e s, Json.first? text = some json ∧ Entries.shape {} json = some e ∧
      Symbols.ofEntries e.symbols = .ok s ∧ p.classes = s.classes ∧
      List.Forall₂ s.Reads (instructionItems json) p.code ∧
      s.Tables (e.symbols.classes.shown.map (·.id)) e.symbols.variableIds
        (e.symbols.functions.shown.map (·.id)) ∧
      s.Distinguishes ∧
      (∀ id f, s.functions.lookup id = some f → f.IsRegular) ∧
      ∀ c, ¬ Relation.TransGen p.classes.Linked c c := by
  unfold decode at h
  split at h
  · exact nomatch h
  · next e hentries =>
      obtain ⟨json, hjson, hshape⟩ := Option.bind_eq_some_iff.1 hentries
      split at h
      · exact nomatch h
      · next s hsymbols =>
          obtain ⟨code, hcode, h⟩ := bind_eq_ok_iff.1 h
          obtain rfl := pure_eq_ok_iff.1 h
          have htables := Symbols.tables_of_ofEntries hsymbols
          refine ⟨json, e, s, hjson, hshape, hsymbols, rfl, ?_, htables, htables.distinguishes, ?_,
            Symbols.not_reaches_self_of_ofEntries hsymbols⟩
          · exact forall₂_reads (forall₂_instructionItems hshape) (htables.describes_of_instructionsFrom hcode)
          · intro id f hf
            exact (htables.function id f (mem_of_lookup_eq_some hf)).regular

def assignmentDocument : String :=
  "\x7b\"symbols\": \x7b\"variables\": [\x7b\"id\": \"x\", \"type\": \"int\"\x7d]\x7d, " ++
    "\"instructions\": [\x7b\"op\": \"ASSIGN\", \"args\": [\x7b\"var\": \"x\"\x7d, \x7b\"lit\": 1\x7d]\x7d]\x7d"

theorem decode_wellShaped_assignment :
    ∃ p json s, decode assignmentDocument = .ok p ∧ Json.first? assignmentDocument = some json ∧
      List.Forall₂ (Symbols.Reads s) (instructionItems json) p.code ∧ p.code.length = 1 := by
  have hlength : (decode assignmentDocument).toOption.map (·.code.length) = some 1 := by decide +kernel
  cases hdecode : decode assignmentDocument with
  | error cause =>
      rw [hdecode] at hlength
      exact nomatch hlength
  | ok p =>
      rw [hdecode] at hlength
      obtain ⟨json, e, s, hjson, -, -, -, hreads, -⟩ := decode_wellShaped hdecode
      exact ⟨p, json, s, rfl, hjson, hreads, Option.some.inj hlength⟩

end Datapack.Document
