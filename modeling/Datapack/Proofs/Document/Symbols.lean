import Datapack.Document.Symbols
import Datapack.Proofs.Ir.Hierarchy
import Datapack.Proofs.Lookup

/-!
# The symbols of a document

Resolving the declarations of a document yields one symbol for each declared id, kept under its own id:
`Tables` says so of the symbols declared so far, and each step of the resolution keeps it.  Functions have
regular parameter lists, and no class reaches itself along parents and interfaces.
-/

namespace Datapack.Ir.Function

/-- Parameter names are distinct, and the parameters with a default, which are the optional ones, come
last. -/
structure IsRegular (f : Function) : Prop where
  distinct : (f.params.map Parameter.name).Nodup
  optional : ∀ p ∈ f.params, p.optional = p.default.isSome
  last : ∃ front back, f.params = front ++ back ∧ (∀ p ∈ front, p.default = none) ∧
    ∀ p ∈ back, p.default.isSome = true

theorem checkParams_cons {name : String} {seen : List String} {optional : Bool} {p : Parameter}
    {ps : List Parameter} (h : checkParams name seen optional (p :: ps) = .ok ()) :
    p.name ∉ seen ∧ (optional = true → p.optional = true) ∧
      checkParams name (p.name :: seen) (optional || p.optional) ps = .ok () := by
  unfold checkParams at h
  split at h
  · exact nomatch h
  · next hseen =>
      split at h
      · exact nomatch h
      split at h
      · exact nomatch h
      · next hrequired => exact ⟨hseen, fun hoptional => by simpa [hoptional] using hrequired, h⟩

theorem distinct_of_checkParams {name : String} {seen : List String} {optional : Bool}
    {ps : List Parameter} (h : checkParams name seen optional ps = .ok ()) :
    (ps.map Parameter.name).Nodup ∧ ∀ p ∈ ps, p.name ∉ seen := by
  induction ps generalizing seen optional with
  | nil => exact ⟨.nil, List.forall_mem_nil _⟩
  | cons p ps ih =>
      obtain ⟨hseen, -, hrest⟩ := checkParams_cons h
      obtain ⟨hnodup, hnew⟩ := ih hrest
      refine ⟨List.nodup_cons.2 ⟨?_, hnodup⟩, List.forall_mem_cons.2 ⟨hseen, ?_⟩⟩
      · intro hp
        obtain ⟨q, hq, hname⟩ := List.mem_map.1 hp
        exact hnew q hq (hname ▸ List.mem_cons_self)
      · exact fun q hq hmem => hnew q hq (List.mem_cons_of_mem _ hmem)

theorem optional_of_checkParams {name : String} {seen : List String} {ps : List Parameter}
    (h : checkParams name seen true ps = .ok ()) : ∀ p ∈ ps, p.optional = true := by
  induction ps generalizing seen with
  | nil => exact List.forall_mem_nil _
  | cons p ps ih =>
      obtain ⟨-, hoptional, hrest⟩ := checkParams_cons h
      exact List.forall_mem_cons.2 ⟨hoptional rfl, ih hrest⟩

theorem exists_split_of_checkParams {name : String} {seen : List String} {ps : List Parameter}
    (h : checkParams name seen false ps = .ok ()) :
    ∃ front back, ps = front ++ back ∧ (∀ p ∈ front, p.optional = false) ∧
      ∀ p ∈ back, p.optional = true := by
  induction ps generalizing seen with
  | nil => exact ⟨[], [], rfl, List.forall_mem_nil _, List.forall_mem_nil _⟩
  | cons p ps ih =>
      obtain ⟨-, -, hrest⟩ := checkParams_cons h
      rw [Bool.false_or] at hrest
      cases hp : p.optional with
      | true =>
          rw [hp] at hrest
          exact ⟨[], p :: ps, rfl, List.forall_mem_nil _,
            List.forall_mem_cons.2 ⟨hp, optional_of_checkParams hrest⟩⟩
      | false =>
          rw [hp] at hrest
          obtain ⟨front, back, rfl, hfront, hback⟩ := ih hrest
          exact ⟨p :: front, back, rfl, List.forall_mem_cons.2 ⟨hp, hfront⟩, hback⟩

theorem isRegular_of_checked {f g : Function} (hoptional : ∀ p ∈ f.params, p.optional = p.default.isSome)
    (h : f.checked = .ok g) : g = f ∧ f.IsRegular := by
  obtain ⟨_, hcheck, rfl⟩ := map_eq_ok_iff.1 h
  obtain ⟨front, back, hparams, hfront, hback⟩ := exists_split_of_checkParams hcheck
  refine ⟨rfl, (distinct_of_checkParams hcheck).1, hoptional, front, back, hparams, ?_, ?_⟩
  · intro p hp
    have hdefault := hoptional p (hparams ▸ List.mem_append_left back hp)
    rw [hfront p hp] at hdefault
    exact Option.isSome_eq_false_iff.1 hdefault.symm |> Option.isNone_iff_eq_none.1
  · intro p hp
    rw [← hoptional p (hparams ▸ List.mem_append_right front hp), hback p hp]

end Datapack.Ir.Function

namespace Datapack.Document

open Ir

/-- The id of the variable a parameter is bound to. -/
def FunctionEntry.paramId (f : FunctionEntry) (p : ParamEntry) : String :=
  if p.id = "" then f.id ++ "." ++ p.name else p.id

/-- The ids of the variables that are declared: those of variables, then those of parameters. -/
def SymbolEntries.variableIds (e : SymbolEntries) : List String :=
  e.vars.shown.map (·.id) ++ e.functions.shown.flatMap fun f => f.params.shown.map f.paramId

namespace Symbols

/-- A reference names a literal, or a symbol that is declared under its id. -/
def Declares (s : Symbols) : Reference → Prop
  | .literal _ => True
  | .var v => s.vars.lookup v.id = some (.var v)
  | .const v => s.vars.lookup v.id = some (.const v)
  | .function f => ∃ g, s.functions.lookup f.id = some g ∧ g.toRef = f
  | .classSymbol c => s.class? c.id = some c

def DeclaresType (s : Symbols) : Ty → Prop
  | .data _ => True
  | .object c => s.class? c.id = some c

/-- An operand object names a symbol that is declared under the id it gives, or a literal. -/
inductive Names (s : Symbols) (o : OperandEntry) : Reference → Prop
  | slot {v : Variable} {r : Reference} (hid : o.var = some v.id) (hslot : varOf (some r) = some v)
      (hr : s.Declares r) : Names s o r
  | literal {lit : Json} {l : Literal} (hvar : o.var = none) (hlit : o.lit = some lit)
      (hl : Symbols.literal o.type lit = .ok l) : Names s o (.literal l)
  | function {f : FunctionRef} (hvar : o.var = none) (hlit : o.lit = none) (hid : o.fn = some f.id)
      (hf : s.Declares (.function f)) : Names s o (.function f)
  | classSymbol {c : ClassRef} (hvar : o.var = none) (hlit : o.lit = none) (hfn : o.fn = none)
      (hid : o.classId = some c.id) (hc : s.Declares (.classSymbol c)) : Names s o (.classSymbol c)

theorem Names.declares {s : Symbols} {o : OperandEntry} {r : Reference} (h : s.Names o r) : s.Declares r := by
  cases h with
  | slot _ _ hr => exact hr
  | literal => trivial
  | function _ _ _ hf => exact hf
  | classSymbol _ _ _ _ hc => exact hc

/-- A parameter is a declared variable, and optional exactly if it has a default. -/
structure DeclaresParam (s : Symbols) (p : Parameter) : Prop where
  optional : p.optional = p.default.isSome
  var : s.Declares (.var p.var)
  default : ∀ r ∈ p.default, s.Declares r

/-- A variable or constant is kept under its id. -/
structure KeepsVar (s : Symbols) (id : String) (r : Reference) (v : Variable) : Prop where
  slot : varOf (some r) = some v
  id : v.id = id
  type : s.DeclaresType v.type

/-- A function is kept under its id, regular and with declared parameters. -/
structure KeepsFunction (s : Symbols) (id : String) (f : Function) : Prop where
  id : f.id = id
  regular : f.IsRegular
  params : ∀ p ∈ f.params, s.DeclaresParam p
  returnType : s.DeclaresType f.returnType

/-- The symbols declared so far are those of given ids, each under its own id. -/
structure Tables (s : Symbols) (classIds varIds functionIds : List String) : Prop where
  classes : s.classes.map (·.ref.id) = classIds
  vars : s.vars.map Prod.fst = varIds
  functions : s.functions.map Prod.fst = functionIds
  classIds : classIds.Nodup
  varIds : varIds.Nodup
  functionIds : functionIds.Nodup
  var : ∀ id r, (id, r) ∈ s.vars → ∃ v, s.KeepsVar id r v
  function : ∀ id f, (id, f) ∈ s.functions → s.KeepsFunction id f

/-! ## Growing tables -/

/-- The symbols of the first are symbols of the second. -/
structure Extends (s s' : Symbols) : Prop where
  vars : ∀ id r, s.vars.lookup id = some r → s'.vars.lookup id = some r
  functions : ∀ id f, s.functions.lookup id = some f → s'.functions.lookup id = some f
  classes : ∀ id c, s.class? id = some c → s'.class? id = some c

theorem Extends.declares {s s' : Symbols} (h : s.Extends s') {r : Reference} (hr : s.Declares r) :
    s'.Declares r := by
  cases r with
  | literal l => trivial
  | var v => exact h.vars _ _ hr
  | const v => exact h.vars _ _ hr
  | function f =>
      obtain ⟨g, hg, href⟩ := hr
      exact ⟨g, h.functions _ _ hg, href⟩
  | classSymbol c => exact h.classes _ _ hr

theorem Extends.declaresType {s s' : Symbols} (h : s.Extends s') {t : Ty} (ht : s.DeclaresType t) :
    s'.DeclaresType t := by
  cases t with
  | data d => trivial
  | object c => exact h.classes _ _ ht

theorem Extends.declaresParam {s s' : Symbols} (h : s.Extends s') {p : Parameter} (hp : s.DeclaresParam p) :
    s'.DeclaresParam p where
  optional := hp.optional
  var := h.declares hp.var
  default r hr := h.declares (hp.default r hr)

theorem Extends.keepsVar {s s' : Symbols} (h : s.Extends s') {id : String} {r : Reference}
    (hr : ∃ v, s.KeepsVar id r v) : ∃ v, s'.KeepsVar id r v := by
  obtain ⟨v, hv⟩ := hr
  exact ⟨v, { hv with type := h.declaresType hv.type }⟩

theorem Extends.keepsFunction {s s' : Symbols} (h : s.Extends s') {id : String} {f : Function}
    (hf : s.KeepsFunction id f) : s'.KeepsFunction id f :=
  { hf with
    params := fun p hp => h.declaresParam (hf.params p hp)
    returnType := h.declaresType hf.returnType }

theorem Extends.refl (s : Symbols) : s.Extends s := ⟨fun _ _ h => h, fun _ _ h => h, fun _ _ h => h⟩

theorem Extends.trans {s s' s'' : Symbols} (h : s.Extends s') (h' : s'.Extends s'') : s.Extends s'' :=
  ⟨fun _ _ hr => h'.vars _ _ (h.vars _ _ hr), fun _ _ hf => h'.functions _ _ (h.functions _ _ hf),
    fun _ _ hc => h'.classes _ _ (h.classes _ _ hc)⟩

theorem extends_append_vars (s : Symbols) (vs : List (String × Reference)) :
    s.Extends { s with vars := s.vars ++ vs } :=
  ⟨fun _ _ hr => lookup_append_of_some hr, fun _ _ hf => hf, fun _ _ hc => hc⟩

theorem class?_eq (s : Symbols) (id : String) :
    s.class? id = (s.classes.map ClassDecl.ref).find? (fun c => decide (c.id = id)) := by
  rw [class?, List.find?_map]
  rfl

theorem id_of_class? {s : Symbols} {id : String} {c : ClassRef} (h : s.class? id = some c) : c.id = id := by
  rw [class?_eq] at h
  have hid := List.find?_some (p := fun c : ClassRef => decide (c.id = id)) h
  exact of_decide_eq_true hid

theorem class?_isSome_iff {s : Symbols} {id : String} :
    (s.class? id).isSome = true ↔ id ∈ s.classes.map (·.ref.id) := by
  rw [class?_eq, List.find?_isSome]
  simp [eq_comm]

theorem declaresType_of_type? {s : Symbols} {name : String} {t : Ty} (h : s.type? name = some t) :
    s.DeclaresType t := by
  unfold type? at h
  split at h
  · obtain rfl := Option.some.inj h
    trivial
  split at h
  · obtain rfl := Option.some.inj h
    trivial
  · obtain ⟨c, hc, rfl⟩ := Option.map_eq_some_iff.1 h
    obtain rfl := id_of_class? hc
    exact hc

theorem nodup_append_new {ids : List String} {id : String} (h : ids.Nodup) (hnew : id ∉ ids) :
    (ids ++ [id]).Nodup := by
  rw [List.nodup_append]
  refine ⟨h, List.pairwise_singleton _ id, fun a ha b hb => ?_⟩
  obtain rfl := List.mem_singleton.1 hb
  rintro rfl
  exact hnew ha

namespace Tables

variable {s : Symbols} {classIds varIds functionIds : List String}

theorem not_mem_varIds (h : s.Tables classIds varIds functionIds) {id : String}
    (hnew : ¬ (s.vars.lookup id).isSome = true) : id ∉ varIds := by
  rwa [lookup_isSome_iff, h.vars] at hnew

theorem not_mem_functionIds (h : s.Tables classIds varIds functionIds) {id : String}
    (hnew : ¬ (s.functions.lookup id).isSome = true) : id ∉ functionIds := by
  rwa [lookup_isSome_iff, h.functions] at hnew

/-- What is found under an id is the variable of that id, or the constant. -/
theorem declares_of_lookup (h : s.Tables classIds varIds functionIds) {id : String} {r : Reference}
    (hr : s.vars.lookup id = some r) : ∃ v, varOf (some r) = some v ∧ v.id = id ∧ s.Declares r := by
  obtain ⟨v, hv, rfl, -⟩ := h.var id r (mem_of_lookup_eq_some hr)
  cases r with
  | var w =>
      obtain rfl := Option.some.inj hv
      exact ⟨w, rfl, rfl, hr⟩
  | const w =>
      obtain rfl := Option.some.inj hv
      exact ⟨w, rfl, rfl, hr⟩
  | _ => exact nomatch hv

theorem id_of_function (h : s.Tables classIds varIds functionIds) {id : String} {f : Function}
    (hf : s.functions.lookup id = some f) : f.id = id :=
  (h.function id f (mem_of_lookup_eq_some hf)).id

theorem addClass (h : s.Tables classIds varIds functionIds) {k : ClassDecl} (hnew : k.ref.id ∉ classIds) :
    Tables { s with classes := s.classes ++ [k] } (classIds ++ [k.ref.id]) varIds functionIds := by
  have hext : s.Extends { s with classes := s.classes ++ [k] } := by
    refine ⟨fun _ _ hr => hr, fun _ _ hf => hf, fun id c hc => ?_⟩
    rw [class?_eq] at hc ⊢
    rw [List.map_append, List.find?_append, hc, Option.some_or]
  exact
    { h with
      classes := by rw [List.map_append, h.classes]; rfl
      classIds := nodup_append_new h.classIds hnew
      var := fun id r hr => hext.keepsVar (h.var id r hr)
      function := fun id f hf => hext.keepsFunction (h.function id f hf) }

theorem addVar (h : s.Tables classIds varIds functionIds) {id : String} {r : Reference} {v : Variable}
    (hnew : id ∉ varIds) (hv : s.KeepsVar id r v) :
    Tables { s with vars := s.vars ++ [(id, r)] } classIds (varIds ++ [id]) functionIds := by
  have hext := s.extends_append_vars [(id, r)]
  exact
    { h with
      vars := by rw [List.map_append, h.vars]; rfl
      varIds := nodup_append_new h.varIds hnew
      var := by
        intro id' r' hmem
        rcases List.mem_append.1 hmem with hmem | hmem
        · exact hext.keepsVar (h.var id' r' hmem)
        · obtain ⟨rfl, rfl⟩ := Prod.mk.inj (List.mem_singleton.1 hmem)
          exact hext.keepsVar ⟨v, hv⟩
      function := fun id f hf => hext.keepsFunction (h.function id f hf) }

theorem addFunction (h : s.Tables classIds varIds functionIds) {f : Function} (hnew : f.id ∉ functionIds)
    (hf : s.KeepsFunction f.id f) :
    Tables { s with functions := s.functions ++ [(f.id, f)] } classIds varIds (functionIds ++ [f.id]) := by
  have hext : s.Extends { s with functions := s.functions ++ [(f.id, f)] } :=
    ⟨fun _ _ hr => hr, fun _ _ hf => lookup_append_of_some hf, fun _ _ hc => hc⟩
  exact
    { h with
      functions := by rw [List.map_append, h.functions]; rfl
      functionIds := nodup_append_new h.functionIds hnew
      function := by
        intro id g hmem
        rcases List.mem_append.1 hmem with hmem | hmem
        · exact hext.keepsFunction (h.function id g hmem)
        · obtain ⟨rfl, rfl⟩ := Prod.mk.inj (List.mem_singleton.1 hmem)
          exact hext.keepsFunction hf
      var := fun id r hr => hext.keepsVar (h.var id r hr) }

/-- Giving classes other members leaves the symbols as they are. -/
theorem relink (h : s.Tables classIds varIds functionIds) {id : String} {f : ClassDecl → ClassDecl}
    (hf : ∀ k, (f k).ref = k.ref) : Tables (s.modifyClass id f) classIds varIds functionIds := by
  have hrefs : (s.modifyClass id f).classes.map ClassDecl.ref = s.classes.map ClassDecl.ref := by
    rw [modifyClass, List.map_map]
    refine List.map_congr_left fun k _ => ?_
    show (if k.ref.id = id then f k else k).ref = k.ref
    split
    · exact hf k
    · rfl
  have hext : s.Extends (s.modifyClass id f) := by
    refine ⟨fun _ _ hr => hr, fun _ _ hf => hf, fun id c hc => ?_⟩
    rwa [class?_eq, hrefs, ← class?_eq]
  exact
    { h with
      classes := by
        have hids := congrArg (List.map ClassRef.id) hrefs
        rw [List.map_map, List.map_map] at hids
        exact hids.trans h.classes
      var := fun id r hr => hext.keepsVar (h.var id r hr)
      function := fun id f hf => hext.keepsFunction (h.function id f hf) }

end Tables

/-! ## The steps of the resolution -/

theorem Tables.declareClass {s s' : Symbols} {e : ClassEntry} {classIds varIds functionIds : List String}
    (h : s.Tables classIds varIds functionIds) (hstep : s.declareClass e = .ok s') :
    s'.Tables (classIds ++ [e.id]) varIds functionIds := by
  unfold Symbols.declareClass at hstep
  split at hstep
  · exact nomatch hstep
  split at hstep
  · exact nomatch hstep
  · next hnew =>
      obtain rfl := Except.ok.inj hstep
      apply h.addClass
      rwa [class?_isSome_iff, h.classes] at hnew

theorem Tables.linkClass {s s' : Symbols} {e : ClassEntry} {classIds varIds functionIds : List String}
    (h : s.Tables classIds varIds functionIds) (hstep : s.linkClass e = .ok s') :
    s'.Tables classIds varIds functionIds := by
  unfold Symbols.linkClass at hstep
  extract_lets relinked at hstep
  have hrelink : ∀ parent, relinked parent = .ok s' → s'.Tables classIds varIds functionIds := by
    intro parent hstep
    obtain ⟨interfaces, -, hstep⟩ := bind_eq_ok_iff.1 hstep
    obtain ⟨properties, -, hstep⟩ := bind_eq_ok_iff.1 hstep
    obtain rfl := pure_eq_ok_iff.1 hstep
    exact h.relink fun _ => rfl
  split at hstep
  · exact hrelink none hstep
  split at hstep
  · next p _ => exact hrelink (some p) hstep
  · exact nomatch hstep

theorem Tables.bindMethods {s s' : Symbols} {e : ClassEntry} {classIds varIds functionIds : List String}
    (h : s.Tables classIds varIds functionIds) (hstep : s.bindMethods e = .ok s') :
    s'.Tables classIds varIds functionIds := by
  obtain ⟨methods, -, hstep⟩ := bind_eq_ok_iff.1 hstep
  obtain rfl := pure_eq_ok_iff.1 hstep
  exact h.relink fun _ => rfl

theorem Tables.declareVariable {s s' : Symbols} {e : VariableEntry}
    {classIds varIds functionIds : List String} (h : s.Tables classIds varIds functionIds)
    (hstep : s.declareVariable e = .ok s') : s'.Tables classIds (varIds ++ [e.id]) functionIds := by
  simp only [Symbols.declareVariable, guard_eq_ok_iff] at hstep
  obtain ⟨-, hnew, hstep⟩ := hstep
  split at hstep
  · next type hread =>
      have htype := declaresType_of_type? hread
      simp only [pure_bind] at hstep
      split at hstep
      · obtain rfl := pure_eq_ok_iff.1 hstep
        exact h.addVar (h.not_mem_varIds hnew) ⟨rfl, rfl, htype⟩
      split at hstep
      · obtain rfl := pure_eq_ok_iff.1 hstep
        exact h.addVar (h.not_mem_varIds hnew) ⟨rfl, rfl, htype⟩
      split at hstep
      · obtain rfl := pure_eq_ok_iff.1 hstep
        exact h.addVar (h.not_mem_varIds hnew) ⟨rfl, rfl, htype⟩
      · exact nomatch hstep
  · exact nomatch hstep

theorem Tables.names_of_reference {s : Symbols} {classIds varIds functionIds : List String}
    (h : s.Tables classIds varIds functionIds) {j : Json} {r : Reference}
    (hr : s.reference j = .ok (some r)) : ∃ o, OperandEntry.shape {} j = some o ∧ s.Names o r := by
  unfold Symbols.reference at hr
  split at hr
  · exact nomatch hr
  split at hr
  · exact nomatch hr
  next o hshape =>
    refine ⟨o, hshape, ?_⟩
    split at hr
    · next id hid =>
        split at hr
        · next hlookup =>
            obtain rfl := Option.some.inj (Except.ok.inj hr)
            obtain ⟨v, hslot, rfl, hdeclared⟩ := h.declares_of_lookup hlookup
            exact .slot hid hslot hdeclared
        · exact nomatch hr
    · next hvar hlit =>
        obtain ⟨l, hl, hr⟩ := map_eq_ok_iff.1 hr
        obtain rfl := Option.some.inj hr
        exact .literal hvar hlit hl
    · next hvar hlit hid =>
        split at hr
        · next f hlookup =>
            obtain rfl := Option.some.inj (Except.ok.inj hr)
            obtain rfl := h.id_of_function hlookup
            exact .function hvar hlit hid ⟨f, hlookup, rfl⟩
        · exact nomatch hr
    · next hvar hlit hfn hid =>
        split at hr
        · next c hclass =>
            obtain rfl := Option.some.inj (Except.ok.inj hr)
            obtain rfl := id_of_class? hclass
            exact .classSymbol hvar hlit hfn hid hclass
        · exact nomatch hr
    · exact nomatch hr

theorem Tables.declareParam {s s' : Symbols} {f : FunctionEntry} {p : ParamEntry} {q : Parameter}
    {classIds varIds functionIds : List String} (h : s.Tables classIds varIds functionIds)
    (hstep : s.declareParam f p = .ok (s', q)) :
    s'.Tables classIds (varIds ++ [f.paramId p]) functionIds ∧ s.Extends s' ∧ s'.DeclaresParam q := by
  unfold Symbols.declareParam at hstep
  split at hstep
  · next type hread =>
      have htype := declaresType_of_type? hread
      extract_lets id declared at hstep
      have hdeclare : ∀ default, (∀ r ∈ default, s.Declares r) → declared default = .ok (s', q) →
          s'.Tables classIds (varIds ++ [f.paramId p]) functionIds ∧ s.Extends s' ∧ s'.DeclaresParam q := by
        intro default hdefault hstep
        simp only [declared, guard_eq_ok_iff] at hstep
        obtain ⟨hnew, hstep⟩ := hstep
        obtain ⟨rfl, rfl⟩ := Prod.mk.inj (pure_eq_ok_iff.1 hstep)
        let q := Parameter.ofDefault id p.name type default
        have htables := h.addVar (h.not_mem_varIds hnew) (r := .var q.var) ⟨rfl, rfl, htype⟩
        have hext := s.extends_append_vars [(id, .var q.var)]
        refine ⟨htables, hext, rfl, ?_, fun r hr => hext.declares (hdefault r hr)⟩
        apply lookup_eq_some_of_mem
        · rw [htables.vars]
          exact htables.varIds
        · exact List.mem_append_right _ (List.mem_singleton.2 rfl)
      split at hstep
      · exact hdeclare none (fun r hr => nomatch hr) hstep
      split at hstep
      · next default hreference =>
          refine hdeclare default ?_ hstep
          rintro r rfl
          obtain ⟨o, -, hnames⟩ := h.names_of_reference hreference
          exact hnames.declares
      · exact nomatch hstep
  · exact nomatch hstep

theorem Tables.declareParams {s s' : Symbols} {f : FunctionEntry} {ps : List ParamEntry}
    {qs : List Parameter} {classIds varIds functionIds : List String}
    (h : s.Tables classIds varIds functionIds) (hstep : s.declareParams f ps = .ok (s', qs)) :
    s'.Tables classIds (varIds ++ ps.map f.paramId) functionIds ∧ s.Extends s' ∧
      ∀ q ∈ qs, s'.DeclaresParam q := by
  induction ps generalizing s varIds qs with
  | nil =>
      obtain ⟨rfl, rfl⟩ := Prod.mk.inj (Except.ok.inj hstep)
      rw [List.map_nil, List.append_nil]
      exact ⟨h, .refl s, List.forall_mem_nil _⟩
  | cons p ps ih =>
      obtain ⟨⟨next, q⟩, hnext, hstep⟩ := bind_eq_ok_iff.1 hstep
      obtain ⟨⟨last, rest⟩, hrest, hstep⟩ := bind_eq_ok_iff.1 hstep
      obtain ⟨rfl, rfl⟩ := Prod.mk.inj (pure_eq_ok_iff.1 hstep)
      obtain ⟨htables, hext, hq⟩ := h.declareParam hnext
      obtain ⟨htables, hext', hqs⟩ := ih htables hrest
      rw [List.append_assoc] at htables
      exact ⟨htables, hext.trans hext', List.forall_mem_cons.2 ⟨hext'.declaresParam hq, hqs⟩⟩

theorem Tables.declareFunction {s s' : Symbols} {e : FunctionEntry}
    {classIds varIds functionIds : List String} (h : s.Tables classIds varIds functionIds)
    (hstep : s.declareFunction e = .ok s') :
    s'.Tables classIds (varIds ++ e.params.shown.map e.paramId) (functionIds ++ [e.id]) := by
  simp only [Symbols.declareFunction, guard_eq_ok_iff] at hstep
  obtain ⟨-, hnew, hstep⟩ := hstep
  split at hstep
  · next returnType hread =>
      split at hstep
      · next kind _ =>
          obtain ⟨⟨declared, params⟩, hparams, hstep⟩ := bind_eq_ok_iff.1 hstep
          obtain ⟨htables, hext, hdeclared⟩ := h.declareParams hparams
          dsimp only at hstep
          split at hstep
          · next f hchecked =>
              obtain rfl := pure_eq_ok_iff.1 hstep
              obtain ⟨rfl, hregular⟩ :=
                Function.isRegular_of_checked (fun q hq => (hdeclared q hq).optional) hchecked
              exact htables.addFunction (h.not_mem_functionIds hnew)
                ⟨rfl, hregular, hdeclared, hext.declaresType (declaresType_of_type? hread)⟩
          · exact nomatch hstep
      · exact nomatch hstep
  · exact nomatch hstep

/-! ## The whole resolution -/

theorem tables_of_ofEntries {e : SymbolEntries} {s : Symbols} (h : ofEntries e = .ok s) :
    s.Tables (e.classes.shown.map (·.id)) e.variableIds (e.functions.shown.map (·.id)) := by
  obtain ⟨declared, hdeclared, h⟩ := bind_eq_ok_iff.1 h
  obtain ⟨linked, hlinked, h⟩ := bind_eq_ok_iff.1 h
  obtain ⟨slots, hslots, h⟩ := bind_eq_ok_iff.1 h
  obtain ⟨functions, hfunctions, h⟩ := bind_eq_ok_iff.1 h
  obtain ⟨bound, hbound, h⟩ := bind_eq_ok_iff.1 h
  obtain ⟨_, hacyclic, h⟩ := bind_eq_ok_iff.1 h
  obtain rfl := pure_eq_ok_iff.1 h
  have hempty : Tables {} [] [] [] := by
    constructor <;> simp
  have h₁ := foldlM_induction (P := fun done s => s.Tables (done.map (·.id)) [] []) hdeclared hempty
    (fun done e s s' _ hs hstep => by
      rw [List.map_append]
      exact hs.declareClass hstep)
  have h₂ := foldlM_induction (P := fun _ s => s.Tables (e.classes.shown.map (·.id)) [] []) hlinked h₁
    (fun done e s s' _ hs hstep => hs.linkClass hstep)
  have h₃ := foldlM_induction
    (P := fun done s => s.Tables (e.classes.shown.map (·.id)) (done.map (·.id)) []) hslots h₂
    (fun done e s s' _ hs hstep => by
      rw [List.map_append]
      exact hs.declareVariable hstep)
  have h₄ := foldlM_induction (P := fun done s => s.Tables (e.classes.shown.map (·.id))
      (e.vars.shown.map (·.id) ++ done.flatMap fun f => f.params.shown.map f.paramId) (done.map (·.id)))
    hfunctions (by rwa [List.flatMap_nil, List.append_nil]) (fun done f s s' _ hs hstep => by
      rw [List.flatMap_append, List.map_append, ← List.append_assoc, List.flatMap_singleton]
      exact hs.declareFunction hstep)
  exact foldlM_induction (P := fun _ s => s.Tables (e.classes.shown.map (·.id)) e.variableIds
      (e.functions.shown.map (·.id))) hbound h₄
    (fun done e s s' _ hs hstep => hs.bindMethods hstep)

theorem not_reaches_self_of_ofEntries {e : SymbolEntries} {s : Symbols} (h : ofEntries e = .ok s)
    (c : ClassRef) : ¬ Relation.TransGen s.classes.Linked c c := by
  obtain ⟨declared, -, h⟩ := bind_eq_ok_iff.1 h
  obtain ⟨linked, -, h⟩ := bind_eq_ok_iff.1 h
  obtain ⟨slots, -, h⟩ := bind_eq_ok_iff.1 h
  obtain ⟨functions, -, h⟩ := bind_eq_ok_iff.1 h
  obtain ⟨bound, -, h⟩ := bind_eq_ok_iff.1 h
  obtain ⟨_, hacyclic, h⟩ := bind_eq_ok_iff.1 h
  obtain rfl := pure_eq_ok_iff.1 h
  intro hcycle
  obtain ⟨d, hlink, -⟩ := Relation.TransGen.head'_iff.1 hcycle
  obtain ⟨k, hk, rfl⟩ := List.mem_map.1 hlink.declared
  have hchecked := forall_of_forM hacyclic k hk
  split at hchecked
  · next hvisit => exact Hierarchy.not_reaches_self_of_acyclic hvisit hcycle
  · exact nomatch hchecked

end Symbols

end Datapack.Document
