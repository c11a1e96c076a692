import Mathlib.Logic.Relation
import Datapack.Ir.Validity
import Datapack.Proofs.Ir.Brackets
import Datapack.Proofs.Optimize.Measure

/-!
# Callers of functions

How calls of a function are counted depends on the function: calls of a method by its name, among the
method calls, and calls of any other function among the other calls (`isCalled_iff`).  A definition that
is counted as uncalled goes with its body and with everything in there, be it called or not
(`removes_iff`).  So what is called stays where the call is of the kind that is counted and no definition
around it goes (`run_keeps_called`).  Counting looks at the stream before anything is removed, so what
stays may have been called only from what is removed; runs that are repeated until nothing changes leave
no such definition (`run_leaves_referenced`).
-/

namespace Datapack.Optimize.UnusedFunctions

open Ir ScopeTree

/-- A call is counted as one of a function. -/
def Refers (caller : Instruction) (f : Function) : Prop :=
  if f.kind = .method then
    caller.op = .callMethod ∧ caller.function?.map Function.name = some f.name
  else caller.op = .call ∧ caller.function? = some f

/-- A definition of a function with its body. -/
structure Defines (s : Stream) (t : ScopeTree) (i : Nat) (f : Function) (n : Nat) : Prop where
  definition : ∃ d, s[i]? = some d ∧ d.op = .function ∧ d.function? = some f
  body : ∃ b, s[i + 1]? = some b ∧ b.op = .scopeBegin ∧ b.scopeKind = .function
  node : t.nodeAt (i + 1 : Nat) = n

def removes (s : Stream) (t : ScopeTree) (i : Nat) : Bool :=
  isVain s i || (vainBodies s t).any (inRegion · i)

variable {s : Stream} {t : ScopeTree} {f g : Function} {i j k n m : Nat} {ins : Instruction}

/-! ## What is counted -/

theorem isCalled_iff : isCalled s f = true ↔ ∃ caller ∈ s, Refers caller f := by
  unfold isCalled Refers
  split
  · simp [List.any_eq_true]
  · simp [List.any_eq_true]

theorem isVain_iff : isVain s i = true ↔
    ∃ d f, s[i]? = some d ∧ d.op = .function ∧ d.function? = some f ∧ isRemovable f = true ∧
      ¬∃ caller ∈ s, Refers caller f := by
  rw [isVain]
  cases hi : s[i]? with
  | none => simp
  | some d =>
      dsimp only
      split
      · next f hop hf => simp [hop, hf, ← isCalled_iff]
      · next hother =>
          constructor
          · intro h
            exact Bool.noConfusion h
          · rintro ⟨d', f, hd, hop, hf, -⟩
            obtain rfl := Option.some.inj hd
            exact absurd hf (hother f hop)

theorem isVain_function (h : isVain s i = true) (hi : s[i]? = some ins) : ins.op = .function := by
  obtain ⟨d, f, hd, hop, -⟩ := isVain_iff.1 h
  obtain rfl := Option.some.inj (hi.symm.trans hd)
  exact hop

theorem ne_of_isVain (hj : isVain s j = true) (hi : isVain s i = false) : j ≠ i := by
  rintro rfl
  rw [hi] at hj
  exact Bool.noConfusion hj

theorem Defines.isVain_eq_false (h : Defines s t i f n) (hcalled : ∃ caller ∈ s, Refers caller f) :
    isVain s i = false := by
  rw [Bool.eq_false_iff]
  intro hvain
  obtain ⟨d, hd, -, hf⟩ := h.definition
  obtain ⟨d', g, hd', -, hg, -, huncalled⟩ := isVain_iff.1 hvain
  obtain rfl := Option.some.inj (hd.symm.trans hd')
  obtain rfl := Option.some.inj (hf.symm.trans hg)
  exact huncalled hcalled

/-! ## Definitions and their bodies -/

theorem inRegion_iff (ht : ofStream s = .ok t) (hn : n ∈ t.inner) (hi : s[i]? = some ins)
    (hplain : isDelimiter ins = false) : inRegion (t.node n) i = true ↔ (t.node n).contains i = true := by
  rw [← mem_ancestors_iff_contains ht (mem_inner_iff.1 hn).2 hi hplain, mem_ancestors_nodeAt_iff ht hn,
    inRegion, Bool.and_eq_true, decide_eq_true_eq, decide_eq_true_eq]

namespace Defines

theorem inner (h : Defines s t i f n) (ht : ofStream s = .ok t) : n ∈ t.inner := by
  obtain ⟨b, hb, hop, -⟩ := h.body
  rw [mem_inner_iff, ← h.node]
  exact nodeAt_begin ht hb hop

theorem first (h : Defines s t i f n) (ht : ofStream s = .ok t) : (t.node n).first = i + 1 := by
  obtain ⟨b, hb, hop, -⟩ := h.body
  obtain ⟨pre, post, hs, hpre⟩ := exists_split hb
  have hnode := nodeAt_length ht hs
  rw [Position.owner, if_pos hop, hpre, h.node] at hnode
  rw [hnode, first_begin ht hs hop, hpre]
  rfl

theorem plain (h : Defines s t i f n) : ∃ d, s[i]? = some d ∧ isDelimiter d = false := by
  obtain ⟨d, hd, hop, -⟩ := h.definition
  exact ⟨d, hd, by simp [isDelimiter, hop]⟩

end Defines

/-- A definition that is counted as uncalled does not stand where a body begins. -/
theorem ne_first_of_isVain (h : Defines s t i f n) (ht : ofStream s = .ok t) (hj : isVain s j = true) :
    (j : Int) ≠ (t.node n).first := by
  rw [h.first ht]
  intro heq
  obtain rfl : j = i + 1 := by omega
  obtain ⟨b, hb, hop, -⟩ := h.body
  rw [isVain_function hj hb] at hop
  exact Opcode.noConfusion hop

/-- What is removed is the definitions that are counted as uncalled and everything in their bodies. -/
theorem removes_iff : removes s t k = true ↔ ∃ j, isVain s j = true ∧
    (k = j ∨ ∃ g m, Defines s t j g m ∧ inRegion (t.node m) k = true) := by
  rw [removes, Bool.or_eq_true, vainBodies_eq, List.any_map, List.any_eq_true]
  constructor
  · rintro (hvain | ⟨m, hm, hin⟩)
    · exact ⟨k, hvain, .inl rfl⟩
    · obtain ⟨j, b, hvain, hb, hop, hkind, hnode⟩ := mem_vainNodes.1 hm
      obtain ⟨d, g, hd, hdef, hg, -⟩ := isVain_iff.1 hvain
      exact ⟨j, hvain, .inr ⟨g, m, ⟨⟨d, hd, hdef, hg⟩, ⟨b, hb, hop, hkind⟩, hnode⟩, hin⟩⟩
  · rintro ⟨j, hvain, rfl | ⟨g, m, hdefines, hin⟩⟩
    · exact .inl hvain
    · obtain ⟨b, hb, hop, hkind⟩ := hdefines.body
      exact .inr ⟨m, mem_vainNodes.2 ⟨j, b, hvain, hb, hop, hkind, hdefines.node⟩, hin⟩

theorem run_eq (ht : ofStream s = .ok t) : run s = .ok (Edits.apply { drop := removes s t } s) :=
  withTree_eq ht _

theorem code_eq (s : Stream) (t : ScopeTree) : (Edits.apply { drop := removes s t } s).code =
    (s.zipIdx.filter fun x => !removes s t x.2).map Prod.fst := by
  rw [Edits.apply_eq, Edits.edited_drop]

theorem mem_of_mem_code (h : ins ∈ (Edits.apply { drop := removes s t } s).code) : ins ∈ s := by
  rw [Edits.apply_eq] at h
  obtain ⟨k, hk, -⟩ := Edits.exists_of_mem_edited_drop h
  exact List.mem_of_getElem? hk

/-! ## What is called stays -/

/-- The definition of a called function goes only with a body around it. -/
theorem removes_definition_iff (ht : ofStream s = .ok t) (h : Defines s t i f n)
    (hcalled : isVain s i = false) : removes s t i = false ↔
      ∀ j g m, Defines s t j g m → isVain s j = true → (t.node m).contains i = false := by
  obtain ⟨d, hd, hplain⟩ := h.plain
  rw [Bool.eq_false_iff, ne_eq, removes_iff]
  constructor
  · intro hkept j g m hdefines hvain
    rw [Bool.eq_false_iff]
    intro hin
    apply hkept
    exact ⟨j, hvain, .inr ⟨g, m, hdefines, (inRegion_iff ht (hdefines.inner ht) hd hplain).2 hin⟩⟩
  · rintro hout ⟨j, hvain, rfl | ⟨g, m, hdefines, hin⟩⟩
    · exact ne_of_isVain hvain hcalled rfl
    · have hcontains := (inRegion_iff ht (hdefines.inner ht) hd hplain).1 hin
      rw [hout j g m hdefines hvain] at hcontains
      exact Bool.noConfusion hcontains

/-- A definition whose body shares an index with that of one that stays lies in there. -/
theorem contains_of_overlap (ht : ofStream s = .ok t) (h : Defines s t i f n) (hcalled : isVain s i = false)
    (hkept : removes s t i = false) (hvain : isVain s j = true) (hdefines : Defines s t j g m)
    (hik : i ≤ k) (hkn : (k : Int) ≤ (t.node n).last) (hin : inRegion (t.node m) k = true) :
    (t.node n).contains j = true := by
  have hn := h.inner ht
  have hm := hdefines.inner ht
  have hfirst := h.first ht
  have hfirst' := hdefines.first ht
  have hne := ne_first_of_isVain h ht hvain
  have hji := ne_of_isVain hvain hcalled
  -- the body that goes does not hold the definition that stays
  have hout : ¬((t.node m).first ≤ i ∧ (i : Int) ≤ (t.node m).last) := by
    rw [Bool.eq_false_iff, ne_eq, removes_iff] at hkept
    intro hi
    apply hkept
    refine ⟨j, hvain, .inr ⟨g, m, hdefines, ?_⟩⟩
    rw [inRegion, Bool.and_eq_true, decide_eq_true_eq, decide_eq_true_eq]
    exact hi
  rw [inRegion, Bool.and_eq_true, decide_eq_true_eq, decide_eq_true_eq] at hin
  have hbegin : (t.node n).first < (t.node m).first := by
    rcases Int.lt_trichotomy (t.node n).first (t.node m).first with hlt | heq | hgt
    · exact hlt
    · omega
    · have hlast := last_lt_last ht hm hn hgt (by omega)
      omega
  have hlast := last_lt_last ht hn hm hbegin (by omega)
  have hbounds := bounds ht hm
  rw [ScopeNode.contains, Bool.and_eq_true, decide_eq_true_eq, decide_eq_true_eq]
  omega

/-- From the body of a function that stays only definitions go that are counted as uncalled. -/
theorem removes_body_iff (ht : ofStream s = .ok t) (h : Defines s t i f n) (hcalled : isVain s i = false)
    (hkept : removes s t i = false) (hik : i ≤ k) (hkn : (k : Int) ≤ (t.node n).last) :
    removes s t k = true ↔ ∃ j, isVain s j = true ∧ (t.node n).contains j = true ∧
      (k = j ∨ ∃ g m, Defines s t j g m ∧ inRegion (t.node m) k = true) := by
  rw [removes_iff]
  constructor
  · rintro ⟨j, hvain, hk⟩
    refine ⟨j, hvain, ?_, hk⟩
    rcases hk with rfl | ⟨g, m, hdefines, hin⟩
    · have hne := ne_of_isVain hvain hcalled
      obtain ⟨d, g, hd, hop, -⟩ := isVain_iff.1 hvain
      rw [← inRegion_iff ht (h.inner ht) hd (by simp [isDelimiter, hop]), inRegion, h.first ht,
        Bool.and_eq_true, decide_eq_true_eq, decide_eq_true_eq]
      omega
    · exact contains_of_overlap ht h hcalled hkept hvain hdefines hik hkn hin
  · rintro ⟨j, hvain, -, hk⟩
    exact ⟨j, hvain, hk⟩

/-- The definition of a function stays, as long as a call of the kind that is counted for the function
does, unless it stands in the body of a function that is counted as uncalled.  With it stays its body, up
to the definitions in there that are counted as uncalled themselves. -/
theorem run_keeps_called (hs : s.balanced = true) :
    ∃ t out, ofStream s = .ok t ∧ run s = .ok out ∧ ∃ kept : Nat → Bool,
      out.code = (s.zipIdx.filter fun x => kept x.2).map Prod.fst ∧
      ∀ i f n, Defines s t i f n → (∃ caller ∈ out.code, Refers caller f) →
        (kept i = true ↔
          ∀ j g m, Defines s t j g m → isVain s j = true → (t.node m).contains i = false) ∧
        (kept i = true → ∀ k : Nat, i ≤ k → k ≤ (t.node n).last →
          (kept k = false ↔ ∃ j, isVain s j = true ∧ (t.node n).contains j = true ∧
            (k = j ∨ ∃ g m, Defines s t j g m ∧ inRegion (t.node m) k = true))) := by
  obtain ⟨t, ht⟩ := exists_tree hs
  refine ⟨t, _, ht, run_eq ht, fun i => !removes s t i, code_eq s t, ?_⟩
  rintro i f n h ⟨caller, hmem, hrefers⟩
  have hcalled := h.isVain_eq_false ⟨caller, mem_of_mem_code hmem, hrefers⟩
  simp only [Bool.not_eq_true', Bool.not_eq_false']
  exact ⟨removes_definition_iff ht h hcalled,
    fun hkept k hik hkn => removes_body_iff ht h hcalled hkept hik hkn⟩

def definition (f : Function) (body : Stream) : Stream :=
  Instruction.function f :: Instruction.scopeBegin f.name .function ::
    (body ++ [Instruction.scopeEnd f.name .function])

def procedure (id name : String) (kind : FunctionKind) (annotations : List String) : Function :=
  { id, name, params := [], returnType := .data .null, kind, annotations }

/-- A called function with a definition in its body that nothing calls. -/
def nestedDefinitions : Stream :=
  let inner := procedure "inner" "inner" .function []
  let outer := procedure "outer" "outer" .function []
  definition outer (definition inner []) ++
    definition (procedure "main" "main" .function ["load"]) [Instruction.call none outer []]

theorem run_keeps_called_nestedDefinitions :
    nestedDefinitions.balanced = true ∧
      ∃ t out, ofStream nestedDefinitions = .ok t ∧ run nestedDefinitions = .ok out ∧
        ∃ kept : Nat → Bool,
          out.code = (nestedDefinitions.zipIdx.filter fun x => kept x.2).map Prod.fst ∧
          ∀ i f n, Defines nestedDefinitions t i f n → (∃ caller ∈ out.code, Refers caller f) →
            (kept i = true ↔ ∀ j g m, Defines nestedDefinitions t j g m →
              isVain nestedDefinitions j = true → (t.node m).contains i = false) ∧
            (kept i = true → ∀ k : Nat, i ≤ k → k ≤ (t.node n).last →
              (kept k = false ↔ ∃ j, isVain nestedDefinitions j = true ∧
                (t.node n).contains j = true ∧
                (k = j ∨ ∃ g m, Defines nestedDefinitions t j g m ∧ inRegion (t.node m) k = true))) :=
  ⟨by decide, run_keeps_called (by decide)⟩

def greeter : ClassDecl :=
  { ref := { id := "greeter", name := "Greeter" }
    methods := [procedure "greet" "greet" .function []] }

/-- A method call of an ordinary function, which is not counted as one of its calls. -/
def greeting : Stream :=
  let greet := procedure "greet" "greet" .function []
  let obj := some (Reference.var { id := "obj", name := "obj", type := .object greeter.ref })
  definition greet [] ++ definition (procedure "main" "main" .function ["load"])
    [Instruction.declare obj, Instruction.newObject obj greeter.ref,
      Instruction.callMethod none greeter.ref greet [⟨"self", obj⟩]]

theorem run_strips_greet :
    ∃ t out, (⟨[greeter], greeting⟩ : Program).isValid = true ∧ ofStream greeting = .ok t ∧
      run greeting = .ok out ∧ Defines greeting t 0 (procedure "greet" "greet" .function []) 1 ∧
      (∃ caller ∈ out.code, caller.op = .callMethod ∧
        caller.function? = some (procedure "greet" "greet" .function [])) ∧
      ∀ ins ∈ out.code, ins.op = .function →
        ins.function? ≠ some (procedure "greet" "greet" .function []) := by
  refine ⟨_, _, by decide, rfl, rfl, ⟨?_, ?_, by decide⟩, by decide, by decide⟩
  · exact ⟨_, rfl, rfl, rfl⟩
  · exact ⟨_, rfl, rfl, rfl⟩

/-! ## What stays was called -/

theorem isRemovable_iff : isRemovable f = true ↔
    f.kind ≠ .builtin ∧ f.kind ≠ .library ∧ f.annotations = [] := by
  simp only [isRemovable, Bool.and_eq_true, decide_eq_true_eq, List.isEmpty_iff]
  tauto

/-- Every definition is called, but for entry points and functions whose bodies are provided elsewhere. -/
def Referenced (s : Stream) : Prop :=
  ∀ ins ∈ s, ins.op = .function → ∀ f, ins.function? = some f → f.kind ≠ .builtin →
    f.kind ≠ .library → f.annotations = [] → ∃ caller ∈ s, Refers caller f

/-- A run leads from one stream to another one. -/
def Leads (s s' : Stream) : Prop := ∃ out, run s = .ok out ∧ out.code = s'

theorem op_of_refers (h : Refers ins f) : ins.op = .call ∨ ins.op = .callMethod := by
  unfold Refers at h
  split at h
  · exact .inr h.1
  · exact .inl h.1

theorem exists_caller (hi : s[i]? = some ins) (hop : ins.op = .function) (hf : ins.function? = some f)
    (hremovable : isRemovable f = true) (hvain : isVain s i = false) :
    ∃ caller ∈ s, Refers caller f := by
  by_contra huncalled
  rw [isVain_iff.2 ⟨ins, f, hi, hop, hf, hremovable, huncalled⟩] at hvain
  exact Bool.noConfusion hvain

/-- A call that is removed stands in a body that is removed with its definition. -/
theorem exists_defines_of_removes (ht : ofStream s = .ok t) (hk : s[k]? = some ins)
    (hrefers : Refers ins f) (hremoved : removes s t k = true) :
    ∃ j g m, Defines s t j g m ∧ removes s t j = true ∧ (t.node m).contains k = true := by
  have hcall := op_of_refers hrefers
  have hplain : isDelimiter ins = false := by
    rcases hcall with hop | hop
    · simp [isDelimiter, hop]
    · simp [isDelimiter, hop]
  obtain ⟨j, hvain, rfl | ⟨g, m, hdefines, hin⟩⟩ := removes_iff.1 hremoved
  · rw [isVain_function hvain hk] at hcall
    simp at hcall
  · refine ⟨j, g, m, hdefines, by simp [removes, hvain], ?_⟩
    exact (inRegion_iff ht (hdefines.inner ht) hk hplain).1 hin

theorem referenced_of_unchanged (h : (Edits.apply { drop := removes s t } s).changed = false) :
    Referenced s := by
  intro ins hins hop f hf hbuiltin hlibrary hannotations
  obtain ⟨i, hi⟩ := List.mem_iff_getElem?.1 hins
  apply exists_caller hi hop hf (isRemovable_iff.2 ⟨hbuiltin, hlibrary, hannotations⟩)
  rw [Bool.eq_false_iff]
  intro hvain
  rw [Edits.apply_eq, Bool.eq_false_iff] at h
  apply h
  apply Edits.touches_drop_iff.2
  refine ⟨i, (List.getElem?_eq_some_iff.1 hi).1, ?_⟩
  simp [removes, hvain]

theorem exists_settled (hs : s.balanced = true) :
    ∃ settled, Relation.ReflTransGen Leads s settled ∧ run settled = .ok ⟨settled, false⟩ ∧
      Referenced settled := by
  induction hmeasure : measure s using Nat.strongRecOn generalizing s with
  | ind size ih =>
      obtain ⟨t, ht⟩ := exists_tree hs
      obtain ⟨out, hout, hbalanced⟩ := balanced_run ht
      obtain rfl := Except.ok.inj ((run_eq ht).symm.trans hout)
      obtain ⟨hsame, hless⟩ := Edits.honest_drop (removes s t) s
      cases hchanged : (Edits.apply { drop := removes s t } s).changed with
      | false =>
          refine ⟨s, .refl, ?_, referenced_of_unchanged hchanged⟩
          rw [run_eq ht, ← hchanged]
          exact congrArg (fun code => Except.ok (Outcome.mk code _)) (hsame hchanged)
      | true =>
          have hlt := hless hchanged
          rw [hmeasure] at hlt
          obtain ⟨settled, hreach, hsettled⟩ := ih _ hlt hbalanced rfl
          exact ⟨settled, .head ⟨_, hout, rfl⟩ hreach, hsettled⟩

/-- Unless it is an entry point or its body is provided elsewhere, a function whose definition stays had a
call before the run, or a method of its name had one if it is a method.  That call stays as well, unless
it stood in a body that went.  A run that changes nothing leaves it all referenced, and repeated runs get
there. -/
theorem run_leaves_referenced (hs : s.balanced = true) :
    ∃ t out, ofStream s = .ok t ∧ run s = .ok out ∧
      (∃ kept : Nat → Bool, out.code = (s.zipIdx.filter fun x => kept x.2).map Prod.fst ∧
        ∀ (i : Nat) ins f, s[i]? = some ins → ins.op = .function → ins.function? = some f →
          f.kind ≠ .builtin → f.kind ≠ .library → f.annotations = [] → kept i = true →
          ∃ (k : Nat) (caller : Instruction), s[k]? = some caller ∧ Refers caller f ∧
            (kept k = true ∨
              ∃ j g m, Defines s t j g m ∧ kept j = false ∧ (t.node m).contains k = true)) ∧
      (out.changed = false → Referenced out.code) ∧
      ∃ settled, Relation.ReflTransGen Leads s settled ∧ run settled = .ok ⟨settled, false⟩ ∧
        Referenced settled := by
  obtain ⟨t, ht⟩ := exists_tree hs
  refine ⟨t, _, ht, run_eq ht, ⟨fun i => !removes s t i, code_eq s t, ?_⟩, ?_, exists_settled hs⟩
  · intro i ins f hi hop hf hbuiltin hlibrary hannotations hkept
    simp only [Bool.not_eq_true', Bool.not_eq_false'] at hkept ⊢
    have hvain : isVain s i = false := by
      rw [removes, Bool.or_eq_false_iff] at hkept
      exact hkept.1
    obtain ⟨caller, hcaller, hrefers⟩ :=
      exists_caller hi hop hf (isRemovable_iff.2 ⟨hbuiltin, hlibrary, hannotations⟩) hvain
    obtain ⟨k, hk⟩ := List.mem_iff_getElem?.1 hcaller
    refine ⟨k, caller, hk, hrefers, ?_⟩
    cases hremoved : removes s t k with
    | false => exact .inl rfl
    | true => exact .inr (exists_defines_of_removes ht hk hrefers hremoved)
  · intro hchanged
    rw [(Edits.honest_drop (removes s t) s).1 hchanged]
    exact referenced_of_unchanged hchanged

/-- A function that is called from one that goes only, and a method that shares its name with a called
one. -/
def orphans : Stream :=
  let orphan := procedure "orphan" "orphan" .function []
  let greet := procedure "greet" "greet" .method []
  definition (procedure "relay" "relay" .function []) [Instruction.call none orphan []] ++
    definition orphan [] ++ definition greet [] ++
    definition (procedure "greet2" "greet" .method []) [] ++
    definition (procedure "main" "main" .function ["load"])
      [Instruction.callMethod none greeter.ref greet []]

theorem run_leaves_referenced_orphans :
    orphans.balanced = true ∧
      ∃ t out, ofStream orphans = .ok t ∧ run orphans = .ok out ∧
        (∃ kept : Nat → Bool, out.code = (orphans.zipIdx.filter fun x => kept x.2).map Prod.fst ∧
          ∀ (i : Nat) ins f, orphans[i]? = some ins → ins.op = .function → ins.function? = some f →
            f.kind ≠ .builtin → f.kind ≠ .library → f.annotations = [] → kept i = true →
            ∃ (k : Nat) (caller : Instruction), orphans[k]? = some caller ∧ Refers caller f ∧
              (kept k = true ∨
                ∃ j g m, Defines orphans t j g m ∧ kept j = false ∧ (t.node m).contains k = true)) ∧
        (out.changed = false → Referenced out.code) ∧
        ∃ settled, Relation.ReflTransGen Leads orphans settled ∧ run settled = .ok ⟨settled, false⟩ ∧
          Referenced settled :=
  ⟨by decide, run_leaves_referenced (by decide)⟩

theorem run_leaves_uncalled :
    orphans.balanced = true ∧ ∃ out, run orphans = .ok out ∧
      ∀ f ∈ [procedure "orphan" "orphan" .function [], procedure "greet2" "greet" .method []],
        (∃ ins ∈ out.code, ins.op = .function ∧ ins.function? = some f) ∧ f.kind ≠ .builtin ∧
          f.kind ≠ .library ∧ f.annotations = [] ∧
          ∀ caller ∈ out.code, caller.op = .call ∨ caller.op = .callMethod →
            caller.function? ≠ some f :=
  ⟨by decide, _, rfl, by decide⟩

end Datapack.Optimize.UnusedFunctions
