import Datapack.Command.Template

/-!
# Expressible operations

Which operations have commands.  Over two literals that is decided by evaluation; otherwise the operands
have to be numbers and the result a score, except that any two values can be compared for equality.  A
template can be rendered if its arguments are those of its parameters and it does not object to them.
-/

namespace Datapack.Command

open Ir

/-- Whether an operand can be brought into a score: a slot always, a literal if it is a number. -/
def Operand.isNumeric (o : Operand) : Bool := o.literal?.all (·.int?.isSome)

/-- Whether an operator has an operation on scores behind it, given its right operand: a shift needs a
distance that is known. -/
def worksOnScores (op : BinaryOperator) (r : Operand) : Bool :=
  match op with
  | .shl | .shr => (distance? r).isSome
  | _ => (scoreOp? op).isSome

/-- Whether a binary operation into a space can be expressed. -/
def computes (into : Space) (op : BinaryOperator) (l r : Operand) : Bool :=
  match l, r with
  | .literal a, .literal b =>
    (evalBinary op a b (.data .int)).any fun v => into = .storage || v.int?.isSome
  | _, _ => into = .score && worksOnScores op r && l.isNumeric && r.isNumeric

/-- Whether a comparison can be expressed. -/
def compares (op : CompareOperator) (l r : Operand) : Bool :=
  match l, r with
  | .literal a, .literal b => (evalCompare op a b).isSome
  | _, _ => op.isEquality || (!isStored l && !isStored r)

/-- Whether a unary operation into a space can be expressed. -/
def transforms (into : Space) (op : UnaryOperator) : Operand → Bool
  | .literal a => (evalUnary op a).isSome
  | .slot _ => into = .score

variable {env : Registers}

theorem ok_bind {ε α β : Type} (a : α) (f : α → Except ε β) : (Except.ok a >>= f) = f a := rfl

theorem isOk_bind {ε α β : Type} {x : Except ε α} {f : α → Except ε β} {b : Bool}
    (h : ∀ a, x = .ok a → (f a).isOk = b) : (x >>= f).isOk = (x.isOk && b) := by
  cases x with
  | error u => rfl
  | ok a => exact h a rfl

theorem isOk_store (dst : Slot) (l : Literal) :
    (store dst l).isOk = (dst.space = .storage || l.int?.isSome) := by
  unfold store
  cases dst.space with
  | storage => rfl
  | score => cases l <;> rfl

theorem isOk_assign (dst : Slot) (o : Operand) :
    (assign dst o).isOk = (dst.space = .storage || o.isNumeric) := by
  cases o with
  | literal l => exact isOk_store dst l
  | slot s => exact (Bool.or_true _).symm

theorem isOk_asScore (env : Registers) (o : Operand) : (asScore env o).isOk = o.isNumeric := by
  unfold asScore
  cases o with
  | literal l =>
      change _ = l.int?.isSome
      dsimp only
      split
      · next h =>
        rw [h]
        rfl
      · next n h =>
        rw [h]
        split <;> rfl
  | slot s =>
      dsimp only
      cases s.space <;> rfl

theorem isOk_applyTo (env : Registers) (dst : Slot) (op : BinaryOperator) (sop : ScoreOp) (r : Operand) :
    (applyTo env dst op sop r).isOk = r.isNumeric := by
  unfold applyTo
  split
  · next l => cases l <;> rfl
  · next l => cases l <;> rfl
  · rw [isOk_bind (b := true) fun _ _ => rfl, isOk_asScore, Bool.and_true]

/-- A shift becomes an operation by a number; other operations are left as they are. -/
theorem unshift_cases (op : BinaryOperator) (r : Operand) :
    (∃ u, unshift op r = .error u ∧ worksOnScores op r = false) ∨
      ∃ op' r', unshift op r = .ok (op', r') ∧ (scoreOp? op').isSome = worksOnScores op r ∧
        r'.isNumeric = r.isNumeric := by
  have hshift : ∀ as : BinaryOperator, (scoreOp? as).isSome = true → op = .shl ∨ op = .shr →
      (distance? r = none → unshift op r = .error (.distance op)) →
      (∀ k, distance? r = some k → unshift op r = .ok (as, .literal (.int ((1 : Int64) <<< k)))) →
      (∃ u, unshift op r = .error u ∧ worksOnScores op r = false) ∨
        ∃ op' r', unshift op r = .ok (op', r') ∧ (scoreOp? op').isSome = worksOnScores op r ∧
          r'.isNumeric = r.isNumeric := by
    intro as has hop hnone hsome
    have hworks : worksOnScores op r = (distance? r).isSome := by rcases hop with rfl | rfl <;> rfl
    rw [hworks]
    cases hdistance : distance? r with
    | none => exact .inl ⟨_, hnone hdistance, rfl⟩
    | some k =>
        refine .inr ⟨_, _, hsome k hdistance, has, ?_⟩
        -- a distance is a number
        cases r with
        | slot s => rfl
        | literal l =>
            cases l with
            | str s => cases hdistance
            | null => cases hdistance
            | _ => rfl
  cases op with
  | shl => exact hshift .mul rfl (.inl rfl) (fun h => by simp [unshift, h]) fun k h => by simp [unshift, h]
  | shr => exact hshift .div rfl (.inr rfl) (fun h => by simp [unshift, h]) fun k h => by simp [unshift, h]
  | _ => exact .inr ⟨_, _, rfl, rfl, rfl⟩

theorem isNumeric_untangle (env : Registers) (dst : Slot) (op : BinaryOperator) (l r : Operand) :
    ((untangle env dst op l r).2.1.isNumeric && (untangle env dst op l r).2.2.isNumeric)
      = (l.isNumeric && r.isNumeric) := by
  unfold untangle
  split
  · next h =>
    -- the right operand is the destination, so it is a slot
    obtain ⟨hr, -⟩ := Bool.and_eq_true_iff.1 h
    obtain rfl : r = .slot dst := of_decide_eq_true hr
    split
    · exact Bool.and_comm _ _
    · rfl
  · rfl

theorem computes_of_not_literals {into : Space} {op : BinaryOperator} {l r : Operand}
    (h : ∀ a b, l = .literal a → r = .literal b → False) :
    computes into op l r = (into = .score && worksOnScores op r && l.isNumeric && r.isNumeric) := by
  unfold computes
  split
  · exact (h _ _ rfl rfl).elim
  · rfl

theorem compares_of_not_literals {op : CompareOperator} {l r : Operand}
    (h : ∀ a b, l = .literal a → r = .literal b → False) :
    compares op l r = (op.isEquality || (!isStored l && !isStored r)) := by
  unfold compares
  split
  · exact (h _ _ rfl rfl).elim
  · rfl

theorem isOk_binaryOp (env : Registers) (dst : Slot) (op : BinaryOperator) (l r : Operand) :
    (binaryOp env dst op l r).isOk = computes dst.space op l r := by
  unfold binaryOp
  split
  · next a b =>
    unfold computes
    dsimp only
    cases evalBinary op a b (.data .int) with
    | none => rfl
    | some v => exact isOk_store dst v
  · next hliterals =>
    rw [computes_of_not_literals hliterals]
    split
    · next hspace =>
      rw [hspace]
      rfl
    · next hspace =>
      have hscore : dst.space = .score := by
        cases hs : dst.space with
        | score => rfl
        | storage => exact absurd hs hspace
      simp only [hscore, decide_true, Bool.true_and]
      rcases unshift_cases op r with ⟨u, hunshift, hworks⟩ | ⟨op', r', hunshift, hworks, hnumeric⟩
      · rw [hunshift, hworks]
        rfl
      · rw [hunshift, ← hworks, ← hnumeric, ok_bind]
        dsimp only
        cases scoreOp? op' with
        | none => rfl
        | some sop =>
            change _ = (true && l.isNumeric && r'.isNumeric)
            rw [Bool.true_and, ← isNumeric_untangle env dst op' l r']
            rw [isOk_bind fun first _ => isOk_bind (b := true) fun rest _ => rfl, isOk_assign, isOk_applyTo,
              hscore, Bool.and_true]
            rfl

theorem isOk_compare (env : Registers) (hbuffer : env.buffer.space = .storage) (dst : Slot)
    (op : CompareOperator) (l r : Operand) : (compare env dst op l r).isOk = compares op l r := by
  have hscore : ∀ o, isStored o = false → o.isNumeric = true := by
    intro o h
    cases o with
    | slot s => rfl
    | literal l => cases l <;> first | rfl | cases h
  unfold compare
  split
  · next a b =>
    unfold compares
    dsimp only
    cases hv : evalCompare op a b with
    | none => rfl
    | some v =>
        -- a comparison gives a boolean, which any slot can hold
        obtain ⟨b, -, rfl⟩ := Option.map_eq_some_iff.1 hv
        exact (isOk_store dst _).trans (Bool.or_true _)
  · next hliterals =>
    rw [compares_of_not_literals hliterals]
    split
    · next hstored =>
      have hapart : (!isStored l && !isStored r) = false := by
        rw [← Bool.not_or, hstored]
        rfl
      rw [hapart, Bool.or_false]
      unfold compareStored
      split
      · next heq =>
        rw [heq, isOk_bind (b := true) fun _ _ => rfl, isOk_assign, hbuffer]
        rfl
      · next heq => exact (Bool.eq_false_iff.2 heq).symm
    · next hstored =>
      obtain ⟨hl, hr⟩ := Bool.or_eq_false_iff.1 (Bool.eq_false_iff.2 hstored)
      have hcompare : ∀ op l r, isStored l = false → (compareScore env dst op l r).isOk = true := by
        intro op l r hl
        unfold compareScore
        rw [isOk_bind (b := true) fun _ _ => rfl, isOk_asScore, hscore l hl]
        rfl
      have hapart : (op.isEquality || (!isStored l && !isStored r)) = true := by
        rw [hl, hr]
        exact Bool.or_true _
      rw [hapart]
      split
      · exact hcompare _ _ _ hr
      · exact hcompare _ _ _ hl

theorem isOk_unaryOp (env : Registers) (dst : Slot) (op : UnaryOperator) (o : Operand) :
    (unaryOp env dst op o).isOk = transforms dst.space op o := by
  unfold unaryOp transforms
  cases o with
  | literal a =>
      dsimp only
      cases hv : evalUnary op a with
      | none => rfl
      | some v =>
          -- the value is a number or a boolean, which any slot can hold
          have hnumber : v.int?.isSome = true := by
            cases op with
            | neg =>
                cases a <;> cases hv
                rfl
            | undefined => cases hv
            | _ =>
                obtain ⟨x, -, rfl⟩ := Option.map_eq_some_iff.1 hv
                rfl
          rw [isOk_store, hnumber, Bool.or_true]
          rfl
  | slot s =>
      dsimp only
      cases dst.space <;> rfl

/-! ## Shapes -/

/-- An operand without its place. -/
def Operand.shape : Operand → Operand
  | .literal l => .literal l
  | .slot s => .slot ⟨"", "", s.space⟩

theorem isNumeric_shape (o : Operand) : o.shape.isNumeric = o.isNumeric := by cases o <;> rfl

theorem computes_shape (into : Space) (op : BinaryOperator) (l r : Operand) :
    computes into op l.shape r.shape = computes into op l r := by cases l <;> cases r <;> rfl

theorem compares_shape (op : CompareOperator) (l r : Operand) :
    compares op l.shape r.shape = compares op l r := by cases l <;> cases r <;> rfl

theorem transforms_shape (into : Space) (op : UnaryOperator) (o : Operand) :
    transforms into op o.shape = transforms into op o := by cases o <;> rfl

/-! ## Templates -/

namespace Template

/-- What is known of a parameter: the text of its argument, or its default. -/
def known? (t : Template) (args : List (String × TemplateArg)) (p : String) : Option String :=
  match args.lookup p with
  | some a => a.text?
  | none => t.defaults.lookup p

/-- The texts known of the parameters. -/
def known (t : Template) (args : List (String × TemplateArg)) : List (String × String) :=
  t.params.filterMap fun p => (t.known? args p).map (p, ·)

def hasValue (t : Template) (args : List (String × TemplateArg)) (p : String) : Bool :=
  (args.lookup p).isSome || (t.defaults.lookup p).isSome

def takes (t : Template) (args : List (String × TemplateArg)) : Bool :=
  args.all (·.1 ∈ t.params) && t.params.all (t.hasValue args) && (t.objection (t.known args)).isNone

end Template

theorem all_fst_iff {β : Type} {P : String → Prop} [DecidablePred P] {xs : List (String × β)} :
    xs.all (fun x => P x.1) = true ↔ ∀ p, (xs.lookup p).isSome = true → P p := by
  simp only [List.all_eq_true, decide_eq_true_eq, List.lookup_isSome_iff, beq_iff_eq]
  constructor
  · rintro h _ ⟨x, hx, rfl⟩
    exact h x hx
  · exact fun h x hx => h x.1 ⟨x, hx, rfl⟩

section Congruence

variable {t : Template} {args args' : List (String × TemplateArg)}

theorem all_params_congr (h : ∀ p, (args.lookup p).isSome = (args'.lookup p).isSome) :
    args.all (·.1 ∈ t.params) = args'.all (·.1 ∈ t.params) := by
  rw [Bool.eq_iff_iff, all_fst_iff, all_fst_iff]
  simp only [h]

theorem hasValue_congr (h : ∀ p, (args.lookup p).isSome = (args'.lookup p).isSome) :
    t.hasValue args = t.hasValue args' := by
  funext p
  rw [Template.hasValue, h, Template.hasValue]

/-- Of arguments for the same parameters a template only asks that it has no objection to them. -/
theorem takes_of_takes (h : ∀ p, (args.lookup p).isSome = (args'.lookup p).isSome)
    (htakes : t.takes args = true) : t.takes args' = (t.objection (t.known args')).isNone := by
  simp only [Template.takes, Bool.and_eq_true] at htakes
  rw [Template.takes, ← all_params_congr h, ← hasValue_congr h, htakes.1.1, htakes.1.2]
  rfl

/-- What a template asks of its arguments is what is known of each parameter. -/
theorem takes_congr (h : ∀ p, (args.lookup p).map (·.text?) = (args'.lookup p).map (·.text?)) :
    t.takes args = t.takes args' := by
  have hsome : ∀ p, (args.lookup p).isSome = (args'.lookup p).isSome := by
    intro p
    rw [← Option.isSome_map, h, Option.isSome_map]
  have hknown : t.known? args = t.known? args' := by
    funext p
    have hp := h p
    unfold Template.known?
    cases hlookup : args.lookup p with
    | none => rw [hlookup, Option.map_none, eq_comm, Option.map_eq_none_iff] at hp; rw [hp]
    | some a =>
        rw [hlookup, Option.map_some] at hp
        obtain ⟨a', ha', htext⟩ := Option.map_eq_some_iff.1 hp.symm
        rw [ha']
        exact htext.symm
  rw [Template.takes, Template.takes, all_params_congr hsome, hasValue_congr hsome, Template.known,
    Template.known, hknown]

end Congruence

theorem bind_cases (t : Template) (args : List (String × TemplateArg)) (ps : List String) :
    (ps.all (t.hasValue args) = false ∧ ∃ e, Renderer.bind t args ps = .error e) ∨
      (ps.all (t.hasValue args) = true ∧ ∃ bound, Renderer.bind t args ps = .ok bound ∧
        (bound.filterMap fun (p, a) => a.text?.map (p, ·))
          = ps.filterMap fun p => (t.known? args p).map (p, ·)) := by
  induction ps with
  | nil => exact .inr ⟨rfl, [], rfl, rfl⟩
  | cons p ps ih =>
      have hcons : ∀ a, t.hasValue args p = true →
          Renderer.bind t args (p :: ps) = (Renderer.bind t args ps).map ((p, a) :: ·) →
          t.known? args p = a.text? →
          ((p :: ps).all (t.hasValue args) = false ∧ ∃ e, Renderer.bind t args (p :: ps) = .error e) ∨
            ((p :: ps).all (t.hasValue args) = true ∧ ∃ bound, Renderer.bind t args (p :: ps) = .ok bound ∧
              (bound.filterMap fun (p, a) => a.text?.map (p, ·))
                = (p :: ps).filterMap fun p => (t.known? args p).map (p, ·)) := by
        intro a hvalue hbind hknown
        rw [hbind, List.all_cons, hvalue, Bool.true_and, List.filterMap_cons, hknown]
        rcases ih with ⟨hall, e, he⟩ | ⟨hall, bound, hbound, htexts⟩
        · exact .inl ⟨hall, e, by rw [he]; rfl⟩
        · refine .inr ⟨hall, (p, a) :: bound, by rw [hbound]; rfl, ?_⟩
          rw [List.filterMap_cons, htexts]
      cases hlookup : args.lookup p with
      | some a =>
          refine hcons a ?_ ?_ ?_
          · rw [Template.hasValue, hlookup]
            rfl
          · rw [Renderer.bind, hlookup]
          · rw [Template.known?, hlookup]
      | none =>
          cases hdefault : t.defaults.lookup p with
          | some d =>
              refine hcons (.known d) ?_ ?_ ?_
              · rw [Template.hasValue, hdefault]
                exact Bool.or_true _
              · simp only [Renderer.bind, hlookup, hdefault]
              · simp only [Template.known?, hlookup, hdefault]
                rfl
          | none =>
              refine .inl ⟨?_, .missingParam t.name p, by simp only [Renderer.bind, hlookup, hdefault]⟩
              rw [List.all_cons, Template.hasValue, hlookup, hdefault]
              rfl

theorem isOk_render (r : Renderer) (id name : String) (args : List (String × TemplateArg)) :
    (r.render id name args).isOk = (r.templates.find? (·.name = name)).any (·.takes args) := by
  unfold Renderer.render
  cases r.templates.find? (·.name = name) with
  | none => rfl
  | some t =>
      change _ = t.takes args
      unfold Template.takes
      dsimp only
      split
      · next p _ hfind =>
        have hall : args.all (·.1 ∈ t.params) = false := by
          rw [List.all_eq_false]
          exact ⟨_, List.mem_of_find?_eq_some hfind, by simpa using List.find?_some hfind⟩
        rw [hall]
        rfl
      · next hfind =>
        have hall : args.all (·.1 ∈ t.params) = true := by simpa using hfind
        rw [hall, Bool.true_and]
        rcases bind_cases t args t.params with ⟨hvalues, e, hbind⟩ | ⟨hvalues, bound, hbind, hknown⟩
        · rw [hvalues, hbind]
          rfl
        · rw [hvalues, hbind, Bool.true_and, Template.known, ← hknown]
          rw [ok_bind]
          cases t.objection _ with
          | some objection => rfl
          | none =>
              dsimp only
              split <;> rfl

end Datapack.Command
