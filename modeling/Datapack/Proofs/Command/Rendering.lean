import Datapack.Proofs.Command.Copying
import Datapack.Proofs.Command.Macro
import Datapack.Proofs.Command.Template

/-!
# Rendered templates

A template whose arguments are all known is rendered as one line.  Otherwise every argument is put into an
entry of a compound, and a macro function fills the line from it.  A parameter that stands in the line is a
key, so its entry keeps its value while the other entries are made; the macro function then spells the same
line, and runs it in a state that differs from the first one in the compound alone.
-/

namespace Datapack.Command

open Ir

/-! ## Assignments -/

def Data.shown? : Data → Option String
  | number n => some (toString n.toInt)
  | text s => some s
  | compound _ => none

/-- An argument stands for a text: it is that text, or it is held in a slot as the text or as the integer
with that decimal form. -/
def TemplateArg.Shows (M : Memory) (y : String) : TemplateArg → Prop
  | known y' => y' = y
  | runtime s => ∃ v, M.value? s = some v ∧ v.shown? = some y

/-- Arguments that give the texts `x` to the parameters of a template, those that are left out by their
defaults. What is held in slots lies outside the compound that is made for the template. -/
structure Template.Assigns (t : Template) (M : Memory) (root : Slot) (args : List (String × TemplateArg))
    (x : String → String) : Prop where
  declared : ∀ a ∈ args, a.1 ∈ t.params
  shows : ∀ p ∈ t.params, ∀ a, args.lookup p = some a → a.Shows M (x p)
  defaults : ∀ p ∈ t.params, args.lookup p = none → t.defaults.lookup p = some (x p)
  apart : ∀ p ∈ t.params, ∀ s, args.lookup p = some (.runtime s) → ¬root.Overlaps s

/-- The argument of a parameter; a default is known. -/
def argOf (args : List (String × TemplateArg)) (x : String → String) (p : String) : TemplateArg :=
  (args.lookup p).getD (.known (x p))

/-- The parameters whose texts are known at compile time. -/
def Template.knownParams (t : Template) (args : List (String × TemplateArg)) : List String :=
  t.params.filter fun p => (args.lookup p).all (·.text?.isSome)

variable {r : Renderer} {t : Template} {M : Memory} {root : Slot} {args : List (String × TemplateArg)}
  {x : String → String} {p : String}

theorem lookup_map_mk {ps : List String} (hp : p ∈ ps) {α : Type} (f : String → α) :
    (ps.map fun p => (p, f p)).lookup p = some (f p) := by
  induction ps with
  | nil => cases hp
  | cons q ps ih =>
      by_cases heq : p = q
      · simp [heq]
      · have hrest := ih ((List.mem_cons.1 hp).resolve_left heq)
        have hbeq : (p == q) = false := beq_false_of_ne heq
        rw [List.map_cons, List.lookup_cons, hbeq]
        exact hrest

theorem isSome_text?_argOf : (argOf args x p).text?.isSome = (args.lookup p).all (·.text?.isSome) := by
  unfold argOf
  cases args.lookup p <;> rfl

namespace Template.Assigns

variable (h : t.Assigns M root args x)

include h

theorem shows_argOf (hp : p ∈ t.params) : (argOf args x p).Shows M (x p) := by
  unfold argOf
  cases hlookup : args.lookup p with
  | none => rfl
  | some a => exact h.shows p hp a hlookup

theorem apart_argOf (hp : p ∈ t.params) {s : Slot} (hs : argOf args x p = .runtime s) : ¬root.Overlaps s := by
  unfold argOf at hs
  cases hlookup : args.lookup p with
  | none =>
      rw [hlookup] at hs
      cases hs
  | some a =>
      rw [hlookup, Option.getD_some] at hs
      exact h.apart p hp s (hs ▸ hlookup)

theorem bind_eq {ps : List String} (hps : ps ⊆ t.params) :
    Renderer.bind t args ps = .ok (ps.map fun p => (p, argOf args x p)) := by
  induction ps with
  | nil => rfl
  | cons p ps ih =>
      have hrest := ih fun q hq => hps (List.mem_cons_of_mem p hq)
      have hp : p ∈ t.params := hps List.mem_cons_self
      rw [Renderer.bind]
      cases hlookup : args.lookup p with
      | none => simp [h.defaults p hp hlookup, hrest, argOf, hlookup, Except.map]
      | some a => simp [hrest, argOf, hlookup, Except.map]

theorem known_eq :
    (t.params.map fun p => (p, argOf args x p)).filterMap (fun (p, a) => a.text?.map (p, ·)) =
      (t.knownParams args).map fun p => (p, x p) := by
  have hparams : ∀ ps ⊆ t.params,
      (ps.map fun p => (p, argOf args x p)).filterMap (fun (p, a) => a.text?.map (p, ·)) =
        (ps.filter fun p => (args.lookup p).all (·.text?.isSome)).map fun p => (p, x p) := by
    intro ps hps
    induction ps with
    | nil => rfl
    | cons p ps ih =>
        have hrest := ih fun q hq => hps (List.mem_cons_of_mem p hq)
        have hshows := h.shows_argOf (hps List.mem_cons_self)
        rw [List.map_cons, List.filterMap_cons, hrest, List.filter_cons, ← isSome_text?_argOf (x := x)]
        cases harg : argOf args x p with
        | known y =>
            rw [harg] at hshows
            obtain rfl : y = x p := hshows
            rfl
        | runtime s => rfl
  exact hparams t.params (List.Subset.refl _)

theorem render_eq (hregistered : r.templates.Registered) (ht : t ∈ r.templates) (id : String)
    (hknown : t.objection ((t.knownParams args).map fun p => (p, x p)) = none) :
    r.render id t.name args =
      .ok (if t.knownParams args = t.params then { commands := [.line (t.expand x)] }
        else r.viaMacro t id (t.params.map fun p => (p, argOf args x p))) := by
  have hfind : r.templates.find? (·.name = t.name) = some t := hregistered.find?_eq ht
  have hdeclared : args.find? (·.1 ∉ t.params) = none := by
    simpa using fun p a => h.declared (p, a)
  have hall : (t.params.map fun p => (p, argOf args x p)).all (·.2.text?.isSome) = true ↔
      t.knownParams args = t.params := by
    rw [Template.knownParams, List.filter_eq_self, List.all_map, List.all_eq_true]
    simp only [Function.comp_apply, isSome_text?_argOf]
  unfold Renderer.render
  simp only [hfind, hdeclared, h.bind_eq (List.Subset.refl _), bind, Except.bind, h.known_eq, hknown, hall]
  by_cases hinline : t.knownParams args = t.params
  · have hline : t.substitute (t.params.map fun p => (p, x p)) = t.expand x :=
      substitute_eq_expand fun name hname => lookup_map_mk (hregistered.declared ht name hname) x
    rw [if_pos hinline, if_pos hinline, hinline, hline]
    rfl
  · rw [if_neg hinline, if_neg hinline]
    rfl

end Template.Assigns

/-! ## The compound of the arguments -/

namespace TemplateArg

/-- The argument as what an assignment reads. -/
def operand : TemplateArg → Operand
  | known y => .literal (.str y)
  | runtime s => .slot s

theorem exists_given {a : TemplateArg} {y : String} (h : a.Shows M y) :
    ∃ v, M.given? a.operand = some v ∧ v.shown? = some y := by
  cases a with
  | known y' => exact ⟨.text y', rfl, congrArg some h⟩
  | runtime s => exact h

theorem assign_eq_stage (root : Slot) (hroot : root.space = .storage) (p : String) (a : TemplateArg) :
    assign (root.child p) a.operand = .ok (Renderer.stage root (p, a)) := by
  have hspace : (root.child p).space = .storage := hroot
  cases a with
  | known y => simp [assign, operand, store, hspace, Renderer.stage]
  | runtime s => rfl

end TemplateArg

/-- What has come of a state after entries for some parameters have been made in a compound: beside it all is
as before, it can be extended, and entries for keys hold their texts. -/
structure Staged (M : Memory) (root : Slot) (x : String → String) (ps : List String) (N : Memory) : Prop where
  scores : N.scores = M.scores
  frame : ∀ s, ¬root.Overlaps s → N.value? s = M.value? s
  opens : (N.data root.target).Opens root.keys
  compound : ps ≠ [] → ∃ es, N.data? root = some (.compound es)
  entries : ∀ p ∈ ps, '.' ∉ p.toList → ∃ v, N.data? (root.child p) = some v ∧ v.shown? = some (x p)

theorem Data.not_compound_of_shown {v : Data} {y : String} (h : v.shown? = some y) (es : String → Option Data) :
    v ≠ .compound es := by
  rintro rfl
  cases h

theorem Game.textOf_of_shown (G : Game) {v : Data} {y : String} (h : v.shown? = some y) : G.textOf v = y := by
  cases v with
  | compound es => cases h
  | _ => exact Option.some.inj h

theorem eq_of_split_eq_singleton {q : String} (h : Text.split '.' p = [q]) : p = q := by
  rw [← Text.intercalate_split Generation.toList_dot p, h, String.intercalate_singleton]

namespace Staged

variable {N : Memory} {ps : List String} {v : Data} (hroot : root.space = .storage)

include hroot

/-- An entry for a key keeps its text when another entry is made. An entry inside it cannot be made. -/
theorem data?_set_of_ne {q : String} {w : Data} (hq : '.' ∉ q.toList) (hne : q ≠ p)
    (hw : N.data? (root.child q) = some w) (hshown : w.shown? = some (x q)) :
    (N.set (root.child p) v).data? (root.child q) = some w := by
  by_cases hinside : [q] <+: Text.split '.' p
  · obtain ⟨ls, hls⟩ := hinside
    have hlonger : ls ≠ [] := by
      rintro rfl
      exact hne (eq_of_split_eq_singleton hls.symm).symm
    refine Memory.data?_set_below_leaf hw (Data.not_compound_of_shown hshown) hlonger rfl ?_
    rw [root.keys_child_split, ← hls, root.keys_child hq, List.append_assoc]
  · have happart : ¬(root.child p).Overlaps (root.child q) := by
      rw [Slot.overlaps_storage_iff (s := root.child p) (t := root.child q) hroot hroot, root.keys_child_split,
        root.keys_child hq, List.prefix_append_right_inj, List.prefix_append_right_inj]
      rintro ⟨-, hpre | hpre⟩
      · have hsingle := hpre.eq_of_length_le (List.length_pos_of_ne_nil (Slot.split_ne_nil p))
        exact hne (eq_of_split_eq_singleton hsingle).symm
      · exact hinside hpre
    rw [Memory.data?_set_of_not_overlaps (s := root.child p) (t := root.child q) hroot hroot happart, hw]

theorem set (h : Staged M root x ps N) (hv : v.shown? = some (x p)) :
    Staged M root x (p :: ps) (N.set (root.child p) v) where
  scores := h.scores
  frame s hs := by
    have hspace : (root.child p).space = .storage := hroot
    have happart : ¬(root.child p).Overlaps s := Slot.not_overlaps_of_not_overlaps hroot hs p
    rw [Memory.value?_set hspace happart, h.frame s hs]
  opens := Memory.opens_set_child h.opens v
  compound _ := Memory.exists_compound_set_child h.opens
  entries q hq hdot := by
    by_cases heq : q = p
    · subst heq
      exact ⟨v, Memory.data?_set_self (Memory.admits_child hdot h.opens) v, hv⟩
    · obtain ⟨w, hw, hshown⟩ := h.entries q ((List.mem_cons.1 hq).resolve_left heq) hdot
      exact ⟨w, data?_set_of_ne hroot hdot heq hw hshown, hshown⟩

/-- Making an entry for an argument. -/
theorem exists_stage (h : Staged M root x ps N) {a : TemplateArg} (hshows : a.Shows M (x p))
    (happart : ∀ s, a = .runtime s → ¬root.Overlaps s) :
    ∃ N', Staged M root x (p :: ps) N' ∧
      ∀ (G : Game) rest U, Runs G (Renderer.stage root (p, a) ++ rest) N U ↔ Runs G rest N' U := by
  have hspace : (root.child p).space = .storage := hroot
  have hgiven : N.given? a.operand = M.given? a.operand := by
    cases a with
    | known y => rfl
    | runtime s => exact h.frame s (happart s rfl)
  have hne : a.operand ≠ .slot (root.child p) := by
    cases a with
    | known y => simp [TemplateArg.operand]
    | runtime s =>
        -- the entry itself lies inside the compound
        intro heq
        cases heq
        refine happart _ rfl ((Slot.overlaps_storage_iff hroot hspace).2 ⟨rfl, .inl ?_⟩)
        rw [root.keys_child_split]
        exact List.prefix_append _ _
  obtain ⟨v, hv, hshown⟩ := TemplateArg.exists_given hshows
  obtain ⟨cs, hcs, hruns⟩ := assign_runs hspace (hgiven.trans hv) hne
  cases (TemplateArg.assign_eq_stage root hroot p a).symm.trans hcs
  exact ⟨_, h.set hroot hshown, hruns⟩

/-- Making the entries for a list of arguments. -/
theorem exists_stages (h : Staged M root x ps N) {f : String → TemplateArg} {qs : List String}
    (hshows : ∀ q ∈ qs, (f q).Shows M (x q)) (happart : ∀ q ∈ qs, ∀ s, f q = .runtime s → ¬root.Overlaps s) :
    ∃ S, Staged M root x (qs.reverse ++ ps) S ∧
      ∀ (G : Game) rest U,
        Runs G ((qs.map fun q => (q, f q)).flatMap (Renderer.stage root) ++ rest) N U ↔ Runs G rest S U := by
  induction qs generalizing ps N with
  | nil => exact ⟨N, h, fun _ _ _ => Iff.rfl⟩
  | cons q qs ih =>
      obtain ⟨N', hN', hfirst⟩ := h.exists_stage hroot (hshows q List.mem_cons_self) (happart q List.mem_cons_self)
      obtain ⟨S, hS, hrest⟩ := ih hN' (fun p hp => hshows p (List.mem_cons_of_mem q hp))
        fun p hp => happart p (List.mem_cons_of_mem q hp)
      refine ⟨S, by simpa using hS, fun G rest U => ?_⟩
      rw [List.map_cons, List.flatMap_cons, List.append_assoc, hfirst, hrest]

omit hroot in
/-- The macro function spells the line from the entries. -/
theorem instantiate_eq (h : Staged M root x ps N) (hne : ps ≠ []) (hparams : ∀ name ∈ t.placeholders, name ∈ ps)
    {G : Game} (hreads : G.reads (t.expand x) = some (.line (t.expand x))) :
    G.instantiate (N.data? root) [.template t.line] = some [.line (t.expand x)] := by
  obtain ⟨es, hes⟩ := h.compound hne
  have htexts : ∀ name ∈ t.placeholders, (es name).map G.textOf = some (x name) := by
    intro name hname
    have hdot := (isKey_of_mem_pieces (mem_placeholders_iff.1 hname)).dot_not_mem
    obtain ⟨v, hv, hshown⟩ := h.entries name (hparams name hname) hdot
    obtain ⟨es', hes', hentry⟩ := Memory.exists_entries hdot hv
    obtain rfl : es' = es := by
      cases hes'.symm.trans hes
      rfl
    rw [hentry, Option.map_some, G.textOf_of_shown hshown]
  simp [Game.instantiate, hes, fill_eq_expand htexts, hreads]

end Staged

variable {G : Game} {U : Memory}

theorem runs_line_iff (line : String) : Runs G [.line line] M U ↔ G.other (.line line) M U := by
  rw [runs_other_iff rfl rfl]
  simp only [runs_nil_iff, exists_eq_right']

theorem runs_removeData_iff {s : Slot} : Runs G [.removeData s] M U ↔ U = M.removed s := by
  rw [runs_plain_iff (N := M.removed s) rfl, runs_nil_iff]

/-- A text is put between quotes, where the game reads it as itself. -/
theorem reads_text_setData {s : Slot} (h : G.ReadsInto s) (y : String) :
    G.reads (Command.setData s (.str y)).text = some (.setData s (.str y)) := by
  obtain ⟨rest, hrest⟩ : ∃ rest, dataText y = "\"" ++ rest :=
    ⟨String.ofList (quoteChars y.toList ++ ['"']), String.toList_inj.1 (by simp [dataText])⟩
  have hopening : ∀ front : String, front ++ " set value " ++ ("\"" ++ rest) = front ++ " set value \"" ++ rest := by
    intro front
    rw [show " set value \"" = " set value " ++ "\"" from rfl]
    simp only [String.append_assoc]
  have hline : (Command.setData s (.str y)).text =
      "data modify storage " ++ s.target ++ " " ++ s.path ++ " set value " ++ dataText y := rfl
  rw [hline, hrest, hopening, h rest, ← hrest, readText_dataText, Option.map_some]

/-- The compound in which a template finds its arguments. -/
def Renderer.compound (r : Renderer) (id : String) : Slot := .storage r.storage ("args." ++ id)

/-- The commands of a macro function fill the compound, run the line once and take the compound away. -/
theorem Template.Assigns.runs_viaMacro_iff {id : String} (h : t.Assigns M (r.compound id) args x)
    (hopen : (M.data r.storage).Opens (r.compound id).keys) (hparams : t.params ≠ [])
    (hdeclared : ∀ name ∈ t.placeholders, name ∈ t.params) :
    ∃ S : Memory, (S.scores = M.scores ∧ ∀ s, ¬(r.compound id).Overlaps s → S.value? s = M.value? s) ∧
      ∀ G : Game, G.reads (t.expand x) = some (.line (t.expand x)) →
        G.functions (r.ns ++ ":" ++ (r.directory ++ "/" ++ t.name)) = some [.template t.line] →
        ∀ U, Runs G (r.viaMacro t id (t.params.map fun p => (p, argOf args x p))).commands M U ↔
          ∃ N, G.other (.line (t.expand x)) S N ∧ U = N.removed (r.compound id) := by
  have hstart : Staged M (r.compound id) x [] M :=
    ⟨rfl, fun _ _ => rfl, hopen, fun hne => absurd rfl hne, List.forall_mem_nil _⟩
  obtain ⟨S, hS, hruns⟩ := hstart.exists_stages rfl (fun p hp => h.shows_argOf hp) fun p hp s => h.apart_argOf hp
  rw [List.append_nil] at hS
  refine ⟨S, ⟨hS.scores, hS.frame⟩, fun G hreads hf U => ?_⟩
  have hinstance : G.instantiate (S.data? (r.compound id)) [.template t.line] = some [.line (t.expand x)] :=
    hS.instantiate_eq (by simpa using hparams) (fun name hname => List.mem_reverse.2 (hdeclared name hname)) hreads
  have hcommands : (r.viaMacro t id (t.params.map fun p => (p, argOf args x p))).commands =
      (t.params.map fun p => (p, argOf args x p)).flatMap (Renderer.stage (r.compound id)) ++
        [.callWith (r.ns ++ ":" ++ (r.directory ++ "/" ++ t.name)) (r.compound id), .removeData (r.compound id)] := rfl
  rw [hcommands, hruns, runs_callWith_iff hf]
  simp only [hinstance, Option.some.injEq, exists_eq_left', reduceCtorEq, false_and, or_false, runs_line_iff,
    runs_removeData_iff]

/-- A registered template is rendered for every assignment its check accepts, and what is rendered runs the
one line in which each placeholder has given way to the text of its parameter. That is so whichever of the
texts are held in slots: their line is spelled by a macro function, in a state that differs from the first
one in the compound of the arguments alone, and the compound is taken away afterwards. -/
theorem render_runs_expansion {r : Renderer} {t : Template} {args : List (String × TemplateArg)}
    {x : String → String} {M : Memory} {id : String} (hregistered : r.templates.Registered) (ht : t ∈ r.templates)
    (hargs : t.Assigns M (r.compound id) args x)
    (hwhole : t.objection (t.params.map fun p => (p, x p)) = none)
    (hknown : t.objection ((t.knownParams args).map fun p => (p, x p)) = none)
    (hopen : (M.data r.storage).Opens (r.compound id).keys) :
    let line := t.substitute (t.params.map fun p => (p, x p))
    Expands x t.line.toList line.toList ∧
      r.render id t.name (t.params.map fun p => (p, .known (x p))) = .ok { commands := [.line line] } ∧
      ∃ R, r.render id t.name args = .ok R ∧
        (t.knownParams args = t.params → R = { commands := [.line line] }) ∧
        (∀ s y, .setData s (.str y) ∈ R.commands → ∀ G : Game, G.ReadsInto s →
          G.reads (Command.setData s (.str y)).text = some (.setData s (.str y))) ∧
        (∀ (G : Game) U, Runs G [.line line] M U ↔ G.other (.line line) M U) ∧
        (t.knownParams args ≠ t.params →
          ∃ S : Memory, (S.scores = M.scores ∧ ∀ s, ¬(r.compound id).Overlaps s → S.value? s = M.value? s) ∧
            ∀ G : Game, G.reads line = some (.line line) →
              (∀ path body, R.helper = some (path, body) → G.functions (r.ns ++ ":" ++ path) = some body) →
              ∀ U, Runs G R.commands M U ↔ ∃ N, G.other (.line line) S N ∧ U = N.removed (r.compound id)) ∧
        ∀ N : Memory, (N.removed (r.compound id)).data? (r.compound id) = none ∧
          (N.removed (r.compound id)).scores = N.scores ∧
          ∀ s, ¬(r.compound id).Overlaps s → (N.removed (r.compound id)).value? s = N.value? s := by
  intro line
  have hline : line = t.expand x :=
    substitute_eq_expand fun name hname => lookup_map_mk (hregistered.declared ht name hname) x
  have hfixed : t.Assigns M (r.compound id) (t.params.map fun p => (p, .known (x p))) x := by
    refine ⟨fun a ha => ?_, fun p hp a ha => ?_, fun p hp hnone => ?_, fun p hp s hs => ?_⟩
    · obtain ⟨p, hp, rfl⟩ := List.mem_map.1 ha
      exact hp
    · cases (lookup_map_mk hp _).symm.trans ha
      rfl
    · cases (lookup_map_mk hp _).symm.trans hnone
    · cases (lookup_map_mk hp _).symm.trans hs
  have hall : t.knownParams (t.params.map fun p => (p, .known (x p))) = t.params := by
    refine List.filter_eq_self.2 fun p hp => ?_
    rw [lookup_map_mk hp]
    rfl
  rw [hline]
  refine ⟨?_, ?_, _, hargs.render_eq hregistered ht id hknown, fun hinline => if_pos hinline,
    fun s y _ G hreads => reads_text_setData hreads y, fun G U => runs_line_iff _, fun hmacro => ?_, fun N => ?_⟩
  · rw [Template.expand, String.toList_ofList]
    exact expands_pieces x t.line.toList
  · rw [hfixed.render_eq hregistered ht id (hall.symm ▸ hwhole), if_pos hall]
  · have hparams : t.params ≠ [] := by
      intro hnil
      rw [Template.knownParams, hnil] at hmacro
      exact hmacro rfl
    obtain ⟨S, hS, hruns⟩ := hargs.runs_viaMacro_iff hopen hparams (hregistered.declared ht)
    rw [if_neg hmacro]
    exact ⟨S, hS, fun G hreads hhelper => hruns G hreads (hhelper _ _ rfl)⟩
  · exact ⟨N.data?_removed_self _, rfl, fun s hs => Memory.value?_removed rfl hs⟩

/-- A template with a placeholder that stands twice, one that only looks like a placeholder, and a default. -/
def echoTemplate : Template where
  name := "echo"
  line := "say $(text)$(text) $(Text) $(count)$(mark"
  required := ["text", "count"]
  defaults := [("mark", "!")]

/-- A score, and a text with quotes, a backslash and a placeholder of its own. -/
def echoMemory : Memory where
  scores s := if s = .score "#n" "vars" then some (-3) else none
  data id :=
    if id = "pack:data" then .compound fun key => if key = "s" then some (.text "\"\\$(count)\"") else none
    else .empty

/-- A game that writes down the commands it runs. -/
def echoGame : Game where
  functions f := if f = "pack:macro/echo" then some [.template echoTemplate.line] else none
  reads line := some (.line line)
  spells _ := ""
  other c M N := N = M.set (.storage "pack:log" "line") (.text c.text)

theorem render_runs_expansion_echo :
    let r : Renderer := { templates := [echoTemplate], ns := "pack", storage := "pack:args", directory := "macro" }
    let args : List (String × TemplateArg) :=
      [("count", .runtime (.score "#n" "vars")), ("text", .runtime (.storage "pack:data" "s"))]
    ∃ (R : Rendering) (S : Memory), r.render "01" "echo" args = .ok R ∧
      ∀ U, Runs echoGame R.commands echoMemory U ↔
        U = (S.set (.storage "pack:log" "line") (.text "say \"\\$(count)\"\"\\$(count)\" $(Text) -3$(mark")).removed
          (r.compound "01") := by
  intro r args
  let x : String → String := fun p => if p = "text" then "\"\\$(count)\"" else if p = "count" then "-3" else "!"
  have hplaceholders : echoTemplate.placeholders = ["text", "text", "count"] := by decide +kernel
  have hregister : Templates.register [] echoTemplate = .ok [echoTemplate] := by
    refine register_eq_ok_iff.2 ⟨?_, List.forall_mem_nil _, rfl⟩
    rw [hplaceholders]
    decide
  have hparams : ∀ p ∈ echoTemplate.params, p = "text" ∨ p = "count" ∨ p = "mark" := by decide
  have hassigns : echoTemplate.Assigns echoMemory (r.compound "01") args x := by
    refine ⟨by decide, fun p hp a ha => ?_, by decide, fun p hp s hs => ?_⟩
    · rcases hparams p hp with rfl | rfl | rfl
      · cases (show some (TemplateArg.runtime (.storage "pack:data" "s")) = some a from ha)
        exact ⟨.text "\"\\$(count)\"", rfl, rfl⟩
      · cases (show some (TemplateArg.runtime (.score "#n" "vars")) = some a from ha)
        exact ⟨.number (-3), rfl, rfl⟩
      · cases ha
    · rcases hparams p hp with rfl | rfl | rfl
      · cases (show some (TemplateArg.runtime (.storage "pack:data" "s")) = some (.runtime s) from hs)
        exact fun hoverlap => absurd hoverlap.2.1 (by decide)
      · cases (show some (TemplateArg.runtime (.score "#n" "vars")) = some (.runtime s) from hs)
        exact fun hoverlap => absurd hoverlap.1 (by decide)
      · cases hs
  have hline : echoTemplate.substitute (echoTemplate.params.map fun p => (p, x p)) =
      "say \"\\$(count)\"\"\\$(count)\" $(Text) -3$(mark" := by decide +kernel
  have hmacro : r.render "01" "echo" args =
      .ok (r.viaMacro echoTemplate "01" (echoTemplate.params.map fun p => (p, argOf args x p))) := rfl
  have hregistered : Templates.Registered r.templates := .register .nil hregister
  have hopen : (echoMemory.data r.storage).Opens (r.compound "01").keys := Data.opens_empty _
  obtain ⟨-, -, R, hrender, -, -, -, hruns, -⟩ :=
    render_runs_expansion hregistered (List.mem_singleton_self echoTemplate) hassigns rfl rfl hopen
  obtain ⟨S, -, hS⟩ := hruns (by decide)
  obtain rfl := Except.ok.inj (hrender.symm.trans hmacro)
  refine ⟨_, S, hrender, fun U => ?_⟩
  rw [hS echoGame rfl (fun path body hhelper => by cases hhelper; rfl), hline]
  exact exists_eq_left

end Datapack.Command
