import Datapack.Proofs.Generation.Marks
import Mathlib.Tactic.IntervalCases

/-!
# Signals between frames

`Exits g n flag` reads off the commands of a finished generation that the function of region `n` may come
back with a flag raised.  Where jumps lead into regions right inside that lie before, and no loop is left
from its own level, every call behind which that may happen is followed by a check of the flag.
-/

namespace Datapack.Generation

open Ir Command

/-! ## Disciplined streams -/

/-- A region that stands right inside the region of an instruction and lies before it. -/
def LiesInside (t : ScopeTree) (i n : Nat) : Prop :=
  (t.node n).parent? = some (t.enclosingAt i) ∧ (t.node n).last < i

/-- Jumps lead outwards or into regions right inside that lie before; conditional jumps only into the
latter.  No loop is left from its own level. -/
structure Disciplined (s : Stream) (t : ScopeTree) : Prop where
  jump : ∀ (i : Nat) (ins : Instruction), s[i]? = some ins → ins.op = .jump → ∀ n,
    t.resolve (t.enclosingAt i) ins.jumpTarget = some n →
      n ∈ t.ancestors (t.enclosingAt i) ∨ LiesInside t i n
  condJump : ∀ (i : Nat) (ins : Instruction), s[i]? = some ins → ins.op = .condJump →
    ∀ x ∈ [ins.onTrue, ins.onFalse], x ≠ "" → ∀ n, t.resolve (t.enclosingAt i) x = some n →
      LiesInside t i n
  breakLoop : ∀ (i : Nat) (ins : Instruction), s[i]? = some ins → ins.op = .breakLoop →
    (t.node (t.enclosingAt i)).kind ≠ .loop

/-! ## The walk keeps the marks -/

section Walk

variable {g₀ g g' : Generation} {p : Program} {t : ScopeTree} {pre post : Stream} {ins : Instruction}

theorem Starts.consistent (h : Starts t g) : Consistent g := by
  have hempty : ∀ n, g.commandsAt n = [] ∧ g.flagsAt n = [] := by
    intro n
    by_cases hn : n < t.nodes.length
    · exact ⟨h.commands n hn, h.flags n hn⟩
    · have hdefault : g.regions.at? n = default := by
        rw [Regions.at?, List.getElem?_eq_none (by rw [h.length]; omega)]
        rfl
      rw [commandsAt, flagsAt, hdefault]
      exact ⟨rfl, rfl⟩
  refine ⟨?_, ?_, ?_, ?_, ?_⟩
  · simp [hempty]
  · simp [h.exits]
  · simp [hempty]
  · simp [hempty]
  · simp [hempty]

theorem Starts.layered {config : Config} {diagnostics : Bag} {newId : Nat → String}
    (h : Starts t g) (hstart : start config p diagnostics newId = .ok g)
    (ht : ScopeTree.ofStream p.code = .ok t) (hseparate : g.regions.Separate) : Layered g := by
  refine ⟨h.nested ht, hseparate, fun n hn => ?_⟩
  obtain ⟨⟨m, f⟩, hmem, rfl⟩ := List.mem_map.1 hn
  obtain ⟨hinner, hkind, -⟩ := body_of_mem hstart ht hmem
  rw [h.kind _ (ScopeTree.mem_inner_iff.1 hinner).2]
  exact hkind

namespace StandsAt

theorem layered (h : StandsAt g₀ pre g) (hl : Layered g₀) : Layered g :=
  hl.of_like h.like h.functions

/-- In a disciplined stream exits end elsewhere and calls lead right inside, backwards. -/
theorem bounded_disciplined (h : StandsAt g₀ pre g) (ht : ScopeTree.ofStream p.code = .ok t)
    (hstarts : Starts t g₀) (hwf : WellFormed p t) (hd : Disciplined p.code t)
    (hs : p.code = pre ++ ins :: post) (hplain : isDelimiter ins = false) :
    Bounded (fun n => n ≠ g.current ∧ n < g.regions.length)
      (fun n => g.regions.parent? n = some g.current ∧ (t.node n).last < pre.length)
      { g with index := pre.length } ins := by
  have hget : p.code[pre.length]? = some ins := by simp [hs]
  have hcurrent := h.current_eq ht hs hplain
  have hinside : ∀ n, LiesInside t pre.length n →
      g.regions.parent? n = some g.current ∧ (t.node n).last < pre.length := by
    intro n hn
    rw [hcurrent]
    exact ⟨h.parent?_eq hstarts hn.1, hn.2⟩
  refine ⟨fun hop n hn haround => ?_, fun hop x hx hne => ?_, fun hop n hn => ?_, fun n hn hlt => ⟨hn, hlt⟩⟩
  · obtain ⟨m, hm⟩ := hwf.jump pre.length ins hget hop
    rw [h.resolve ht hstarts.tree hs hplain hm] at hn
    obtain rfl := Option.some.inj hn
    rcases hd.jump pre.length ins hget hop m hm with hmem | hm
    · rw [Regions.isAncestor, h.ancestors_current ht hstarts hs hplain] at haround
      exact absurd hmem (by simpa using haround)
    · exact hinside m hm
  · obtain ⟨n, hn⟩ := (hwf.condJump pre.length ins hget hop).2.2 x hx hne
    exact ⟨n, h.resolve ht hstarts.tree hs hplain hn,
      hinside n (hd.condJump pre.length ins hget hop x hx hne n hn)⟩
  · refine ⟨?_, lt_of_kind (by simp [hn])⟩
    rintro rfl
    rw [h.like.kind, hcurrent, hstarts.kind _ (ScopeTree.enclosingAt_lt ht _)] at hn
    exact hd.breakLoop pre.length ins hget hop hn

end StandsAt

end Walk

/-! ## What one instruction keeps -/

/-- What an instruction keeps: consistent marks, the commands that there are, and the marks of regions
that do not stand around it. -/
structure Keeps (g g' : Generation) (ins : Instruction) : Prop where
  consistent : Consistent g'
  grows : ∀ n, g.commandsAt n <:+: g'.commandsAt n
  flags : ∀ n, (isDelimiter ins = false → n ∉ g.regions.ancestors g.current) →
    ∀ flag ∈ g'.flagsAt n, flag ∈ g.flagsAt n

section Keeps

variable {Ends Leads : Nat → Prop} {g g' : Generation} {ins : Instruction}

theorem keeps_of_same (hc : Consistent g) (hlike : Like g.regions g'.regions)
    (hconfig : g'.config = g.config) (hexits : g'.exits = g.exits)
    (hcommands : ∀ n, g'.commandsAt n = g.commandsAt n) (hflags : ∀ n, g'.flagsAt n = g.flagsAt n) :
    Keeps g g' ins := by
  refine ⟨hc.of_commands hlike hconfig hexits hflags fun n c hmem => .inl (hcommands n ▸ hmem), fun n => ?_,
    fun n _ flag hflag => hflags n ▸ hflag⟩
  rw [hcommands]

theorem Moves.keeps {i : Nat} (h : Moves Ends Leads i ins g g') (hc : Consistent g)
    (hi : isDelimiter ins = false → Inward Ends Leads { g with index := i }) : Keeps g g' ins := by
  cases h with
  | enter _ => exact keeps_of_same hc (.refl _) rfl rfl (fun _ => rfl) fun _ => rfl
  | leave _ _ => exact keeps_of_same hc (.refl _) rfl rfl (fun _ => rfl) fun _ => rfl
  | @declare _ v _ =>
      exact keeps_of_same hc (like_declare v g.regions g.current) rfl rfl
        (Regions.commands_update (f := (·.declare v)) (fun _ => rfl) _ _)
        (flags_update (f := (·.declare v)) (fun _ => rfl) _ _)
  | step hplain _ hreach =>
      obtain ⟨block, heffect⟩ := exists_effect_of_steps hreach (hi hplain) (hc.of_eq rfl rfl rfl)
      exact ⟨heffect.consistent, heffect.others, fun n hn => heffect.outside n (hn hplain)⟩

end Keeps

/-! ## The walk over a disciplined stream -/

/-- A well-formed, disciplined program and the state its generation starts from. -/
structure Prepared (p : Program) (t : ScopeTree) (g₀ : Generation) : Prop where
  tree : ScopeTree.ofStream p.code = .ok t
  starts : Starts t g₀
  wellFormed : WellFormed p t
  disciplined : Disciplined p.code t
  layered : Layered g₀

namespace Prepared

variable {p : Program} {t : ScopeTree} {g₀ g₁ g : Generation} {pre mid post : Stream} {ins : Instruction}

theorem inward (h : Prepared p t g₀) (hs : p.code = pre ++ ins :: post) (hstands : StandsAt g₀ pre g)
    (hplain : isDelimiter ins = false) :
    Inward (fun n => n ≠ g.current ∧ n < g.regions.length)
      (fun n => g.regions.parent? n = some g.current ∧ (t.node n).last < pre.length)
      { g with index := pre.length } := by
  obtain ⟨hnested, hseparate, hbodies⟩ := hstands.layered h.layered
  exact ⟨⟨hnested, hseparate, hbodies⟩, hstands.current_lt h.tree h.starts hs hplain, fun _ h => h,
    fun _ h => h.1⟩

/-- From any point on, marks stay consistent, commands stay, and a region that has been closed gets no new
marks. -/
theorem walk_keeps (h : Prepared p t g₀) (hwalk : processFrom processors 0 g₀ pre = (g₁, none))
    (hstands : StandsAt g₀ pre g₁) (hc : Consistent g₁) (hs : p.code = pre ++ mid ++ post)
    (hrest : processFrom processors 0 g₀ (pre ++ mid) = (g, none)) :
    StandsAt g₀ (pre ++ mid) g ∧ Consistent g ∧
      (∀ n, g₁.commandsAt n <:+: g.commandsAt n) ∧
      ∀ n ∈ t.inner, (t.node n).last < pre.length → ∀ flag ∈ g.flagsAt n, flag ∈ g₁.flagsAt n := by
  have ht := h.tree
  refine walk_induction (P := fun pre' g => StandsAt g₀ pre' g ∧ Consistent g ∧
    (∀ n, g₁.commandsAt n <:+: g.commandsAt n) ∧
    ∀ n ∈ t.inner, (t.node n).last < pre.length → ∀ flag ∈ g.flagsAt n, flag ∈ g₁.flagsAt n)
    hwalk ⟨hstands, hc, fun _ => List.infix_rfl, fun _ _ _ _ h => h⟩ ?_ hs hrest
  rintro pre' ins post g g' hs hle - hstep ⟨hstands, hc, hgrows, hflags⟩
  have hmoves := hstands.moves ht h.wellFormed hs hstep
    (hstands.bounded_disciplined ht h.starts h.wellFormed h.disciplined hs)
  have hkeeps := hmoves.keeps hc (h.inward hs hstands)
  refine ⟨hstands.advance ht h.starts.tree hs hmoves, hkeeps.consistent,
    fun n => (hgrows n).trans (hkeeps.grows n),
    fun n hn hlast flag hflag => hflags n hn hlast flag (hkeeps.flags n (fun hplain hmem => ?_) flag hflag)⟩
  -- a region around the instruction ends behind it
  rw [hstands.ancestors_current ht h.starts hs hplain, ← ScopeTree.nodeAt_plain ht hs hplain,
    ScopeTree.mem_ancestors_nodeAt_iff ht hn] at hmem
  omega

theorem walk_consistent (h : Prepared p t g₀) (hs : p.code = pre ++ post)
    (hwalk : processFrom processors 0 g₀ pre = (g, none)) : StandsAt g₀ pre g ∧ Consistent g := by
  have hempty : processFrom processors 0 g₀ [] = (g₀, none) := rfl
  obtain ⟨hstands, hc, -⟩ := h.walk_keeps hempty h.starts.standsAt h.starts.consistent hs hwalk
  exact ⟨hstands, hc⟩

/-- The calls of a jump lead into regions that have been closed, and are checked. -/
theorem exists_settled (h : Prepared p t g₀) (hs : p.code = pre ++ ins :: post)
    (hop : ins.op = .jump ∨ ins.op = .condJump) (hstands : StandsAt g₀ pre g₁) (hc : Consistent g₁)
    (hstep : StepsTo pre.length ins g₁ g) :
    ∃ block, g.commandsAt (t.enclosingAt pre.length) = g₁.commandsAt (t.enclosingAt pre.length) ++ block ∧
      Settled (fun n => n ∈ t.inner ∧ (t.node n).last < pre.length) { g₁ with index := pre.length } block := by
  have hplain : isDelimiter ins = false := by
    rcases hop with hop | hop
    · exact isDelimiter_eq_false.2 ⟨by simp [hop], by simp [hop]⟩
    · exact isDelimiter_eq_false.2 ⟨by simp [hop], by simp [hop]⟩
  have hreach := hstep.reaches (makes_turn (hstands.bounded_disciplined h.tree h.starts h.wellFormed
    h.disciplined hs hplain) hop) fun g d => .change (change_report d)
  obtain ⟨block, heffect, hsettled⟩ :=
    exists_effect_of_turns hreach (h.inward hs hstands hplain) (hc.of_eq rfl rfl rfl)
  have hown := heffect.own
  change g.commandsAt g₁.current = g₁.commandsAt g₁.current ++ block at hown
  rw [hstands.current_eq h.tree hs hplain] at hown
  refine ⟨block, hown, fun front c back hsplit n hn henters => ?_⟩
  obtain ⟨⟨hparent, hlast⟩, hchecks⟩ := hsettled front c back hsplit n hn henters
  have hlt : n < t.nodes.length := by
    rw [← h.starts.length, ← hstands.like.length]
    exact hn
  have hroot : n ≠ ScopeTree.root := by
    rintro rfl
    rw [Regions.parent?, hstands.outer h.starts hlt, ScopeTree.outer_root h.tree] at hparent
    cases hparent
  exact ⟨⟨ScopeTree.mem_inner_iff.2 ⟨hroot, hlt⟩, hlast⟩, hchecks⟩

end Prepared

/-! ## Signals -/

/-- A region inside the same function as another; the body of a function is inside no other. -/
structure SharesFunction (g : Generation) (n m : Nat) : Prop where
  enclosing : g.regions.enclosing m [.function] = g.regions.enclosing n [.function]
  inner : (g.regions.at? m).kind ≠ .function

/-- The exit flags with which the function of a region may come back raised: it raises them itself, or
calls a region of the same function that comes back with them, unless the exit ends at the region. -/
inductive Exits (g : Generation) : Nat → String → Prop
  | own {n : Nat} {flag : String} (hflag : (g.exits.lookup flag).isSome = true)
      (hset : .setScore (Layout.flag g flag) 1 ∈ g.commandsAt n) : Exits g n flag
  | call {n m : Nat} {flag : String} {c : Command} (hc : c ∈ g.commandsAt n)
      (hm : m < g.regions.length) (henters : Enters g m c) (hshares : SharesFunction g n m)
      (hexits : Exits g m flag) (hends : ∀ e, g.exits.lookup flag = some e → e.consumer ≠ n) :
      Exits g n flag

/-- Where marks are consistent, a region is marked with all flags it may come back with. -/
theorem Exits.mem_flagsAt {g : Generation} (hc : Consistent g) {n : Nat} {flag : String}
    (h : Exits g n flag) : flag ∈ g.flagsAt n := by
  induction h with
  | @own n flag hflag hset =>
      obtain ⟨e, he⟩ := Option.isSome_iff_exists.1 hflag
      obtain ⟨hname, -⟩ := hc.named flag e he
      exact hc.marked n flag ⟨e.kind, _, g.ns, by rw [← hname]; rfl⟩ hset
  | @call n m flag c hmem hm henters hshares _ hends ih =>
      obtain ⟨e, he⟩ := hc.registered m flag ih
      have hinside := (hc.leads n c hmem m hm henters).resolve_left hshares.inner
      exact (hc.passed m n flag e ih hinside he).resolve_left fun h => hends e he h.symm

/-- What instruction `i` of a stream adds to the commands of a region. -/
def Contributes (g₀ : Generation) (s : Stream) (i n : Nat) (block : List Command) : Prop :=
  ∃ g g', processFrom processors 0 g₀ (s.take i) = (g, none) ∧
    processFrom processors 0 g₀ (s.take (i + 1)) = (g', none) ∧
    g'.commandsAt n = g.commandsAt n ++ block

theorem exists_of_lower {g₀ g : Generation} (h : lower g₀ = (g, none)) :
    ∃ g₁, processFrom processors 0 g₀ g₀.program.code = (g₁, none) ∧ finish g₁ = g := by
  unfold lower at h
  rcases hprocess : process processors g₀ with ⟨g₁, _ | e⟩
  · rw [hprocess] at h
    exact ⟨g₁, hprocess, (Prod.mk.inj h).1⟩
  · rw [hprocess] at h
    cases (Prod.mk.inj h).2

/-- In a disciplined program, behind each region that a jump calls stands a check of every flag with which
the region may come back, before the commands of the next instruction. -/
theorem checks_follow_calls {config : Config} {p : Program} {diagnostics : Bag} {newId : Nat → String}
    {g₀ g : Generation} {t : ScopeTree} (hstart : start config p diagnostics newId = .ok g₀)
    (hlower : lower g₀ = (g, none)) (hvalid : p.isValid = true) (ht : ScopeTree.ofStream p.code = .ok t)
    (hd : Disciplined p.code t) (hseparate : g₀.regions.Separate) {i : Nat} {ins : Instruction}
    (hi : p.code[i]? = some ins) (hop : ins.op = .jump ∨ ins.op = .condJump) :
    ∃ block front back, Contributes g₀ p.code i (t.enclosingAt i) block ∧
      g.commandsAt (t.enclosingAt i) = front ++ block ++ back ∧
      ∀ before c after, block = before ++ c :: after → ∀ n < g.regions.length, Enters g n c →
        ∀ flag, Exits g n flag → ∃ d ∈ after, Tests (Layout.flag g flag) d := by
  obtain ⟨hstarts, -, hprogram, -⟩ := starts_of_start hstart ht
  have hprepared : Prepared p t g₀ :=
    ⟨ht, hstarts, Program.wellFormed hvalid ht, hd, hstarts.layered hstart ht hseparate⟩
  obtain ⟨g₃, hwhole, hfinish⟩ := exists_of_lower hlower
  rw [hprogram] at hwhole
  obtain ⟨pre, post, hs, rfl⟩ := exists_split hi
  -- the states before and behind the instruction
  have hs₂ : p.code = (pre ++ [ins]) ++ post := by rw [hs, List.append_assoc, List.singleton_append]
  obtain ⟨g₂, hwalk₂, -⟩ := exists_of_processFrom_append (hs₂ ▸ hwhole)
  obtain ⟨g₁, hwalk₁, hlast⟩ := exists_of_processFrom_append hwalk₂
  rw [Nat.zero_add] at hlast
  obtain ⟨hstands₁, hc₁⟩ := hprepared.walk_consistent hs hwalk₁
  obtain ⟨hstands₂, hc₂⟩ := hprepared.walk_consistent hs₂ hwalk₂
  obtain ⟨block, hown, hsettled⟩ :=
    hprepared.exists_settled hs hop hstands₁ hc₁ (stepsTo_of_processFrom hlast)
  -- what is left of them at the end
  obtain ⟨hstands, hc, -, hflags⟩ := hprepared.walk_keeps hwalk₁ hstands₁ hc₁
    (hs.trans (List.append_nil _).symm) (hs ▸ hwhole)
  obtain ⟨-, -, hgrows, -⟩ := hprepared.walk_keeps hwalk₂ hstands₂ hc₂
    (hs₂.trans (List.append_nil _).symm) (hs₂ ▸ hwhole)
  obtain ⟨front, back, hcommands⟩ := hgrows (t.enclosingAt pre.length)
  obtain ⟨helpers, tags, hfinish'⟩ := finish_eq g₃
  rw [hfinish'] at hfinish
  subst hfinish
  refine ⟨block, front ++ g₁.commandsAt (t.enclosingAt pre.length), back, ⟨g₁, g₂, ?_, ?_, hown⟩, ?_, ?_⟩
  · rwa [hs, List.take_left]
  · rwa [hs₂, List.take_left' (by simp)]
  · rw [List.append_assoc front, ← hown]
    exact hcommands.symm
  · intro before c after hsplit n hn henters flag hexits
    have hlike := hstands₁.like.symm.trans hstands.like
    have hconfig : g₃.config = g₁.config := hstands.config.trans hstands₁.config.symm
    have hn₁ : n < g₁.regions.length := by rwa [← hlike.length]
    obtain ⟨⟨hinner, hclosed⟩, hchecks⟩ :=
      hsettled before c after hsplit n hn₁ ((enters_iff_of_like hlike hconfig).1 henters)
    have hc' : Consistent { g₃ with helpers, tags } := hc.of_eq rfl rfl rfl
    have hmark : flag ∈ g₃.flagsAt n := hexits.mem_flagsAt hc'
    obtain ⟨d, hd, htests⟩ := hchecks flag (hflags n hinner hclosed flag hmark)
    change Tests (Layout.flag g₁ flag) d at htests
    rw [← flag_of_config hconfig] at htests
    exact ⟨d, hd, htests⟩

/-- A function that calls a block of its own, which returns. -/
def nested : Stream :=
  [.function { id := "f", name := "f", params := [], returnType := .data .null, kind := .function },
    .scopeBegin "f" .function, .scopeBegin "a" .block, .ret none, .scopeEnd "a" .block, .jump "a",
    .scopeEnd "f" .function]

theorem checks_nested :
    ∃ g₀ g, start {} { code := nested } [] toString = .ok g₀ ∧ lower g₀ = (g, none) ∧
      Exits g 2 "$return.mcfc.f" ∧
      ∃ block front back, Contributes g₀ nested 5 1 block ∧ callRegion g 2 ∈ block ∧
        g.commandsAt 1 = front ++ block ++ back ∧
        ∀ before c after, block = before ++ c :: after → Enters g 2 c →
          ∃ d ∈ after, Tests (.score "$return.mcfc.f" "mcfc") d := by
  obtain ⟨g₀, g, hstart, hlower, hlength, hpaths, hholders, hinner, hexit, hsets, hflag, hbefore, hcalls⟩ :
      ∃ g₀ g, start {} { code := nested } [] toString = .ok g₀ ∧ lower g₀ = (g, none) ∧
        g₀.regions.length = 3 ∧
        (∀ m < 3, ∀ n < 3, g₀.regions.functionPath m = g₀.regions.functionPath n → m = n) ∧
        (∀ m < 3, ∀ n < 3,
          holder (g₀.regions.absolutePath m) = holder (g₀.regions.absolutePath n) → m = n) ∧
        2 < g.regions.length ∧ (g.exits.lookup "$return.mcfc.f").isSome = true ∧
        Command.setScore (Layout.flag g "$return.mcfc.f") 1 ∈ g.commandsAt 2 ∧
        Layout.flag g "$return.mcfc.f" = .score "$return.mcfc.f" "mcfc" ∧
        (processFrom processors 0 g₀ (nested.take 5)).1.commandsAt 1 = [] ∧
        callRegion g 2 ∈ (processFrom processors 0 g₀ (nested.take 6)).1.commandsAt 1 := by
    refine ⟨_, _, rfl, Prod.ext rfl (Option.isNone_iff_eq_none.1 ?_), ?_, ?_, ?_, ?_, ?_, ?_, ?_, ?_, ?_⟩
    all_goals decide +kernel
  obtain ⟨t, ht, hscope, hresolve, hinside⟩ : ∃ t, ScopeTree.ofStream nested = .ok t ∧
      t.enclosingAt (5 : Nat) = 1 ∧ t.resolve 1 "a" = some 2 ∧
      (t.node 2).parent? = some 1 ∧ (t.node 2).last < 5 :=
    ⟨_, rfl, by decide, by decide +kernel, by decide, by decide⟩
  have hd : Disciplined nested t := by
    refine ⟨fun i ins hi hop n hn => ?_, fun i ins hi hop => ?_, fun i ins hi hop => ?_⟩
    all_goals
      have hlt : i < 7 := (List.getElem?_eq_some_iff.1 hi).1
      interval_cases i <;> cases Option.some.inj hi <;> cases hop
    -- the only jump stands behind the block
    rw [hscope] at hn ⊢
    obtain rfl := Option.some.inj (hresolve.symm.trans hn)
    exact .inr (by rwa [LiesInside, hscope])
  have hseparate : g₀.regions.Separate := by
    refine ⟨?_, ?_⟩
    · simpa only [hlength] using fun m n hm hn => hpaths m hm n hn
    · simpa only [hlength] using fun m n hm hn => hholders m hm n hn
  obtain ⟨block, front, back, hadds, hcommands, hchecks⟩ :=
    checks_follow_calls hstart hlower (by decide) ht hd hseparate (i := 5) rfl (.inl rfl)
  have hexits : Exits g 2 "$return.mcfc.f" := .own hexit hsets
  rw [hscope] at hadds hcommands
  have hblock : callRegion g 2 ∈ block := by
    obtain ⟨g₁, g₂, hwalk₁, hwalk₂, hadded⟩ := hadds
    rw [hwalk₁] at hbefore
    rw [hwalk₂] at hcalls
    dsimp only at hbefore hcalls
    rwa [hadded, hbefore, List.nil_append] at hcalls
  refine ⟨g₀, g, hstart, hlower, hexits, block, front, back, hadds, hblock, hcommands, ?_⟩
  intro before c after hsplit henters
  exact hflag ▸ hchecks before c after hsplit 2 hinner henters _ hexits

/-- A function with a block that returns and one beside it that calls the first. -/
def siblings : Stream :=
  [.function { id := "f", name := "f", params := [], returnType := .data .null, kind := .function },
    .scopeBegin "f" .function, .scopeBegin "a" .block, .ret none, .scopeEnd "a" .block,
    .scopeBegin "b" .block, .jump "a", .scopeEnd "b" .block, .jump "b", .scopeEnd "f" .function]

/-- A return reaches the second block, which is not around it: the function goes on behind the call. -/
theorem exits_siblings_unchecked :
    Program.isValid { code := siblings } = true ∧
      ∃ g₀ g t, start {} { code := siblings } [] toString = .ok g₀ ∧ lower g₀ = (g, none) ∧
        g.diagnostics.isEmpty = true ∧ ScopeTree.ofStream siblings = .ok t ∧
        (∀ (i : Nat) (ins : Instruction), siblings[i]? = some ins → ins.op = .jump → ∀ n,
          t.resolve (t.enclosingAt i) ins.jumpTarget = some n → (t.node n).last < i) ∧
        Exits g 3 "$return.mcfc.f" ∧ g.commandsAt 1 = [callRegion g 3] := by
  obtain ⟨g₀, g, hstart, hlower, hclean, hinner, hkind, hfunction, hsets, hcalls, hcommands, hcall, hexit⟩ :
      ∃ g₀ g, start {} { code := siblings } [] toString = .ok g₀ ∧ lower g₀ = (g, none) ∧
        g.diagnostics.isEmpty = true ∧ 2 < g.regions.length ∧ (g.regions.at? 2).kind = .block ∧
        g.regions.enclosing 2 [.function] = g.regions.enclosing 3 [.function] ∧
        Command.setScore (Layout.flag g "$return.mcfc.f") 1 ∈ g.commandsAt 2 ∧
        callRegion g 2 ∈ g.commandsAt 3 ∧ g.commandsAt 1 = [.call "mcfc:mcfc/f/b"] ∧
        callRegion g 3 = .call "mcfc:mcfc/f/b" ∧
        g.exits.lookup "$return.mcfc.f" = some ⟨.returnFunction, 1⟩ := by
    refine ⟨_, _, rfl, Prod.ext rfl (Option.isNone_iff_eq_none.1 ?_), ?_, ?_, ?_, ?_, ?_, ?_, ?_, ?_, ?_⟩
    all_goals decide +kernel
  refine ⟨by decide, g₀, g, _, hstart, hlower, hclean, rfl, ?_, ?_, hcall ▸ hcommands⟩
  · intro i ins hi hop n hn
    have hlt : i < 10 := (List.getElem?_eq_some_iff.1 hi).1
    interval_cases i <;> cases Option.some.inj hi <;> cases hop
    · obtain rfl : 2 = n := Option.some.inj hn
      decide
    · obtain rfl : 3 = n := Option.some.inj hn
      decide
  · refine .call hcalls hinner (.inl rfl) ⟨hfunction, by simp [hkind]⟩
      (.own (by simp [hexit]) hsets) fun e he => ?_
    rw [hexit] at he
    simp [← Option.some.inj he]

end Datapack.Generation
