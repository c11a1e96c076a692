import Datapack.Proofs.Generation.References
import Datapack.Proofs.Generation.Signals

/-!
# Closed packs

A pack is closed if every function it names is one of its own.  The functions that a finished pack names
are those of the regions to which its instructions lead and of the helpers, and a function is written for
a region that has a command.  So the pack of a program is closed if each region to which an instruction
leads has an instruction that is sure to leave a command.
-/

namespace Datapack.Generation

open Ir Command

variable {A : Nat → Prop} {g₀ g g' : Generation} {f : String}

/-- A state names a function: a hook runs it, or a command of a region or of a helper calls it. -/
inductive Mentions (g : Generation) (f : String) : Prop
  | hook (h : Hooked g f)
  | region {n : Nat} {c : Command} (hc : c ∈ g.commandsAt n) (hf : f ∈ c.callees)
  | helper {x : String × List Command} {c : Command} (hx : x ∈ g.helpers) (hc : c ∈ x.2)
      (hf : f ∈ c.callees)

/-- A state as instruction `i` finds it: in the region around the instruction. -/
def seenFrom (g : Generation) (i : Nat) : Generation :=
  { g with index := i, current := g.tree.enclosingAt i }

/-- Some instruction may have the function of a region called. -/
def Entered (g₀ : Generation) (n : Nat) : Prop :=
  ∃ (i : Nat) (ins : Instruction), g₀.program.code[i]? = some ins ∧ Targets (g₀.seenFrom i) ins n

/-- An instruction directly inside a region leaves a command. -/
def Busy (g₀ : Generation) (n : Nat) : Prop :=
  ∃ (i : Nat) (ins : Instruction), g₀.program.code[i]? = some ins ∧ g₀.tree.enclosingAt i = n ∧
    LeavesCommand ins

/-! ## Programs -/

section Program

variable {config : Config} {p : Program} {diagnostics : Bag} {newId : Nat → String} {t : ScopeTree}
  {pre post : Stream} {ins : Instruction}

theorem Targets.seen {n : Nat} (h : Targets { g with index := pre.length } ins n)
    (hstands : StandsAt g₀ pre g) (ht : ScopeTree.ofStream p.code = .ok t) (htree : g₀.tree = t)
    (hs : p.code = pre ++ ins :: post) : Targets (g₀.seenFrom pre.length) ins n := by
  have hresolve : ∀ x, resolve { g with index := pre.length } x = resolve (g₀.seenFrom pre.length) x := by
    intro x
    simp only [resolve, seenFrom, hstands.tree]
    rfl
  have hbody : ∀ f, bodyOf? { g with index := pre.length } f = bodyOf? (g₀.seenFrom pre.length) f := by
    intro f
    simp only [bodyOf?, seenFrom, hstands.functions]
  cases h with
  | jump hop h => exact .jump hop (by rwa [← hresolve])
  | branch hop hx h => exact .branch hop hx (by rwa [← hresolve])
  | body hop hf h => exact .body hop hf (by rwa [← hbody])
  | hook hop hf ha h => exact .hook hop hf ha (by rwa [← hbody])
  | next hop hm hkind h =>
      have hcurrent := hstands.current_eq ht hs (isDelimiter_eq_false.2 (by simp [hop]))
      refine .next hop ?_ ((hstands.like.kind _).symm.trans hkind) ((hstands.like.parent? _).symm.trans h)
      change _ ∈ g.regions.ancestors g.current at hm
      rw [hcurrent, hstands.like.ancestors] at hm
      rw [seenFrom, htree]
      exact hm

/-- What holds of the state behind a part of a program. -/
structure Behind (g₀ : Generation) (pre : Stream) (g : Generation) : Prop where
  stands : StandsAt g₀ pre g
  linked : Linked (Entered g₀) g
  filled : ∀ (i : Nat) (ins : Instruction), pre[i]? = some ins → LeavesCommand ins →
    FilledAt (g₀.tree.enclosingAt i) g

theorem Behind.step (h : Behind g₀ pre g) (hstart : start config p diagnostics newId = .ok g₀)
    (hvalid : p.isValid = true) (ht : ScopeTree.ofStream p.code = .ok t) (hs : p.code = pre ++ ins :: post)
    (hstep : StepsTo pre.length ins g g') : Behind g₀ (pre ++ [ins]) g' := by
  obtain ⟨hstarts, -, hprogram, -⟩ := starts_of_start hstart ht
  have hwf := Program.wellFormed hvalid ht
  have hget : g₀.program.code[pre.length]? = some ins := by simp [hprogram, hs]
  have htargets : ∀ n, Targets { g with index := pre.length } ins n → Entered g₀ n := fun n hn =>
    ⟨pre.length, ins, hget, hn.seen h.stands ht hstarts.tree hs⟩
  have hacts : Reaches (Act (Entered g₀)) g g' :=
    .head (.move g pre.length g.current g.stack)
      (hstep.reaches (acts_find (g := { g with index := pre.length }) ins h.linked.exits htargets) act_report)
  refine ⟨?_, h.linked.of_acts hacts, fun i ins' hi hleaves => ?_⟩
  · exact h.stands.advance ht hstarts.tree hs
      (h.stands.moves ht hwf hs hstep fun hplain => h.stands.bounded ht hstarts.tree hwf hs hplain)
  · -- what an earlier instruction left stays, and this one leaves its own
    by_cases hlt : i < pre.length
    · rw [List.getElem?_append_left hlt] at hi
      exact FilledAt.of_acts (h.filled i ins' hi hleaves) hacts
    · have hi' := (List.getElem?_eq_some_iff.1 hi).1
      rw [List.length_append, List.length_singleton] at hi'
      obtain rfl : i = pre.length := by omega
      rw [List.getElem?_concat_length] at hi
      obtain rfl := Option.some.inj hi
      obtain ⟨hplain, hdeclare⟩ := hleaves.plain
      have hcurrent := h.stands.current_eq ht hs hplain
      rw [hstarts.tree, ← hcurrent]
      exact hstep.filled hplain hdeclare h.linked.exits htargets hleaves
        (h.stands.current_lt ht hstarts hs hplain)

theorem behind_start (hstart : start config p diagnostics newId = .ok g₀)
    (ht : ScopeTree.ofStream p.code = .ok t) : Behind g₀ [] g₀ :=
  ⟨(starts_of_start hstart ht).1.standsAt, linked_start hstart, by simp⟩

theorem exists_behind (hstart : start config p diagnostics newId = .ok g₀) (hvalid : p.isValid = true)
    (hlower : lower g₀ = (g, none)) : ∃ g₁, Behind g₀ p.code g₁ ∧ finish g₁ = g := by
  obtain ⟨t, ht⟩ := exists_tree hstart
  obtain ⟨-, -, hprogram, -⟩ := starts_of_start hstart ht
  obtain ⟨g₁, hwalk, hfinish⟩ := exists_of_lower hlower
  rw [hprogram] at hwalk
  have hbegin : processFrom processors 0 g₀ [] = (g₀, none) := rfl
  refine ⟨g₁, ?_, hfinish⟩
  exact walk_induction (P := Behind g₀) hbegin (behind_start hstart ht)
    (fun pre ins post g g' hs _ _ hstep h => h.step hstart hvalid ht hs hstep)
    (List.append_nil _).symm hwalk

/-- The functions that a finished pack names: those of the regions to which its instructions lead, of
the global code if there is any, and of the helpers. -/
theorem refers_of_mentions (hstart : start config p diagnostics newId = .ok g₀) (hvalid : p.isValid = true)
    (hlower : lower g₀ = (g, none)) (h : Mentions g f) :
    Refers (fun n => Entered g₀ n ∨ (n = 0 ∧ g.commandsAt 0 ≠ [])) g f := by
  obtain ⟨g₁, hbehind, rfl⟩ := exists_behind hstart hvalid hlower
  have hadded := (mem_helpers_addHelper g₁ initPath (.addObjective g₁.ns :: g₁.pool.initCommands)).1
  have hlinked := hbehind.linked.of_edit (.init _ g₁)
  have hooks := hooks_finish g₁
  obtain ⟨helpers, hadd⟩ := addHelper_eq g₁ initPath (.addObjective g₁.ns :: g₁.pool.initCommands)
  rw [hadd] at hadded hlinked hooks
  obtain ⟨⟨tags, hfinish⟩, hhooked⟩ := hooks
  rw [hfinish] at h hhooked ⊢
  cases h with
  | region hc hf => exact (hlinked.commands _ _ hc _ hf).imp_left fun ⟨n, hn, hf⟩ => ⟨n, .inl hn, hf⟩
  | helper hx hc hf => exact ((hlinked.helpers _ hx).2 _ hc _ hf).elim
  | hook h =>
      rcases hhooked f h with ⟨x, hx, -⟩ | rfl | ⟨rfl, hne⟩ | hf
      · have htags : g₁.tags = [] := hlinked.tags
        rw [htags] at hx
        exact absurd hx List.not_mem_nil
      · exact .inr ⟨initPath, hadded, rfl⟩
      · exact .inl ⟨0, .inr ⟨rfl, hne⟩, rfl⟩
      · obtain ⟨n, hn, hf⟩ := hlinked.hooks f hf
        exact .inl ⟨n, .inl hn, hf⟩

/-- A region in which an instruction is sure to leave a command has one, unless an error is reported. -/
theorem commandsAt_ne_nil (hstart : start config p diagnostics newId = .ok g₀) (hvalid : p.isValid = true)
    (hlower : lower g₀ = (g, none)) (herrors : Bag.hasErrors g.diagnostics = false) {n : Nat}
    (h : Busy g₀ n) : g.commandsAt n ≠ [] := by
  obtain ⟨g₁, hbehind, rfl⟩ := exists_behind hstart hvalid hlower
  obtain ⟨t, ht⟩ := exists_tree hstart
  obtain ⟨-, -, hprogram, -⟩ := starts_of_start hstart ht
  obtain ⟨i, ins, hi, rfl, hleaves⟩ := h
  obtain ⟨helpers, tags, hfinish⟩ := finish_eq g₁
  rw [hfinish] at herrors ⊢
  rw [hprogram] at hi
  refine (hbehind.filled i ins hi hleaves).resolve_right ?_
  rintro ⟨d, hd, herror⟩
  have hcount : 0 < Bag.errorCount g₁.diagnostics :=
    List.countP_pos_iff.2 ⟨d, hd, by simpa using herror⟩
  exact absurd herrors (by simpa [Bag.hasErrors] using Nat.ne_of_gt hcount)

/-- A pack without errors is closed if every region to which an instruction leads has an instruction that
leaves a command. -/
theorem mentions_are_written (hstart : start config p diagnostics newId = .ok g₀) (hvalid : p.isValid = true)
    (hlower : lower g₀ = (g, none)) (herrors : Bag.hasErrors g.diagnostics = false)
    (hbusy : ∀ n, Entered g₀ n → Busy g₀ n) (h : Mentions g f) :
    Refers (· ∈ g.regions.nonEmpty) g f := by
  have htree : g.regions.Tree := by
    obtain ⟨-, hlike, -⟩ := kept_of_lower hstart hlower
    exact (tree_of_start hstart).of_like hlike
  refine (refers_of_mentions hstart hvalid hlower h).imp_left fun ⟨n, hn, hf⟩ => ⟨n, ?_, hf⟩
  refine htree.mem_nonEmpty_iff.2 ?_
  rcases hn with hentered | ⟨rfl, hne⟩
  · exact commandsAt_ne_nil hstart hvalid hlower herrors (hbusy n hentered)
  · exact hne

end Program

/-- A function that is run when the pack is loaded and calls a block of its own, which returns. -/
def loaded : Stream :=
  [.function
      { id := "f", name := "f", params := [], returnType := .data .null, kind := .function,
        annotations := ["load"] },
    .scopeBegin "f" .function, .scopeBegin "a" .block, .ret none, .scopeEnd "a" .block, .jump "a",
    .scopeEnd "f" .function]

theorem mentions_loaded :
    ∃ g₀ g, start {} { code := loaded } [] toString = .ok g₀ ∧ lower g₀ = (g, none) ∧
      Mentions g "mcfc:mcfc/f" ∧ Refers (· ∈ g.regions.nonEmpty) g "mcfc:mcfc/f" := by
  obtain ⟨g₀, g, hstart, hlower, hcode, herrors, hload, hjump, hbody, hbusy, hbusy'⟩ :
      ∃ g₀ g, start {} { code := loaded } [] toString = .ok g₀ ∧ lower g₀ = (g, none) ∧
        g₀.program.code = loaded ∧ Bag.hasErrors g.diagnostics = false ∧
        (∃ x ∈ g.tags, "mcfc:mcfc/f" ∈ x.2) ∧ (g₀.seenFrom 5).resolve "a" = some 2 ∧
        g₀.functions.map Prod.fst = [1] ∧ g₀.tree.enclosingAt (5 : Nat) = 1 ∧
        g₀.tree.enclosingAt (3 : Nat) = 2 := by
    refine ⟨_, _, rfl, Prod.ext rfl (Option.isNone_iff_eq_none.1 ?_), rfl, ?_, ?_, ?_, ?_, ?_, ?_⟩
    all_goals decide +kernel
  have hmentions : Mentions g "mcfc:mcfc/f" := .hook hload
  refine ⟨g₀, g, hstart, hlower, hmentions, ?_⟩
  refine mentions_are_written hstart (by decide +kernel) hlower herrors (fun n hn => ?_) hmentions
  obtain ⟨i, ins, hi, htargets⟩ := hn
  rw [hcode] at hi
  have hlt : i < 7 := (List.getElem?_eq_some_iff.1 hi).1
  cases htargets with
  | jump hop h =>
      obtain rfl : i = 5 := by
        interval_cases i <;> cases Option.some.inj hi <;> cases hop
        rfl
      obtain rfl := Option.some.inj hi
      obtain rfl := Option.some.inj (hjump.symm.trans h)
      exact ⟨3, .ret none, by rw [hcode]; rfl, hbusy', trivial⟩
  | hook hop hf ha h =>
      obtain ⟨x, hx, rfl⟩ := Option.map_eq_some_iff.1 h
      have hmem : x.1 ∈ g₀.functions.map Prod.fst := List.mem_map_of_mem (List.mem_of_find?_eq_some hx)
      rw [hbody, List.mem_singleton] at hmem
      exact ⟨5, .jump "a", by rw [hcode]; rfl, hmem ▸ hbusy, trivial⟩
  | branch hop => interval_cases i <;> cases Option.some.inj hi <;> cases hop
  | next hop => interval_cases i <;> cases Option.some.inj hi <;> cases hop
  | body hop => interval_cases i <;> cases Option.some.inj hi <;> rcases hop with hop | hop <;> cases hop

/-- A block without a command to which the program jumps. -/
def hollow : Stream := [.scopeBegin "a" .block, .scopeEnd "a" .block, .jump "a"]

theorem mentions_hollow :
    Program.isValid { code := hollow } = true ∧
      ∃ g₀ g, start {} { code := hollow } [] toString = .ok g₀ ∧ lower g₀ = (g, none) ∧
        Bag.hasErrors g.diagnostics = false ∧ Mentions g "mcfc:mcfc/a" ∧
        ¬Refers (· ∈ g.regions.nonEmpty) g "mcfc:mcfc/a" := by
  obtain ⟨g₀, g, hstart, hlower, herrors, hcommands, hwritten, hglobal, hhelpers⟩ :
      ∃ g₀ g, start {} { code := hollow } [] toString = .ok g₀ ∧ lower g₀ = (g, none) ∧
        Bag.hasErrors g.diagnostics = false ∧ Command.call "mcfc:mcfc/a" ∈ g.commandsAt 0 ∧
        g.regions.nonEmpty = [0] ∧ g.regions.functionRef g.ns 0 = "mcfc:mcfc" ∧
        ∀ path ∈ g.helpers.map Prod.fst, "mcfc:mcfc/a" ≠ g.helperRef path := by
    refine ⟨_, _, rfl, Prod.ext rfl (Option.isNone_iff_eq_none.1 ?_), ?_, ?_, ?_, ?_, ?_⟩
    all_goals decide +kernel
  refine ⟨by decide, g₀, g, hstart, hlower, herrors, .region hcommands List.mem_cons_self, ?_⟩
  rintro (⟨n, hn, heq⟩ | ⟨path, hpath, heq⟩)
  · rw [hwritten, List.mem_singleton] at hn
    rw [hn, hglobal] at heq
    exact absurd heq (by decide)
  · exact hhelpers path hpath heq

end Datapack.Generation
