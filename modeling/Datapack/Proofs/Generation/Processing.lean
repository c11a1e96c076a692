import Datapack.Generation.Lower

/-!
# Runs of the generator

Computations of the generator that succeed, put together step by step.  `Yields m g a g'` says that
`m` gives `a` and takes the state `g` to `g'`; `Processes i g s g'` says that processing the
instructions `s` from index `i` on takes `g` to `g'` without a failure.
-/

namespace Datapack.Generation

open Ir Command

/-- A computation that succeeds. -/
def Yields {α : Type} (m : Gen α) (g : Generation) (a : α) (g' : Generation) : Prop :=
  m.run g = (.ok a, g')

namespace Yields

variable {α β : Type} {g g' g'' : Generation}

theorem bind {m : Gen α} {f : α → Gen β} {a : α} {b : β} (h : Yields m g a g')
    (h' : Yields (f a) g' b g'') : Yields (m >>= f) g b g'' := by
  unfold Yields at h h' ⊢
  rw [ExceptT.run_bind, ← h']
  simp only [Bind.bind, StateT.bind, h]

theorem pure (a : α) : Yields (Pure.pure a) g a g := rfl

theorem get : Yields (MonadState.get : Gen Generation) g g g := rfl

theorem change (f : Generation → Generation) : Yields (Gen.change f) g () (f g) := rfl

theorem emit (cs : List Command) : Yields (Gen.emit cs) g () (g.emit cs) := rfl

theorem emitLowered {cs : Lowered} {ds : List Command} (h : cs = .ok ds) :
    Yields (Gen.emitLowered cs) g () (g.emit ds) := by
  subst h
  rfl

theorem orFail {message : String} {o : Option α} {a : α} (h : o = some a) :
    Yields (Gen.orFail message o) g a g := by
  subst h
  rfl

theorem freshName (stem : String) :
    Yields (Gen.freshName stem) g (stem ++ toString (g.fresh + 1)) { g with fresh := g.fresh + 1 } :=
  rfl

theorem pop {n : Nat} {stack : List Nat} (h : g.stack = n :: stack) :
    Yields Gen.pop g () { g with current := n, stack } := by
  have hpop : g.pop? = some { g with current := n, stack } := by simp [pop?, h]
  refine bind get ?_
  simp only [hpop]
  rfl

end Yields

/-- Processing instructions without a failure. -/
def Processes (i : Nat) (g : Generation) (s : Stream) (g' : Generation) : Prop :=
  ∀ rest, processFrom processors i g (s ++ rest) = processFrom processors (i + s.length) g' rest

namespace Processes

variable {i : Nat} {g g' g'' : Generation}

theorem nil : Processes i g [] g := fun _ => rfl

theorem append {s t : Stream} (h : Processes i g s g') (h' : Processes (i + s.length) g' t g'') :
    Processes i g (s ++ t) g'' := by
  intro rest
  rw [List.append_assoc, h, h', List.length_append, Nat.add_assoc]

theorem single {ins : Instruction} {p : Processor} (hp : processors.find ins.op = p)
    (h : Yields (p ins) { g with index := i } () g') : Processes i g [ins] g' := by
  intro rest
  unfold Yields at h
  rw [List.singleton_append, processFrom, hp, h]
  rfl

theorem process {g : Generation} (h : Processes 0 g g.program.code g') :
    Generation.process processors g = (g', none) := by
  have hnil := h []
  rw [List.append_nil] at hnil
  exact hnil

end Processes

/-! ## The end of a generation -/

theorem addHelper_eq (g : Generation) (path : String) (body : List Command) :
    ∃ helpers, g.addHelper path body = { g with helpers } := by
  unfold addHelper
  split
  · exact ⟨g.helpers, rfl⟩
  · exact ⟨_, rfl⟩

theorem tag_eq (g : Generation) (hook ref : String) : ∃ tags, g.tag hook ref = { g with tags } := by
  unfold tag
  split
  · exact ⟨g.tags, rfl⟩
  · exact ⟨_, rfl⟩

theorem foldl_tag_eq (refs : List String) (hook : String) (g : Generation) :
    ∃ tags, refs.foldl (fun g ref => g.tag hook ref) g = { g with tags } := by
  induction refs generalizing g with
  | nil => exact ⟨g.tags, rfl⟩
  | cons ref refs ih =>
      obtain ⟨tags, htags⟩ := tag_eq g hook ref
      obtain ⟨tags', htags'⟩ := ih (g.tag hook ref)
      exact ⟨tags', by rw [List.foldl_cons, htags', htags]⟩

theorem finish_eq (g : Generation) : ∃ helpers tags, finish g = { g with helpers, tags } := by
  have hglobal : ∀ g : Generation, ∃ tags,
      (if (g.regions.at? 0).commands.isEmpty then g else g.tag "load" (g.regions.functionRef g.ns 0))
        = { g with tags } := by
    intro g
    split
    · exact ⟨g.tags, rfl⟩
    · exact tag_eq g _ _
  unfold finish
  dsimp only
  obtain ⟨helpers, h⟩ := addHelper_eq g initPath (.addObjective g.ns :: g.pool.initCommands)
  obtain ⟨tags₁, h₁⟩ := tag_eq (g.addHelper initPath (.addObjective g.ns :: g.pool.initCommands)) "load"
    ((g.addHelper initPath (.addObjective g.ns :: g.pool.initCommands)).helperRef initPath)
  rw [h₁]
  obtain ⟨tags₂, h₂⟩ := hglobal _
  rw [h₂]
  obtain ⟨tags₃, h₃⟩ := foldl_tag_eq _ "load" _
  rw [h₃]
  obtain ⟨tags₄, h₄⟩ := foldl_tag_eq _ "tick" _
  rw [h₄, h]
  exact ⟨helpers, tags₄, rfl⟩

end Datapack.Generation
