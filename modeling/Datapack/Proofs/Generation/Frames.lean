import Datapack.Proofs.Generation.Plan
import Datapack.Proofs.Generation.Processing

/-!
# Open regions

Where the generator stands inside a structured body, and what a part of the body adds.  A `Frame` tells
the regions that are open and what they are; `Ready` is what holds of the state between two
instructions; `Grown` is all that generating a part of the body changes: commands of the innermost
region, the regions opened and closed on the way, flags of the open regions, and at most one command in
front of the check of the innermost loop.
-/

namespace Datapack.Generation

open Ir Ir.Structured Command

/-- The place of an instruction in a structured body. The number of a loop is that of its region; its
check and its body are the next two. -/
inductive Frame where
  | function
  | side (n : Nat) (up : Frame)
  | loop (l : String) (n : Nat) (up : Frame)
  | check (l : String) (n : Nat) (up : Frame)
  | body (l : String) (n : Nat) (up : Frame)

namespace Frame

def stack : Frame → List Nat
  | function => [1, 0]
  | side n up => n :: up.stack
  | loop _ n up => n :: up.stack
  | check _ n up => (n + 1) :: n :: up.stack
  | body _ n up => (n + 2) :: (n + 1) :: n :: up.stack

def current (f : Frame) : Nat := f.stack.headD 0

def loops : Frame → List String
  | function => []
  | side _ up => up.loops
  | loop _ _ up => up.loops
  | check _ _ up => up.loops
  | body l _ up => l :: up.loops

/-- The open check whose body is open or may open next. -/
def check? : Frame → Option Nat
  | check _ n _ => some (n + 1)
  | body _ n _ => some (n + 1)
  | _ => none

/-- What the innermost region is to exits. -/
def role (resets : Bool) : Frame → Role
  | function => .function
  | body l _ _ => .body l resets
  | _ => .inner

theorem stack_eq (f : Frame) : f.stack = f.current :: f.stack.tail := by
  cases f <;> rfl

theorem current_mem (f : Frame) : f.current ∈ f.stack := by
  rw [stack_eq f]
  simp

theorem check?_mem {f : Frame} {m : Nat} (h : f.check? = some m) : m ∈ f.stack := by
  cases f <;> simp_all [check?, stack]

end Frame

/-- A region of the plan with its kind and the regions around it. -/
structure Plan.HasRegion (W : Plan) (n : Nat) (kind : ScopeKind) (outer : List Nat) : Prop where
  lt : n < W.base.length
  kind : (W.base.at? n).kind = kind
  outer : (W.base.at? n).outer = outer

/-- A loop of the plan with its three regions. -/
structure Plan.HasLoop (W : Plan) (l : String) (n : Nat) (outer : List Nat) : Prop where
  name : (W.base.at? n).name = l
  loop : W.HasRegion n .loop outer
  check : W.HasRegion (n + 1) .loopCheck (n :: outer)
  body : W.HasRegion (n + 2) .loopBody ((n + 1) :: n :: outer)
  below : ∀ m ∈ outer, m < n

/-- The regions of a frame are those of the plan. -/
def Plan.Shape (W : Plan) : Frame → Prop
  | .function => True
  | .side n up => W.HasRegion n .conditional up.stack ∧ (∀ m ∈ up.stack, m < n) ∧ W.Shape up
  | .loop l n up => W.HasLoop l n up.stack ∧ W.Shape up
  | .check l n up => W.HasLoop l n up.stack ∧ W.Shape up
  | .body l n up => W.HasLoop l n up.stack ∧ W.Shape up

/-- Every frame lies in the function. -/
theorem Frame.one_mem (f : Frame) : 1 ∈ f.stack := by
  induction f with
  | function => simp [stack]
  | _ => simp_all [stack]

/-- The exit that ends in the innermost region. -/
def Frame.end? : Frame → Option Escape
  | function => some .ret
  | loop l _ _ => some (.leave l)
  | body l _ _ => some (.next l)
  | _ => none

namespace Plan

variable {W : Plan} {f : Frame}

theorem Shape.current (h : W.Shape f) : ∃ kind, W.HasRegion f.current kind f.stack.tail := by
  cases f with
  | function => exact ⟨.function, W.functionLt, W.functionKind, W.functionOuter⟩
  | side n up => exact ⟨_, h.1⟩
  | loop l n up => exact ⟨_, h.1.loop⟩
  | check l n up => exact ⟨_, h.1.check⟩
  | body l n up => exact ⟨_, h.1.body⟩

theorem Shape.lt (h : W.Shape f) : f.current < W.base.length := by
  obtain ⟨kind, hregion⟩ := h.current
  exact hregion.lt

theorem Shape.ancestors (h : W.Shape f) : W.base.ancestors f.current = f.stack := by
  obtain ⟨kind, hregion⟩ := h.current
  rw [Regions.ancestors, hregion.outer, ← f.stack_eq]

theorem Shape.forall_stack (h : W.Shape f) {P : Nat → Prop} (hzero : P 0) (hone : P 1)
    (hregion : ∀ n kind outer, 1 < n → W.HasRegion n kind outer → P n) : ∀ m ∈ f.stack, P m := by
  induction f with
  | function =>
      intro m hm
      simp only [Frame.stack, List.mem_cons, List.not_mem_nil, or_false] at hm
      rcases hm with rfl | rfl
      · exact hone
      · exact hzero
  | side n up ih =>
      have hn := h.2.1 1 up.one_mem
      intro m hm
      rcases List.mem_cons.mp hm with rfl | hm
      · exact hregion m _ _ hn h.1
      · exact ih h.2.2 m hm
  | loop l n up ih =>
      have hn := h.1.below 1 up.one_mem
      intro m hm
      rcases List.mem_cons.mp hm with rfl | hm
      · exact hregion m _ _ hn h.1.loop
      · exact ih h.2 m hm
  | check l n up ih =>
      have hn := h.1.below 1 up.one_mem
      intro m hm
      simp only [Frame.stack, List.mem_cons] at hm
      rcases hm with rfl | rfl | hm
      · exact hregion _ _ _ (by omega) h.1.check
      · exact hregion _ _ _ hn h.1.loop
      · exact ih h.2 m hm
  | body l n up ih =>
      have hn := h.1.below 1 up.one_mem
      intro m hm
      simp only [Frame.stack, List.mem_cons] at hm
      rcases hm with rfl | rfl | rfl | hm
      · exact hregion _ _ _ (by omega) h.1.body
      · exact hregion _ _ _ (by omega) h.1.check
      · exact hregion _ _ _ hn h.1.loop
      · exact ih h.2 m hm

theorem Shape.stack_lt (h : W.Shape f) : ∀ m ∈ f.stack, m < W.base.length := by
  have hlt := W.functionLt
  exact h.forall_stack (by omega) hlt fun n kind outer _ hregion => hregion.lt

/-! ## Declarations -/

theorem findSome?_symbols {n : Nat} (hn : 1 < n) (name : String) (rest : List Nat) :
    ((n :: rest).findSome? fun m => ((W.base.at? m).symbols.lookup name).map (m, ·)) =
      rest.findSome? fun m => ((W.base.at? m).symbols.lookup name).map (m, ·) := by
  rw [List.findSome?_cons, W.symbols n (by omega)]
  rfl

/-- The variables of the body are found in the function. -/
theorem Shape.lookup (h : W.Shape f) {v : Variable} (hv : v ∈ W.vars) :
    ∃ w, W.base.lookup f.current v.name = some (1, w) := by
  rw [Regions.lookup, h.ancestors]
  induction f with
  | function =>
      obtain ⟨w, hw⟩ := Option.isSome_iff_exists.mp (W.declared v hv)
      exact ⟨w, by simp [Frame.stack, hw]⟩
  | side n up ih =>
      have hn := h.2.1 1 up.one_mem
      rw [Frame.stack, findSome?_symbols hn]
      exact ih h.2.2
  | loop l n up ih =>
      have hn := h.1.below 1 up.one_mem
      rw [Frame.stack, findSome?_symbols hn]
      exact ih h.2
  | check l n up ih =>
      have hn := h.1.below 1 up.one_mem
      rw [Frame.stack, findSome?_symbols (by omega), findSome?_symbols hn]
      exact ih h.2
  | body l n up ih =>
      have hn := h.1.below 1 up.one_mem
      rw [Frame.stack, findSome?_symbols (by omega), findSome?_symbols (by omega), findSome?_symbols hn]
      exact ih h.2

theorem Shape.symbolPath (h : W.Shape f) {v : Variable} (hv : v ∈ W.vars) :
    W.base.symbolPath f.current v.name = W.base.absolutePath 1 ++ "." ++ v.name := by
  obtain ⟨w, hw⟩ := h.lookup hv
  rw [Regions.symbolPath, hw]

theorem Shape.enclosing (h : W.Shape f) : W.base.enclosing f.current [.function] = some 1 := by
  rw [Regions.enclosing, h.ancestors]
  induction f with
  | function => simp [Frame.stack, W.functionKind]
  | side n up ih =>
      rw [Frame.stack, List.find?_cons_of_neg (by simp [h.1.kind])]
      exact ih h.2.2
  | loop l n up ih =>
      rw [Frame.stack, List.find?_cons_of_neg (by simp [h.1.loop.kind])]
      exact ih h.2
  | check l n up ih =>
      rw [Frame.stack, List.find?_cons_of_neg (by simp [h.1.check.kind]),
        List.find?_cons_of_neg (by simp [h.1.loop.kind])]
      exact ih h.2
  | body l n up ih =>
      rw [Frame.stack, List.find?_cons_of_neg (by simp [h.1.body.kind]),
        List.find?_cons_of_neg (by simp [h.1.check.kind]),
        List.find?_cons_of_neg (by simp [h.1.loop.kind])]
      exact ih h.2

/-! ## Exits -/

theorem HasLoop.place {l : String} {n : Nat} {up : Frame} (h : W.HasLoop l n up.stack) :
    W.place l = n := by
  have hn := h.below 1 up.one_mem
  rw [← h.name]
  exact W.place_name (by omega) h.loop.lt

theorem HasLoop.isLoop {l : String} {n : Nat} {up : Frame} (h : W.HasLoop l n up.stack) :
    W.IsLoop l := by
  have hplace := h.place
  constructor
  · rw [hplace]
    exact h.body.lt
  · rw [hplace]
    exact h.name
  · rw [hplace]
    exact h.loop.kind
  · rw [hplace]
    exact h.body.kind
  · rw [hplace, Regions.parent?, h.body.outer]
    rfl

theorem Shape.of_end? (h : W.Shape f) {e : Escape} (he : f.end? = some e) :
    W.valid e ∧ (W.exit e).consumer = f.current := by
  cases f with
  | function =>
      obtain rfl := Option.some.inj he
      exact ⟨trivial, rfl⟩
  | loop l n up =>
      obtain rfl := Option.some.inj he
      exact ⟨h.1.isLoop, h.1.place⟩
  | body l n up =>
      obtain rfl := Option.some.inj he
      exact ⟨h.1.isLoop, congrArg (· + 2) h.1.place⟩
  | side n up => exact absurd he (by simp [Frame.end?])
  | check l n up => exact absurd he (by simp [Frame.end?])

/-- An exit ends in the innermost region exactly when the frame says so. -/
theorem Shape.consumer_iff (h : W.Shape f) {e : Escape} (he : W.valid e) :
    (W.exit e).consumer = f.current ↔ f.end? = some e := by
  constructor
  · intro heq
    cases hend : f.end? with
    | some e' =>
        obtain ⟨he', hcurrent⟩ := h.of_end? hend
        rw [consumer_inj he he' (heq.trans hcurrent.symm)]
    | none =>
        -- Exits end in loops, bodies of loops and functions only.
        have hkind := he.kind
        rw [heq] at hkind
        cases f with
        | side n up =>
            have hside : (W.base.at? (Frame.side n up).current).kind = .conditional := h.1.kind
            rw [hside] at hkind
            cases e <;> simp [exit, landingKind] at hkind
        | check l n up =>
            have hcheck : (W.base.at? (Frame.check l n up).current).kind = .loopCheck := h.1.check.kind
            rw [hcheck] at hkind
            cases e <;> simp [exit, landingKind] at hkind
        | _ => simp [Frame.end?] at hend
  · intro hend
    exact (h.of_end? hend).2

/-- The loops of a frame are loops of the plan, and they are open. -/
theorem Shape.isLoop (h : W.Shape f) {l : String} (hl : l ∈ f.loops) :
    W.IsLoop l ∧ W.place l ∈ f.stack := by
  induction f with
  | function => simp [Frame.loops] at hl
  | side n up ih =>
      obtain ⟨hloop, hmem⟩ := ih h.2.2 hl
      exact ⟨hloop, List.mem_cons_of_mem _ hmem⟩
  | loop l' n up ih =>
      obtain ⟨hloop, hmem⟩ := ih h.2 hl
      exact ⟨hloop, List.mem_cons_of_mem _ hmem⟩
  | check l' n up ih =>
      obtain ⟨hloop, hmem⟩ := ih h.2 hl
      exact ⟨hloop, by simp [Frame.stack, hmem]⟩
  | body l' n up ih =>
      rcases List.mem_cons.mp hl with rfl | hl
      · exact ⟨h.1.isLoop, by simp [Frame.stack, h.1.place]⟩
      · obtain ⟨hloop, hmem⟩ := ih h.2 hl
        exact ⟨hloop, by simp [Frame.stack, hmem]⟩

theorem takeWhile_find?_skip {p : Nat → Bool} {stop n : Nat} {rest : List Nat} (hne : n ≠ stop)
    (hp : p n = false) :
    (((n :: rest).takeWhile (· ≠ stop)).find? p) = ((rest.takeWhile (· ≠ stop)).find? p) := by
  rw [List.takeWhile_cons_of_pos (by simpa using hne), List.find?_cons_of_neg (by simp [hp])]

theorem Shape.bodyOfLoop (h : W.Shape f) {l : String} (hl : l ∈ f.loops) :
    ((f.stack.takeWhile (· ≠ W.place l)).find? fun n =>
      (W.base.at? n).kind = .loopBody
        && ((W.base.parent? n).bind fun p => W.base.enclosing p [.loop]) = some (W.place l))
      = some (W.place l + 2) := by
  induction f with
  | function => simp [Frame.loops] at hl
  | side n up ih =>
      have hlt := h.2.1 _ (h.2.2.isLoop hl).2
      rw [Frame.stack, takeWhile_find?_skip (by omega) (by simp [h.1.kind])]
      exact ih h.2.2 hl
  | loop l' n up ih =>
      have hlt := h.1.below _ (h.2.isLoop hl).2
      rw [Frame.stack, takeWhile_find?_skip (by omega) (by simp [h.1.loop.kind])]
      exact ih h.2 hl
  | check l' n up ih =>
      have hlt := h.1.below _ (h.2.isLoop hl).2
      rw [Frame.stack, takeWhile_find?_skip (by omega) (by simp [h.1.check.kind]),
        takeWhile_find?_skip (by omega) (by simp [h.1.loop.kind])]
      exact ih h.2 hl
  | body l' n up ih =>
      have hparent : W.base.parent? (n + 2) = some (n + 1) := by
        rw [Regions.parent?, h.1.body.outer]
        rfl
      have hloop : W.base.enclosing (n + 1) [.loop] = some n := by
        rw [Regions.enclosing, Regions.ancestors, h.1.check.outer,
          List.find?_cons_of_neg (by simp [h.1.check.kind]),
          List.find?_cons_of_pos (by simp [h.1.loop.kind])]
      by_cases hplace : W.place l = n
      · rw [hplace, Frame.stack, List.takeWhile_cons_of_pos (by simp),
          List.find?_cons_of_pos (by simp [h.1.body.kind, hparent, hloop])]
      · have hl' : l ∈ up.loops := by
          rcases List.mem_cons.mp hl with rfl | hl
          · exact absurd h.1.place hplace
          · exact hl
        have hlt := h.1.below _ (h.2.isLoop hl').2
        rw [Frame.stack,
          takeWhile_find?_skip (by omega) (by simp [hparent, hloop]; omega),
          takeWhile_find?_skip (by omega) (by simp [h.1.check.kind]),
          takeWhile_find?_skip (by omega) (by simp [h.1.loop.kind])]
        exact ih h.2 hl'

end Plan

end Datapack.Generation
