import Datapack.Proofs.Generation.Positions

/-!
# Generating structured bodies

The generator lays the commands of a structured body out as `Target.Laid` asks for.  The proof follows
the body: each statement is generated inside the regions that are open, and what it leaves behind is
the commands of the innermost region, the closed regions with theirs, and marks of its exits on every
region they leave.
-/

namespace Datapack.Generation

open Ir Ir.Structured Command

variable {W : Plan} {f : Frame} {n n' i : Nat} {g g' g'' : Generation} {cs : List Command}

/-! ## Marks -/

/-- The exits are marked in every region they leave. -/
def Marked (W : Plan) (f : Frame) (es : List Escape) (g : Generation) : Prop :=
  ∀ e ∈ es, ∀ m ∈ f.stack.takeWhile (· ≠ (W.exit e).consumer), W.flagName e ∈ g.flagsAt m

theorem Marked.mono {es : List Escape} (h : Marked W f es g)
    (hmarks : ∀ m, ∀ flag ∈ g.flagsAt m, flag ∈ g'.flagsAt m) : Marked W f es g' :=
  fun e he m hm => hmarks m _ (h e he m hm)

theorem Marked.append {es es' : List Escape} (h : Marked W f es g) (h' : Marked W f es' g) :
    Marked W f (es ++ es') g := by
  intro e he
  rcases List.mem_append.mp he with he | he
  · exact h e he
  · exact h' e he

/-- Exits end in open regions. -/
theorem consumer_mem (hshape : W.Shape f) {e : Escape} (he : f.reaches e) :
    (W.exit e).consumer ∈ f.stack := by
  cases e with
  | ret => exact f.one_mem
  | leave l => exact (hshape.isLoop he).2
  | next l =>
      have hfind := List.mem_of_find?_eq_some (hshape.bodyOfLoop he)
      exact List.takeWhile_subset _ hfind

theorem reaches_of_fits {a : Stmt} (h : a.fits W.vars f.loops = true) {e : Escape} (he : e ∈ a.exits) :
    f.reaches e := by
  rcases Stmt.exits_of_fits h e he with rfl | ⟨l, hl, rfl | rfl⟩
  · trivial
  · exact hl
  · exact hl

/-- An exit that ends further out leaves a region just closed and is marked there. -/
theorem mem_takeWhile_cons {stack : List Nat} {m k : Nat} (hm : m ∈ stack) (hk : ∀ x ∈ stack, x < k) :
    (k :: stack).takeWhile (· ≠ m) = k :: stack.takeWhile (· ≠ m) := by
  have hlt := hk m hm
  exact List.takeWhile_cons_of_pos (by simp; omega)

/-! ## Closed regions -/

/-- The commands of the regions `n + 1` to `n'` stay. -/
def Kept (n n' : Nat) (g g' : Generation) : Prop :=
  ∀ m, n < m → m ≤ n' → g'.commandsAt m = g.commandsAt m

theorem Kept.trans (h : Kept n n' g g') (h' : Kept n n' g' g'') : Kept n n' g g'' :=
  fun m hm hle => (h' m hm hle).trans (h m hm hle)

theorem Kept.mono {lo hi : Nat} (h : Kept n n' g g') (hlo : n ≤ lo) (hhi : hi ≤ n') :
    Kept lo hi g g' :=
  fun m hm hle => h m (by omega) (by omega)

theorem Grown.kept (h : Grown W f n' g g' cs) (hbelow : ∀ m ∈ f.stack, m ≤ n) : Kept n n' g g' := by
  intro m hm hle
  refine h.commands_closed hle ?_
  intro hmem
  have := hbelow m hmem
  omega

/-- The texts of functions are the commands of the regions `n + 1` to `n'`. -/
def Agrees (W : Plan) (code : String → List Command) (n n' : Nat) (g : Generation) : Prop :=
  ∀ x, n < W.place x → W.place x ≤ n' → code x = g.commandsAt (W.place x)

theorem Agrees.of_kept {code : String → List Command} {lo hi : Nat} (h : Agrees W code n n' g')
    (hkept : Kept lo hi g g') (hlo : n ≤ lo) (hhi : hi ≤ n') : Agrees W code lo hi g := by
  intro x hx hle
  rw [h x (by omega) (by omega), hkept _ hx hle]

/-! ## Generated statements -/

/-- Generating a statement takes `g` to `g'`, adds `cs` to the innermost region and leaves its regions
closed behind it. -/
structure Generated (W : Plan) (f : Frame) (n i : Nat) (g : Generation) (a : Stmt) (g' : Generation)
    (cs : List Command) : Prop where
  processes : Processes i g a.stream g'
  advances : Advances W f n (n + a.names.length) g g' cs
  marked : Marked W f a.exits g'
  laid : ∀ code resets, Agrees W code n (n + a.names.length) g' →
    (∀ m, f.check? = some m → m ∈ g'.resets → resets = true) →
    W.target.Laid code (f.role resets) (g'.fresh + 1) a cs

/-- Wherever it stands, a statement is generated. The region of a loop itself holds none. -/
def Generates (W : Plan) (a : Stmt) : Prop :=
  ∀ f n i g, Stands W f n i g a.stream → (∀ l m up, f ≠ .loop l m up) →
    a.fits W.vars f.loops = true → ∃ g' cs, Generated W f n i g a g' cs

theorem generates_skip : Generates W .skip := by
  intro f n i g hstands _ _
  refine ⟨g, [], .nil, .refl hstands.ready hstands.pristine, by simp [Marked, Stmt.exits], ?_⟩
  intro code resets _ _
  rfl

theorem generates_data (d : Data) : Generates W (.data d) := by
  intro f n i g hstands _ hfits
  obtain ⟨g', cs, hprocesses, hadvances, hcomputes⟩ := processes_data hstands.ready hstands.shape
    hstands.pristine (hstands.below _ f.current_mem) hfits i
  exact ⟨g', cs, hprocesses, hadvances, by simp [Marked, Stmt.exits], fun _ _ _ _ => hcomputes⟩

theorem generates_seq {a b : Stmt} (ha : Generates W a) (hb : Generates W b) :
    Generates W (.seq a b) := by
  intro f n i g hstands hloop hfits
  simp only [Stmt.fits, Bool.and_eq_true] at hfits
  obtain ⟨g₁, first, hfirst⟩ := ha f n i g hstands.left hloop hfits.1
  have hright := hstands.right hfirst.advances (after_stream a _)
  obtain ⟨g₂, second, hsecond⟩ := hb f _ _ g₁ hright hloop hfits.2
  have hnames : n + (Stmt.seq a b).names.length = n + a.names.length + b.names.length := by
    simp [Stmt.names, Nat.add_assoc]
  refine ⟨g₂, first ++ second, hfirst.processes.append hsecond.processes, ?_, ?_, ?_⟩
  · rw [hnames]
    exact hfirst.advances.trans hsecond.advances (Nat.le_add_right _ _)
  · exact (hfirst.marked.mono hsecond.advances.grown.marks).append hsecond.marked
  · intro code resets hagrees hresets
    rw [hnames] at hagrees
    have hkept := hsecond.advances.grown.kept hstands.below
    refine ⟨first, second, rfl, ?_, ?_⟩
    · refine (hfirst.laid code resets (hagrees.of_kept hkept (Nat.le_refl n) (by omega)) ?_).mono ?_
      · intro m hm hmem
        exact hresets m hm (hsecond.advances.grown.resets m hmem)
      · exact Nat.succ_le_succ hsecond.advances.grown.fresh
    · exact hsecond.laid code resets (hagrees.of_kept (fun _ _ _ => rfl) (by omega) (Nat.le_refl _))
        hresets

theorem exitCode_role (W : Plan) (f : Frame) (resets : Bool) (e : Escape) :
    W.target.exitCode (f.role resets) e = W.target.exitCode (f.role false) e := by
  cases f <;> cases e <;> rfl

theorem generates_exit {a : Stmt} {e : Escape} (hstream : a.stream = [exitIns e])
    (hexits : a.exits = [e]) (hnames : a.names = [])
    (hlaid : ∀ code role hi, W.target.Laid code role hi a (W.target.exitCode role e)) :
    Generates W a := by
  intro f n i g hstands hloop hfits
  have hreaches : f.reaches e := reaches_of_fits hfits (by simp [hexits])
  obtain ⟨g', hprocesses, hadvances, hmarked⟩ := processes_exit hstands.ready hstands.shape
    hstands.pristine (hstands.below _ f.current_mem) hloop hreaches false i
  refine ⟨g', _, by rwa [hstream], by rwa [hnames], ?_, ?_⟩
  · intro x hx
    rw [hexits, List.mem_singleton] at hx
    rw [hx]
    exact hmarked
  · intro code resets _ _
    rw [← exitCode_role W f resets]
    exact hlaid code _ _

/-! ## Tests behind calls -/

theorem answer_role (W : Plan) (hloop : ∀ l m up, f ≠ .loop l m up) (resets : Bool) (e : Escape) :
    f.answer W e = W.target.check (f.role resets) e := by
  cases f with
  | loop l m up => exact absurd rfl (hloop l m up)
  | body l m up => cases e <;> rfl
  | function | side m up | check l m up => rfl

theorem map_answer_role (W : Plan) (hloop : ∀ l m up, f ≠ .loop l m up) (resets : Bool)
    (flags : List Escape) :
    flags.map (f.answer W) = flags.map (W.target.check (f.role resets)) :=
  List.map_congr_left fun e _ => answer_role W hloop resets e

/-- Flags that a region goes on with are lowered elsewhere. -/
theorem Answers.handles {callees : List Nat} {flags : List Escape} {resets : Bool}
    (h : Answers W f g g' callees flags)
    (hresets : ∀ m, f.check? = some m → m ∈ g'.resets → resets = true) :
    ∀ e ∈ flags, W.valid e ∧ (f.role resets).handles e := by
  intro e he
  refine ⟨h.valid e he, ?_⟩
  cases f with
  | body l m up =>
      cases resets with
      | true => trivial
      | false =>
          rintro rfl
          have hmem := h.settled _ he l m up rfl rfl
          exact absurd (hresets _ rfl hmem) (by simp)
  | function | side m up | loop l m up | check l m up => trivial

/-! ## Branches -/

def sideCount (x : String) (a : Stmt) : Nat := if x = "" then 0 else a.names.length + 1

/-- A side of a branch is generated in a region of its own. -/
structure Sided (W : Plan) (f : Frame) (n i : Nat) (g : Generation) (x : String) (a : Stmt)
    (g' : Generation) : Prop where
  processes : Processes i g (side x a.stream) g'
  advances : Advances W f n (n + sideCount x a) g g' []
  isRegion : x ≠ "" → W.IsRegion x
  marked : Marked W f a.exits g'
  called : ∀ e ∈ a.exits, ∃ m ∈ W.sidePlace x, W.flagName e ∈ g'.flagsAt m
  laid : ∀ code, Agrees W code n (n + sideCount x a) g' → x ≠ "" →
    W.target.Laid code .inner (g'.fresh + 1) a (code x)

theorem generates_side {a : Stmt} (ha : Generates W a) {x : String} (habsent : x = "" → a = .skip)
    (hstands : Stands W f n i g (side x a.stream)) (hfits : a.fits W.vars f.loops = true) :
    ∃ g', Sided W f n i g x a g' := by
  by_cases hx : x = ""
  · obtain rfl := habsent hx
    have hcount : sideCount x .skip = 0 := if_pos hx
    have hside : side x Stmt.skip.stream = [] := if_pos hx
    refine ⟨g, ?_, ?_, fun h => absurd hx h, nofun, nofun, fun _ _ h => absurd hx h⟩
    · rw [hside]
      exact .nil
    · rw [hcount]
      exact .refl hstands.ready hstands.pristine
  · have hside : side x a.stream = region x .conditional a.stream := if_neg hx
    have hcount : n + sideCount x a = n + 1 + a.names.length := by
      rw [sideCount, if_neg hx]
      omega
    rw [hside] at hstands
    -- The region of the side is the next one to be opened.
    have hbelow : ∀ m ∈ f.stack, m < n + 1 := fun m hm => Nat.lt_succ_of_le (hstands.below m hm)
    have hstack : (Frame.side (n + 1) f).stack = (n + 1) :: f.stack := rfl
    have hinner := hstands.enter hstack ⟨hstands.sits.hasRegion.2, hbelow, hstands.shape⟩
    obtain ⟨g₁, cs, hgenerated⟩ := ha _ _ _ _ hinner nofun hfits
    have hprocesses := hstands.processes_region hgenerated.advances.ready hstack hgenerated.processes
    have hadvances := (hgenerated.advances.leave (j := i + 1 + a.stream.length) hstands.pristine hstack
      nofun).1
    have hcommands := hgenerated.advances.leave_commands (j := i + 1 + a.stream.length) hstands.pristine
      hstack nofun nofun
    have hplace : W.place x = n + 1 := hstands.sits.place
    have hmarks : ∀ e ∈ a.exits, ∀ m ∈ (n + 1) :: f.stack.takeWhile (· ≠ (W.exit e).consumer),
        W.flagName e ∈ g₁.flagsAt m := by
      intro e he
      have hconsumer := consumer_mem hstands.shape (reaches_of_fits hfits he)
      rw [← mem_takeWhile_cons hconsumer hbelow]
      exact hgenerated.marked e he
    refine ⟨_, by rw [hside]; exact hprocesses, by rw [hcount]; exact hadvances,
      fun _ => hstands.sits.isRegion, ?_, ?_, ?_⟩
    · intro e he m hm
      exact hmarks e he m (List.mem_cons_of_mem _ hm)
    · intro e he
      refine ⟨W.place x, by simp [Plan.sidePlace, hx], ?_⟩
      rw [hplace]
      exact hmarks e he _ List.mem_cons_self
    · intro code hagrees _
      rw [hagrees x (by omega) (by omega), hplace, hcommands]
      rw [hcount] at hagrees
      have hagrees' : Agrees W code (n + 1) _ g₁ :=
        hagrees.of_kept (fun _ _ _ => rfl) (Nat.le_succ n) (Nat.le_refl _)
      exact hgenerated.laid code false hagrees' nofun

theorem generates_branch {c : Variable} {t u : String} {a b : Stmt} (ha : Generates W a)
    (hb : Generates W b) : Generates W (.branch c t a u b) := by
  intro f n i g hstands hloop hfits
  simp only [Stmt.fits, Bool.and_eq_true, Bool.or_eq_true, decide_eq_true_eq] at hfits
  obtain ⟨⟨⟨⟨hc, ht⟩, hu⟩, hfitsa⟩, hfitsb⟩ := hfits
  have habsent : t = "" → a = .skip := fun h => ht.resolve_left (not_not_intro h)
  have habsent' : u = "" → b = .skip := fun h => hu.resolve_left (not_not_intro h)
  -- Both sides are generated before the jump that selects one.
  obtain ⟨g₁, hyes⟩ := generates_side ha habsent hstands.left.left hfitsa
  have hafter : ∀ (m : Nat) (x : String) (a : Stmt),
      Position.after ⟨f.stack, m⟩ (side x a.stream) = ⟨f.stack, m + sideCount x a⟩ :=
    fun m x a => after_side (after_stream a)
  have hstands₁ := hstands.left.right hyes.advances (hafter n t a)
  obtain ⟨g₂, hno⟩ := generates_side hb habsent' hstands₁ hfitsb
  have hsides := hyes.advances.trans hno.advances (Nat.le_add_right _ _)
  have hstands₂ := hstands.right hsides (by rw [Position.after_append, hafter, hafter])
  obtain ⟨flags, g₃, hjump, hadvances, hanswers, hfresh⟩ := processes_branch hstands₂.ready
    hstands₂.shape hstands₂.pristine hstands₂.below hc hyes.isRegion hno.isRegion
    (i + (side t a.stream ++ side u b.stream).length)
  have hnames : n + (Stmt.branch c t a u b).names.length = n + sideCount t a + sideCount u b := by
    have hlength : ∀ (x : String) (a : Stmt),
        (if x = "" then [] else x :: a.names).length = sideCount x a := by
      intro x a
      unfold sideCount
      split <;> rfl
    simp only [Stmt.names, List.length_append, hlength, Nat.add_assoc]
  have hcomplete : ∀ e ∈ a.exits ++ b.exits, e ∈ flags := by
    intro e he
    rcases List.mem_append.mp he with he | he
    · obtain ⟨m, hm, hmem⟩ := hyes.called e he
      exact hanswers.complete m (List.mem_append_left _ hm) e
        (valid_of_reaches hstands.shape (reaches_of_fits hfitsa he)) (hno.advances.grown.marks m _ hmem)
    · obtain ⟨m, hm, hmem⟩ := hno.called e he
      exact hanswers.complete m (List.mem_append_right _ hm) e
        (valid_of_reaches hstands.shape (reaches_of_fits hfitsb he)) hmem
  have hall := hsides.trans hadvances (by omega)
  rw [← hnames] at hall
  refine ⟨g₃, _, (hyes.processes.append hno.processes).append hjump, hall, ?_, ?_⟩
  · have hmarked := (hyes.marked.mono hno.advances.grown.marks).append hno.marked
    exact hmarked.mono hadvances.grown.marks
  · intro code resets hagrees hresets
    rw [hnames] at hagrees
    have hkept := hadvances.grown.kept hstands.below
    have hlaidb := hno.laid code (hagrees.of_kept (hkept.mono (by omega) (Nat.le_refl _)) (by omega)
      (Nat.le_refl _))
    have hkept' := hno.advances.grown.kept hstands.below
    have hlaida := hyes.laid code (hagrees.of_kept
      (hkept'.trans (hkept.mono (Nat.le_refl _) (by omega))) (Nat.le_refl _) (by omega))
    refine ⟨g₂.fresh + 1, flags, Nat.succ_le_succ hadvances.grown.fresh, ?_, hc, ?_,
      hanswers.handles hresets, hcomplete, habsent, habsent', ?_, ?_⟩
    · intro hboth
      exact Nat.lt_succ_of_le (hfresh hboth)
    · rw [List.append_nil, List.nil_append, map_answer_role W hloop resets]
    · intro hne
      exact (hlaida hne).mono (Nat.succ_le_succ hno.advances.grown.fresh)
    · exact hlaidb

/-! ## Loops -/

theorem generates_tests (ds : List Data) (hstands : Stands W f n i g (ds.map Data.ins))
    (hfits : ∀ d ∈ ds, d.fits W.vars = true) :
    ∃ g' cs, Processes i g (ds.map Data.ins) g' ∧ Advances W f n n g g' cs ∧
      W.target.Computes cs ds := by
  induction ds generalizing i g with
  | nil => exact ⟨g, [], .nil, .refl hstands.ready hstands.pristine, .nil⟩
  | cons d ds ih =>
      obtain ⟨g₁, first, hprocesses₁, hadvances₁, hcomputes₁⟩ := processes_data hstands.ready
        hstands.shape hstands.pristine (hstands.below _ f.current_mem) (hfits d (by simp)) i
      have hstands₁ := Stands.right (s := [d.ins]) hstands hadvances₁ (after_data _ d)
      obtain ⟨g₂, rest, hprocesses₂, hadvances₂, hcomputes₂⟩ :=
        ih hstands₁ fun x hx => hfits x (by simp [hx])
      exact ⟨g₂, first ++ rest, hprocesses₁.append hprocesses₂,
        hadvances₁.trans hadvances₂ (Nat.le_refl n), hcomputes₁.append hcomputes₂⟩

def checkStream (k b : String) (test : List Data) (c : Variable) (a : Stmt) : Stream :=
  test.map Data.ins ++ region b .loopBody (a.stream ++ [.jump k]) ++ [.condJump (some (.var c)) b ""]

theorem Plan.Sits.hasLoop {l k b : String} {test : List Data} {c : Variable} {a : Stmt}
    {s : Stream} (hbelow : ∀ m ∈ f.stack, m ≤ n)
    (h : W.Sits f n i (region l .loop (region k .loopCheck (checkStream k b test c a) ++ s))) :
    W.HasLoop l (n + 1) f.stack ∧ W.place k = n + 2 ∧ W.IsRegion k ∧ W.place b = n + 3 ∧
      W.IsRegion b := by
  obtain ⟨hname, hloop⟩ := h.hasRegion
  have hinner : W.Sits (.side (n + 1) f) (n + 1) (i + 1) (region k .loopCheck _) :=
    (h.enter rfl).left.left
  have hcheck : W.Sits (.side (n + 2) (.side (n + 1) f)) (n + 2) (i + 2) (checkStream k b test c a) :=
    (hinner.enter rfl).left
  have hbody : W.Sits (.side (n + 2) (.side (n + 1) f)) (n + 2) (i + 2 + (test.map Data.ins).length)
      (region b .loopBody (a.stream ++ [.jump k])) := hcheck.left.right (after_datas _ test)
  refine ⟨⟨hname, hloop, hinner.hasRegion.2, hbody.hasRegion.2, ?_⟩, hinner.place, hinner.isRegion,
    hbody.place, hbody.isRegion⟩
  intro m hm
  exact Nat.lt_succ_of_le (hbelow m hm)

/-- The body of a loop is generated in its region and goes back to the check. -/
structure RoundDone (W : Plan) (l k b : String) (q i : Nat) (up : Frame) (g : Generation) (a : Stmt)
    (g' : Generation) (round : List Command) : Prop where
  processes : Processes i g (region b .loopBody (a.stream ++ [.jump k])) g'
  advances : Advances W (.check l q up) (q + 1) (q + 2 + a.names.length) g g' []
  commands : g'.commandsAt (q + 2) = round ++ [.returnRun (.call (W.target.ref k))]
  marked : Marked W (.body l q up) a.exits g'
  laid : ∀ code resets, Agrees W code (q + 2) (q + 2 + a.names.length) g' →
    (q + 1 ∈ g'.resets → resets = true) →
    W.target.Laid code (.body l resets) (g'.fresh + 1) a round

theorem generates_round {l k b : String} {q : Nat} {up : Frame} {a : Stmt} (ha : Generates W a)
    (hstands : Stands W (.check l q up) (q + 1) i g (region b .loopBody (a.stream ++ [.jump k])))
    (hk : W.place k = q + 1) (hregion : W.IsRegion k) (hfits : a.fits W.vars (l :: up.loops) = true) :
    ∃ g' round, RoundDone W l k b q i up g a g' round := by
  have hstack : (Frame.body l q up).stack = (q + 1 + 1) :: (Frame.check l q up).stack := rfl
  have hcheck : ∀ m, (Frame.body l q up).check? = some m →
      q + 1 < m ∨ (Frame.check l q up).check? = some m := fun m hm => .inr hm
  have hinner := hstands.enter hstack hstands.shape
  obtain ⟨g₁, round, hround⟩ := ha _ _ _ _ hinner.left nofun hfits
  have hinner₁ := hinner.right hround.advances (after_stream a _)
  have hopen : W.place k ∈ (Frame.body l q up).stack := by simp [Frame.stack, hk]
  obtain ⟨g₂, hback, hadvances⟩ := processes_back hinner₁.ready hinner₁.shape hinner₁.pristine
    (hinner₁.below _ (Frame.body l q up).current_mem) hregion hopen
    (i + 1 + a.stream.length)
  have hall := hround.advances.trans hadvances (Nat.le_add_right _ _)
  refine ⟨_, round, hstands.processes_region hall.ready hstack (hround.processes.append hback),
    (hall.leave hstands.pristine hstack hcheck).1,
    hall.leave_commands hstands.pristine hstack hcheck (by simp [Frame.check?]),
    hround.marked.mono hadvances.grown.marks, ?_⟩
  intro code resets hagrees hresets
  have hkept := hadvances.grown.kept hinner.below
  refine (hround.laid code resets (hagrees.of_kept hkept (Nat.le_refl _) (Nat.le_refl _)) ?_).mono ?_
  · rintro m ⟨⟩ hmem
    exact hresets (hadvances.grown.resets _ hmem)
  · exact Nat.succ_le_succ hadvances.grown.fresh

def Plan.checkCode (W : Plan) (l b : String) (c : Variable) (resets : Bool) (tests : List Command)
    (below : List Escape) : List Command :=
  (if resets then [.setScore (W.target.flag (.next l)) 0] else []) ++ (tests
    ++ .guarded .fails (W.target.slot c) (.exactly 0) (.call (W.target.ref b))
      :: below.map (W.target.check .inner))

/-- The check of a loop is generated in its region, with the body inside. -/
structure CheckDone (W : Plan) (l k b : String) (q i : Nat) (up : Frame) (g : Generation)
    (test : List Data) (c : Variable) (a : Stmt) (g' : Generation) (resets : Bool)
    (tests round : List Command) (below : List Escape) : Prop where
  processes : Processes i g (region k .loopCheck (checkStream k b test c a)) g'
  advances : Advances W (.loop l q up) q (q + 2 + a.names.length) g g' []
  check : g'.commandsAt (q + 1) = W.checkCode l b c resets tests below
  body : g'.commandsAt (q + 2) = round ++ [.returnRun (.call (W.target.ref k))]
  computes : W.target.Computes tests test
  marked : Marked W (.body l q up) a.exits g'
  laid : ∀ code, Agrees W code (q + 2) (q + 2 + a.names.length) g' →
    W.target.Laid code (.body l resets) (g'.fresh + 1) a round

theorem reset_eq {l : String} {q : Nat} (hplace : W.place l = q) :
    W.reset (q + 1) = .setScore (W.target.flag (.next l)) 0 := by
  simp only [Plan.reset, Plan.target, Plan.flagName, Plan.exit, hplace]

theorem generates_check {l k b : String} {q : Nat} {up : Frame} {test : List Data} {c : Variable}
    {a : Stmt} (ha : Generates W a)
    (hstands : Stands W (.loop l q up) q i g (region k .loopCheck (checkStream k b test c a)))
    (hk : W.place k = q + 1) (hregion : W.IsRegion k) (hb : W.IsRegion b)
    (htest : ∀ d ∈ test, d.fits W.vars = true) (hc : c ∈ W.vars)
    (hfits : a.fits W.vars (l :: up.loops) = true) :
    ∃ g' resets tests round below,
      CheckDone W l k b q i up g test c a g' resets tests round below := by
  have hstack : (Frame.check l q up).stack = (q + 1) :: (Frame.loop l q up).stack := rfl
  have hcheck : ∀ m, (Frame.check l q up).check? = some m →
      q < m ∨ (Frame.loop l q up).check? = some m := by
    rintro m ⟨⟩
    exact .inl (Nat.lt_succ_self q)
  have hinner := hstands.enter hstack hstands.shape
  obtain ⟨g₁, tests, htests, hadvances₁, hcomputes⟩ := generates_tests test hinner.left.left htest
  have hinner₁ := hinner.left.right hadvances₁ (after_datas _ test)
  obtain ⟨g₂, round, hround⟩ := generates_round ha hinner₁ hk hregion hfits
  have hfirst := hadvances₁.trans hround.advances (Nat.le_refl _)
  have hbefore : Position.after ⟨(Frame.check l q up).stack, q + 1⟩
      (test.map Data.ins ++ region b .loopBody (a.stream ++ [.jump k]))
        = ⟨(Frame.check l q up).stack, q + 2 + a.names.length⟩ := by
    rw [Position.after_append, after_datas, after_region (m := q + 2 + a.names.length)]
    rw [Position.after_append, after_stream]
    rfl
  have hinner₂ := hinner.right hfirst hbefore
  have hbody : b ≠ "" := by
    rw [← hb.name]
    exact isIdentifier_ne_empty (W.named (by simp [Plan.place]) hb.lt).identifier
  obtain ⟨below, g₃, hjump, hadvances₃, hanswers, -⟩ := processes_branch (u := "") hinner₂.ready
    hinner₂.shape hinner₂.pristine hinner₂.below hc (fun _ => hb) (fun h => absurd rfl h)
    (i + 1 + (test.map Data.ins ++ region b .loopBody (a.stream ++ [.jump k])).length)
  have hall := hfirst.trans hadvances₃ (by omega)
  have hkept : Kept (q + 1) (q + 2 + a.names.length) g₂ g₃ := hadvances₃.grown.kept hinner.below
  refine ⟨leaveTo (.loop l q up) _ g₃, decide (q + 1 ∈ g₃.resets), tests, round, below,
    hstands.processes_region hall.ready hstack ((htests.append hround.processes).append hjump),
    (hall.leave hstands.pristine hstack hcheck).1, ?_, ?_, hcomputes,
    hround.marked.mono hadvances₃.grown.marks, ?_⟩
  · rw [(hall.leave hstands.pristine hstack hcheck).2, reset_eq hstands.shape.1.place]
    have hcode : ([] : List Command) ++ (W.target.saving (g₂.fresh + 1) c b ""
        ++ (W.target.sideCall .fails (W.target.tested (g₂.fresh + 1) c b "") b
          ++ (W.target.sideCall .holds (W.target.tested (g₂.fresh + 1) c b "") ""
            ++ below.map ((Frame.check l q up).answer W))))
        = .guarded .fails (W.target.slot c) (.exactly 0) (.call (W.target.ref b))
          :: below.map (W.target.check .inner) := by
      simp [Target.saving, Target.sideCall, Target.tested, hbody, Frame.answer, Frame.role]
    rw [List.append_assoc, hcode]
    simp only [Plan.checkCode, decide_eq_true_eq]
    rfl
  · rw [← hround.commands]
    exact hkept (q + 2) (by omega) (by omega)
  · intro code hagrees
    have hkept' : Kept (q + 2) (q + 2 + a.names.length) g₂ g₃ := hkept.mono (by omega) (Nat.le_refl _)
    refine (hround.laid code _ (hagrees.of_kept hkept' (Nat.le_refl _) (Nat.le_refl _)) ?_).mono ?_
    · intro hmem
      exact decide_eq_true (hadvances₃.grown.resets _ hmem)
    · exact Nat.succ_le_succ hadvances₃.grown.fresh

/-- The region of a loop calls the check and lowers the flag of `leave`. -/
structure LoopDone (W : Plan) (l k b : String) (n i : Nat) (f : Frame) (g : Generation)
    (test : List Data) (c : Variable) (a : Stmt) (g' : Generation) (resets : Bool)
    (tests round : List Command) (above below : List Escape) : Prop where
  processes : Processes i g
    (region l .loop (region k .loopCheck (checkStream k b test c a) ++ [.jump k])) g'
  advances : Advances W f n (n + (a.names.length + 3)) g g' []
  loop : g'.commandsAt (n + 1) = .call (W.target.ref k) :: above.map (W.target.landing l)
  check : g'.commandsAt (n + 2) = W.checkCode l b c resets tests below
  body : g'.commandsAt (n + 3) = round ++ [.returnRun (.call (W.target.ref k))]
  computes : W.target.Computes tests test
  valid : ∀ e ∈ above, W.valid e
  leaves : .leave l ∈ a.exits → .leave l ∈ above
  marked : Marked W (.body l (n + 1) f) a.exits g'
  laid : ∀ code, Agrees W code (n + 3) (n + (a.names.length + 3)) g' →
    W.target.Laid code (.body l resets) (g'.fresh + 1) a round

theorem generates_loopRegion {l k b : String} {test : List Data} {c : Variable} {a : Stmt}
    (ha : Generates W a) (htest : ∀ d ∈ test, d.fits W.vars = true) (hc : c ∈ W.vars)
    (hfits : a.fits W.vars (l :: f.loops) = true)
    (hstands : Stands W f n i g
      (region l .loop (region k .loopCheck (checkStream k b test c a) ++ [.jump k]))) :
    ∃ g' resets tests round above below,
      LoopDone W l k b n i f g test c a g' resets tests round above below := by
  obtain ⟨hloop, hk, hregion, -, hb⟩ := hstands.sits.hasLoop hstands.below
  have hstack : (Frame.loop l (n + 1) f).stack = (n + 1) :: f.stack := rfl
  have hinner := hstands.enter hstack ⟨hloop, hstands.shape⟩
  obtain ⟨g₁, resets, tests, round, below, hcheck⟩ :=
    generates_check ha hinner.left hk hregion hb htest hc hfits
  have hnames : n + (a.names.length + 3) = n + 1 + 2 + a.names.length := by omega
  have hbefore : Position.after ⟨(Frame.loop l (n + 1) f).stack, n + 1⟩
      (region k .loopCheck (checkStream k b test c a))
        = ⟨(Frame.loop l (n + 1) f).stack, n + 1 + 2 + a.names.length⟩ := by
    rw [after_region (m := n + 1 + 2 + a.names.length)]
    rw [checkStream, Position.after_append, Position.after_append, after_datas,
      after_region (m := n + 1 + 2 + a.names.length)]
    · rfl
    · rw [Position.after_append, after_stream]
      rfl
  have hinner₁ := hinner.right hcheck.advances hbefore
  have hclosed : W.place k ∉ (Frame.loop l (n + 1) f).stack := by
    intro hmem
    have hle := hinner.below _ hmem
    omega
  obtain ⟨above, g₂, hjump, hadvances, hanswers⟩ := processes_call hinner₁.ready hinner₁.shape
    hinner₁.pristine hinner₁.below hregion hclosed
    (i + 1 + (region k .loopCheck (checkStream k b test c a)).length)
  have hall := hcheck.advances.trans hadvances (by omega)
  have hkept : Kept (n + 1) (n + 1 + 2 + a.names.length) g₁ g₂ := hadvances.grown.kept hinner.below
  refine ⟨leaveTo f _ g₂, resets, tests, round, above, below,
    hstands.processes_region hall.ready hstack (hcheck.processes.append hjump), ?_,
    hall.leave_commands hstands.pristine hstack nofun nofun, ?_, ?_, hcheck.computes,
    hanswers.valid, ?_, hcheck.marked.mono hadvances.grown.marks, ?_⟩
  · rw [hnames]
    exact (hall.leave hstands.pristine hstack nofun).1
  · rw [← hcheck.check]
    exact hkept (n + 2) (by omega) (by omega)
  · rw [← hcheck.body]
    exact hkept (n + 3) (by omega) (by omega)
  · intro he
    have hplace : (W.exit (.leave l)).consumer = n + 1 := hloop.place
    refine hanswers.complete (W.place k) (by simp) _ hloop.isLoop ?_
    rw [hk]
    refine hcheck.marked _ he (n + 2) ?_
    rw [hplace, Frame.stack, List.takeWhile_cons_of_pos (by simp), List.takeWhile_cons_of_pos (by simp)]
    simp
  · intro code hagrees
    rw [hnames] at hagrees
    have hkept' : Kept (n + 3) (n + 1 + 2 + a.names.length) g₁ g₂ := hkept.mono (by omega) (Nat.le_refl _)
    refine (hcheck.laid code (hagrees.of_kept hkept' (Nat.le_refl _) (Nat.le_refl _))).mono ?_
    exact Nat.succ_le_succ hadvances.grown.fresh

/-- The exits that go on behind a loop leave its region. -/
theorem LoopDone.marked_outside {l k b : String} {test : List Data} {c : Variable} {a : Stmt}
    {resets : Bool} {tests round : List Command} {above below : List Escape}
    (h : LoopDone W l k b n i f g test c a g' resets tests round above below) (hshape : W.Shape f)
    (hbelow : ∀ m ∈ f.stack, m ≤ n) (hfits : (Stmt.loop l k b test c a).fits W.vars f.loops = true)
    {e : Escape} (he : e ∈ (Stmt.loop l k b test c a).exits) :
    ∀ m ∈ (n + 1) :: f.stack.takeWhile (· ≠ (W.exit e).consumer), W.flagName e ∈ g'.flagsAt m := by
  have hle := hbelow _ (consumer_mem hshape (reaches_of_fits hfits he))
  have hmem : e ∈ a.exits := List.mem_of_mem_filter he
  have hmarked := h.marked e hmem
  rw [Frame.stack, List.takeWhile_cons_of_pos (by simp; omega),
    List.takeWhile_cons_of_pos (by simp; omega), List.takeWhile_cons_of_pos (by simp; omega)] at hmarked
  intro m hm
  exact hmarked m (List.mem_cons_of_mem _ (List.mem_cons_of_mem _ hm))

theorem generates_loop {l k b : String} {test : List Data} {c : Variable} {a : Stmt}
    (ha : Generates W a) : Generates W (.loop l k b test c a) := by
  intro f n i g hstands hplain hfits
  have hparts := hfits
  simp only [Stmt.fits, Bool.and_eq_true, List.all_eq_true, decide_eq_true_eq] at hparts
  obtain ⟨⟨htest, hc⟩, hfitsa⟩ := hparts
  obtain ⟨g₁, resets, tests, round, above, below, hdone⟩ :=
    generates_loopRegion ha htest hc hfitsa hstands.left
  obtain ⟨hloop, hk, -, hb, -⟩ := hstands.left.sits.hasLoop hstands.below
  have hl : W.place l = n + 1 := hstands.left.sits.place
  have hstands₁ := hstands.right hdone.advances (by
    have hafter := after_stream (.loop l k b test c a) ⟨f.stack, n⟩
    rw [Stmt.stream, Position.after_append] at hafter
    exact hafter)
  have hclosed : W.place l ∉ f.stack := by
    intro hmem
    have hle := hstands.below _ hmem
    omega
  obtain ⟨flags, g₂, hjump, hadvances, hanswers⟩ := processes_call hstands₁.ready hstands₁.shape
    hstands₁.pristine hstands₁.below hstands.left.sits.isRegion hclosed _
  have hmarked := fun e he => hdone.marked_outside hstands.shape hstands.below hfits (e := e) he
  have hcomplete : ∀ e ∈ (Stmt.loop l k b test c a).exits, e ∈ flags := by
    intro e he
    have hvalid := valid_of_reaches hstands.shape (reaches_of_fits hfits he)
    refine hanswers.complete (W.place l) (by simp) e hvalid ?_
    rw [hl]
    exact hmarked e he _ List.mem_cons_self
  have hkept : Kept n (n + (a.names.length + 3)) g₁ g₂ := hadvances.grown.kept hstands.below
  refine ⟨g₂, _, hdone.processes.append hjump, hdone.advances.trans hadvances (Nat.le_add_right _ _),
    ?_, ?_⟩
  · intro e he m hm
    exact hadvances.grown.marks m _ (hmarked e he m (List.mem_cons_of_mem _ hm))
  · intro code resets' hagrees hresets
    have hcode : ∀ x m, W.place x = m → n < m → m ≤ n + (a.names.length + 3) →
        code x = g₁.commandsAt m := by
      rintro x m rfl hlt hle
      rw [hagrees x hlt hle, hkept _ hlt hle]
    refine ⟨flags, above, below, tests, round, resets, ?_, hanswers.handles hresets, hcomplete, ?_,
      hdone.valid, hdone.leaves, ?_, ?_, hc, ?_, hdone.computes, ?_⟩
    · rw [List.nil_append, map_answer_role W hplain resets']
    · rw [hcode l _ hl (by omega) (by omega), hdone.loop]
    · rw [hcode k _ hk (by omega) (by omega), hdone.check]
      rfl
    · rw [hcode b _ hb (by omega) (by omega), hdone.body]
    · simp only [Plan.target, hl, hk]
    · have hkept' : Kept (n + 3) (n + (a.names.length + 3)) g₁ g₂ := hkept.mono (by omega) (Nat.le_refl _)
      refine (hdone.laid code (hagrees.of_kept hkept' (by omega) (Nat.le_refl _))).mono ?_
      exact Nat.succ_le_succ hadvances.grown.fresh

theorem generates (a : Stmt) : Generates W a := by
  induction a with
  | skip => exact generates_skip
  | data d => exact generates_data d
  | seq a b iha ihb => exact generates_seq iha ihb
  | branch c t a u b iha ihb => exact generates_branch iha ihb
  | loop l k b test c a ih => exact generates_loop ih
  | leave l => exact generates_exit (e := .leave l) rfl rfl rfl fun _ _ _ => rfl
  | next l => exact generates_exit (e := .next l) rfl rfl rfl fun _ _ _ => rfl
  | ret => exact generates_exit (e := .ret) rfl rfl rfl fun _ _ _ => rfl

end Datapack.Generation
