import Datapack.Generation.Control
import Datapack.Proofs.Ir.Structured

/-!
# Unwinding by flags

Commands that carry out a structured body, function by function.  `Laid` says how the commands of a
statement look in a region of a given role, without saying how they came about.  An exit raises its flag
and returns; every function on the way tests the flags its callees may have raised, and the one at which
the exit ends lowers it.  The main result is that commands so laid out do what the body does: `Eval` of
the body gives a run of the commands that ends with the same values and no flag raised.
-/

namespace Datapack.Generation

open Ir Ir.Structured Command

/-- Where the commands for a body keep its values, and which functions they call. The slots of the
variables, the saved conditions, the scratch register and the flags do not meet. -/
structure Target (vars : List Variable) (valid : Escape → Prop) where
  /-- The function of a region. -/
  ref : String → String
  /-- The function of the check of a loop. -/
  again : String → String
  slot : Variable → Slot
  temp : Nat → Slot
  scratch : Slot
  flag : Escape → Slot
  isFlag : Slot → Prop
  slot_inj : ∀ v ∈ vars, ∀ w ∈ vars, slot v = slot w → v = w
  temp_inj : ∀ m n, temp m = temp n → m = n
  flag_inj : ∀ e e', valid e → valid e' → flag e = flag e' → e = e'
  flag_isFlag : ∀ e, isFlag (flag e)
  slot_not_isFlag : ∀ v, ¬isFlag (slot v)
  temp_not_isFlag : ∀ n, ¬isFlag (temp n)
  scratch_not_isFlag : ¬isFlag scratch
  slot_ne_temp : ∀ v n, slot v ≠ temp n
  slot_ne_scratch : ∀ v, slot v ≠ scratch
  temp_ne_scratch : ∀ n, temp n ≠ scratch

/-- What a region is to the exits that pass through it. -/
inductive Role where
  | function
  /-- The body of a loop; `resets` says whether the check of the loop lowers the flag of `next`. -/
  | body (loop : String) (resets : Bool)
  | inner

namespace Role

/-- Whether an exit ends in regions of a role. -/
def consumes : Role → Escape → Bool
  | function, .ret => true
  | body l _, .next m => m = l
  | _, _ => false

/-- A flag that the region leaves raised when it goes on must be lowered elsewhere. -/
def handles : Role → Escape → Prop
  | body l false, e => e ≠ .next l
  | _, _ => True

end Role

namespace Target

variable {vars : List Variable} {valid : Escape → Prop} (N : Target vars valid)

/-! ## The commands -/

/-- What a region does on finding the flag of an exit raised. -/
def onRaised (role : Role) (e : Escape) : Command :=
  if role.consumes e then
    match e with
    | .next l => .returnRun (.call (N.again l))
    | e => .returnRun (.setScore (N.flag e) 0)
  else .ret 0

/-- The test of a flag behind a call. -/
def check (role : Role) (e : Escape) : Command :=
  ifRaised (N.flag e) (N.onRaised role e)

/-- The test of a flag in the region of a loop, where `leave` ends. -/
def landing (l : String) (e : Escape) : Command :=
  if e = .leave l then .setScore (N.flag e) 0 else ifRaised (N.flag e) (.ret 0)

def exitCode (role : Role) (e : Escape) : List Command :=
  if role.consumes e then
    match e with
    | .next l => [.returnRun (.call (N.again l))]
    | _ => [.ret 0]
  else [.setScore (N.flag e) 1, .ret 0]

def sideCall (p : Polarity) (s : Slot) (name : String) : List Command :=
  if name = "" then [] else [.guarded p s (.exactly 0) (.call (N.ref name))]

/-- The slot a branch tests: a condition that is tested twice is saved. -/
def tested (n : Nat) (c : Variable) (t f : String) : Slot :=
  if t ≠ "" ∧ f ≠ "" then N.temp n else N.slot c

def saving (n : Nat) (c : Variable) (t f : String) : List Command :=
  if t ≠ "" ∧ f ≠ "" then [.operate (N.temp n) .assign (N.slot c)] else []

/-! ## Scores -/

/-- The scores hold the values of a store. -/
def Holds (S : Scores) (σ : Values) : Prop := ∀ v ∈ vars, S (N.slot v) = some (σ v)

/-- No flag is raised. -/
def Quiet (S : Scores) : Prop := ∀ s, N.isFlag s → S s ≠ some 1

/-- The flag of an exit is raised, and no other. -/
def Raised (e : Escape) (S : Scores) : Prop :=
  S (N.flag e) = some 1 ∧ ∀ s, N.isFlag s → s ≠ N.flag e → S s ≠ some 1

/-- At most the flag of `next` is raised, and that only where the check of the loop lowers it. -/
def Pending (l : String) (resets : Bool) (S : Scores) : Prop :=
  ∀ s, N.isFlag s → S s = some 1 → resets = true ∧ s = N.flag (.next l)

/-- The conditions saved under numbers from `hi` on stay. -/
def Keeps (hi : Nat) (S T : Scores) : Prop := ∀ n, hi ≤ n → T (N.temp n) = S (N.temp n)

/-- The commands carry out data statements, and change nothing besides variables and the scratch
register. -/
def Computes (cs : List Command) (ds : List Data) : Prop :=
  ∀ (fns : String → Option (List Command)) (S : Scores) (σ : Values), N.Holds S σ →
    ∃ T, Steps fns cs S T ∧ N.Holds T (execAll σ ds) ∧
      ∀ s, (∀ v, s ≠ N.slot v) → s ≠ N.scratch → T s = S s

/-! ## Layout -/

/-- The commands `cs` are those of a statement in a region of the given role, `code` being the commands
of the regions inside. Conditions are saved under numbers below `hi`, and those of a branch under
smaller ones than its own. -/
def Laid (code : String → List Command) : Role → Nat → Stmt → List Command → Prop
  | _, _, .skip, cs => cs = []
  | _, _, .data d, cs => N.Computes cs [d]
  | role, hi, .seq a b, cs =>
    ∃ first second, cs = first ++ second ∧ Laid code role hi a first ∧ Laid code role hi b second
  | role, hi, .branch c t a f b, cs =>
    ∃ (n : Nat) (flags : List Escape), n ≤ hi ∧ (t ≠ "" ∧ f ≠ "" → n < hi) ∧ c ∈ vars ∧
      cs = N.saving n c t f ++ (N.sideCall .fails (N.tested n c t f) t
        ++ (N.sideCall .holds (N.tested n c t f) f ++ flags.map (N.check role))) ∧
      (∀ e ∈ flags, valid e ∧ role.handles e) ∧ (∀ e ∈ a.exits ++ b.exits, e ∈ flags) ∧
      (t = "" → a = .skip) ∧ (f = "" → b = .skip) ∧
      (t ≠ "" → Laid code .inner n a (code t)) ∧ (f ≠ "" → Laid code .inner n b (code f))
  | role, hi, .loop l k b test c a, cs =>
    ∃ (flags above below : List Escape) (tests round : List Command) (resets : Bool),
      cs = .call (N.ref l) :: flags.map (N.check role) ∧
      (∀ e ∈ flags, valid e ∧ role.handles e) ∧ (∀ e ∈ (Stmt.loop l k b test c a).exits, e ∈ flags) ∧
      code l = .call (N.ref k) :: above.map (N.landing l) ∧ (∀ e ∈ above, valid e) ∧
      (Escape.leave l ∈ a.exits → .leave l ∈ above) ∧
      code k = (if resets then [.setScore (N.flag (.next l)) 0] else []) ++ (tests
        ++ .guarded .fails (N.slot c) (.exactly 0) (.call (N.ref b)) :: below.map (N.check .inner)) ∧
      code b = round ++ [.returnRun (.call (N.ref k))] ∧
      c ∈ vars ∧ N.again l = N.ref k ∧ N.Computes tests test ∧ Laid code (.body l resets) hi a round
  | role, _, .leave l, cs => cs = N.exitCode role (.leave l)
  | role, _, .next l, cs => cs = N.exitCode role (.next l)
  | role, _, .ret, cs => cs = N.exitCode role .ret

variable {N}

/-- Numbers of saved conditions may be larger. -/
theorem Laid.mono {code : String → List Command} {role : Role} {hi hi' : Nat} {s : Stmt}
    {cs : List Command} (h : N.Laid code role hi s cs) (hle : hi ≤ hi') : N.Laid code role hi' s cs := by
  induction s generalizing role cs with
  | seq a b iha ihb =>
      obtain ⟨first, second, rfl, ha, hb⟩ := h
      exact ⟨first, second, rfl, iha ha, ihb hb⟩
  | branch c t a f b _ _ =>
      obtain ⟨n, flags, hn, hsaved, hrest⟩ := h
      exact ⟨n, flags, Nat.le_trans hn hle, fun hboth => Nat.lt_of_lt_of_le (hsaved hboth) hle, hrest⟩
  | loop l k b test c a ih =>
      obtain ⟨flags, above, below, tests, round, resets, hcs, hflags, hexits, hl, habove, hleave, hk,
        hb, hc, hagain, htests, ha⟩ := h
      exact ⟨flags, above, below, tests, round, resets, hcs, hflags, hexits, hl, habove, hleave, hk,
        hb, hc, hagain, htests, ih ha⟩
  | skip | data d | leave l | next l | ret => exact h

/-! ## Slots that do not meet -/

variable {fns : String → Option (List Command)} {S T U : Scores} {σ τ : Values} {hi : Nat}

theorem Holds.congr (h : N.Holds S σ) (hsame : ∀ v, T (N.slot v) = S (N.slot v)) : N.Holds T σ := by
  intro v hv
  rw [hsame v]
  exact h v hv

theorem Quiet.congr (h : N.Quiet S) (hsame : ∀ s, N.isFlag s → T s = S s) : N.Quiet T := by
  intro s hs
  rw [hsame s hs]
  exact h s hs

theorem slot_ne_flag (v : Variable) {s : Slot} (hs : N.isFlag s) : N.slot v ≠ s := by
  intro h
  exact N.slot_not_isFlag v (h ▸ hs)

theorem temp_ne_flag (n : Nat) {s : Slot} (hs : N.isFlag s) : N.temp n ≠ s := by
  intro h
  exact N.temp_not_isFlag n (h ▸ hs)

theorem Holds.setFlag (h : N.Holds S σ) (e : Escape) (n : Int64) :
    N.Holds (S.set (N.flag e) n) σ :=
  h.congr fun v => S.set_ne n (slot_ne_flag v (N.flag_isFlag e))

theorem Keeps.refl : N.Keeps hi S S := fun _ _ => rfl

theorem Keeps.trans (h : N.Keeps hi S T) (h' : N.Keeps hi T U) : N.Keeps hi S U :=
  fun n hn => (h' n hn).trans (h n hn)

theorem Keeps.mono {lo : Nat} (h : N.Keeps lo S T) (hle : lo ≤ hi) : N.Keeps hi S T :=
  fun n hn => h n (by omega)

theorem keeps_setFlag (e : Escape) (n : Int64) : N.Keeps hi S (S.set (N.flag e) n) :=
  fun m _ => S.set_ne n (temp_ne_flag m (N.flag_isFlag e))

theorem Quiet.pending (h : N.Quiet S) (l : String) (resets : Bool) : N.Pending l resets S :=
  fun s hs hone => absurd hone (h s hs)

/-- Lowering the only flag that may be raised leaves none raised. -/
theorem quiet_lowered {e : Escape} (h : ∀ s, N.isFlag s → s ≠ N.flag e → S s ≠ some 1) :
    N.Quiet (S.set (N.flag e) 0) := by
  intro s hs
  by_cases heq : s = N.flag e
  · rw [heq, Scores.set_self]
    simp
  · rw [S.set_ne 0 heq]
    exact h s hs heq

theorem Quiet.raise (h : N.Quiet S) (e : Escape) : N.Raised e (S.set (N.flag e) 1) := by
  refine ⟨S.set_self _ 1, ?_⟩
  intro s hs hne
  rw [S.set_ne 1 hne]
  exact h s hs

theorem Raised.ne_of_ne {e e' : Escape} (h : N.Raised e S) (he : valid e) (he' : valid e')
    (hne : e' ≠ e) : S (N.flag e') ≠ some 1 := by
  refine h.2 _ (N.flag_isFlag e') ?_
  intro heq
  exact hne (N.flag_inj e' e he' he heq)

theorem Computes.nil : N.Computes [] [] := by
  intro fns S σ h
  exact ⟨S, .nil, h, fun _ _ _ => rfl⟩

theorem Computes.append {cs ds : List Command} {a b : List Data} (ha : N.Computes cs a)
    (hb : N.Computes ds b) : N.Computes (cs ++ ds) (a ++ b) := by
  intro fns S σ h
  obtain ⟨T, hsteps, hT, hrest⟩ := ha fns S σ h
  obtain ⟨U, hsteps', hU, hrest'⟩ := hb fns T _ hT
  refine ⟨U, hsteps.append hsteps', ?_, ?_⟩
  · rw [execAll, List.foldl_append]
    exact hU
  · intro s hs hscratch
    rw [hrest' s hs hscratch, hrest s hs hscratch]

/-! ## Testing flags -/

theorem steps_ifRaised {s : Slot} {c : Command} (h : S s ≠ some 1) :
    Steps fns [ifRaised s c] S S := by
  intro rest V hrest
  refine .skip ?_ hrest
  cases hs : S s with
  | none => simp [Polarity.admits, Test.passes, hs]
  | some x =>
      have hx : x ≠ 1 := by
        rintro rfl
        exact h hs
      simp [Polarity.admits, Test.passes, Range.contains, hs, hx]

theorem exec_ifRaised {s : Slot} {c : Command} {rest : List Command} (h : S s = some 1)
    (hc : Exec fns (c :: rest) S T) : Exec fns (ifRaised s c :: rest) S T :=
  .run (by simp [Polarity.admits, Test.passes, Range.contains, h]) hc

/-- Tests of lowered flags do nothing. -/
theorem steps_checks {role : Role} (flags : List Escape) (h : N.Quiet S) :
    Steps fns (flags.map (N.check role)) S S := by
  induction flags with
  | nil => exact .nil
  | cons e flags ih => exact (steps_ifRaised (h _ (N.flag_isFlag e))).append ih

/-- Where nothing follows them, tests that only return do nothing at all. -/
theorem exec_checks_inner (flags : List Escape) (S : Scores) :
    Exec fns (flags.map (N.check .inner)) S S := by
  induction flags with
  | nil => exact .nil
  | cons e flags ih =>
      by_cases h : S (N.flag e) = some 1
      · exact exec_ifRaised h .ret
      · exact steps_ifRaised h _ _ ih

/-! ## Leaving a region -/

variable (N fns)

/-- The flags behind an exit from a region. -/
def Spent (role : Role) (e : Escape) (S : Scores) : Prop :=
  if role.consumes e then
    match role with
    | .body l resets => N.Pending l resets S
    | _ => N.Quiet S
  else N.Raised e S

/-- How a function goes on that an exit leaves: a `next` that ends here runs the check again. -/
def Lands (role : Role) (e : Escape) (S U : Scores) : Prop :=
  match e with
  | .next l => if role.consumes e then Exec fns [.call (N.again l)] S U else U = S
  | _ => U = S

/-- The flags behind a statement. -/
def Signals (o : Option Escape) (S : Scores) : Prop :=
  match o with
  | none => N.Quiet S
  | some e => N.Raised e S

/-- The commands `cs` end as a statement does that ends with outcome `o` and values `τ`. -/
def Ends (role : Role) (hi : Nat) (o : Option Escape) (τ : Values) (cs : List Command) (S : Scores) :
    Prop :=
  ∃ T, N.Holds T τ ∧ N.Keeps hi S T ∧
    match o with
    | none => N.Quiet T ∧ Steps fns cs S T
    | some e => N.Spent role e T ∧ ∀ rest U, N.Lands fns role e T U → Exec fns (cs ++ rest) S U

variable {N fns}

theorem Raised.spent {role : Role} {e : Escape} (h : N.Raised e S) (hconsumes : ¬role.consumes e) :
    N.Spent role e S := by
  unfold Spent
  rw [if_neg hconsumes]
  exact h

/-- An exit that does not end in a region returns from it. -/
theorem lands_iff {role : Role} {e : Escape} (hconsumes : ¬role.consumes e) :
    N.Lands fns role e S U ↔ U = S := by
  cases e with
  | next m => simp [Lands, hconsumes]
  | leave m => rfl
  | ret => rfl

/-- A region in which no exit ends shows the outcome by its flags. -/
theorem Ends.exec {o : Option Escape} {cs : List Command} (h : N.Ends fns .inner hi o τ cs S) :
    ∃ T, Exec fns cs S T ∧ N.Holds T τ ∧ N.Keeps hi S T ∧ N.Signals o T := by
  obtain ⟨T, hholds, hkeeps, hrest⟩ := h
  cases o with
  | none => exact ⟨T, hrest.2.exec, hholds, hkeeps, hrest.1⟩
  | some e =>
      obtain ⟨hspent, hexec⟩ := hrest
      refine ⟨T, ?_, hholds, hkeeps, hspent⟩
      have hnil := hexec [] T ((lands_iff (by cases e <;> simp [Role.consumes])).mpr rfl)
      rwa [List.append_nil] at hnil

/-- What a region does on finding the flag of an exit raised. -/
theorem exec_onRaised {role : Role} {e : Escape} (hraised : N.Raised e S) (hhandles : role.handles e)
    (hholds : N.Holds S τ) :
    ∃ T, N.Holds T τ ∧ N.Keeps hi S T ∧ N.Spent role e T ∧
      ∀ rest U, N.Lands fns role e T U → Exec fns (N.onRaised role e :: rest) S U := by
  by_cases hconsumes : role.consumes e = true
  · cases role with
    | inner => exact absurd hconsumes (by simp [Role.consumes])
    | function =>
        cases e with
        | leave l => exact absurd hconsumes (by simp [Role.consumes])
        | next l => exact absurd hconsumes (by simp [Role.consumes])
        | ret =>
            refine ⟨S.set (N.flag .ret) 0, hholds.setFlag _ _, keeps_setFlag _ _, (quiet_lowered hraised.2), ?_⟩
            rintro rest U rfl
            exact .returnRun (.plain rfl .nil)
    | body l resets =>
        cases e with
        | leave m => exact absurd hconsumes (by simp [Role.consumes])
        | ret => exact absurd hconsumes (by simp [Role.consumes])
        | next m =>
            have hml : m = l := by simpa [Role.consumes] using hconsumes
            subst hml
            have hresets : resets = true := by
              cases resets with
              | true => rfl
              | false => exact absurd rfl hhandles
            have hpending : N.Pending m resets S := by
              intro s hs hone
              refine ⟨hresets, ?_⟩
              exact Decidable.byContradiction fun hne => hraised.2 s hs hne hone
            refine ⟨S, hholds, .refl, ?_, ?_⟩
            · rw [Spent, if_pos hconsumes]
              exact hpending
            · intro rest U hlands
              rw [Lands, if_pos hconsumes] at hlands
              rw [onRaised, if_pos hconsumes]
              exact .returnRun hlands
  · refine ⟨S, hholds, .refl, hraised.spent hconsumes, ?_⟩
    intro rest U hlands
    obtain rfl := (lands_iff hconsumes).mp hlands
    unfold onRaised
    rw [if_neg hconsumes]
    exact .ret

/-- Behind a call, the tests of the flags it may have raised pass its outcome on. -/
theorem ends_checks {role : Role} {o : Option Escape} {pre : List Command} {flags : List Escape}
    (hsteps : Steps fns pre S T) (hholds : N.Holds T τ) (hkeeps : N.Keeps hi S T)
    (hsignals : N.Signals o T) (hflags : ∀ e ∈ flags, valid e ∧ role.handles e)
    (hmem : ∀ e, o = some e → e ∈ flags) :
    N.Ends fns role hi o τ (pre ++ flags.map (N.check role)) S := by
  cases o with
  | none => exact ⟨T, hholds, hkeeps, hsignals, hsteps.append (steps_checks flags hsignals)⟩
  | some e =>
      have he := hmem e rfl
      obtain ⟨V, hV, hkeepsV, hspent, hexec⟩ :=
        @exec_onRaised _ _ N fns T τ hi role e hsignals (hflags e he).2 hholds
      refine ⟨V, hV, hkeeps.trans hkeepsV, hspent, ?_⟩
      intro rest U hlands
      rw [List.append_assoc]
      apply hsteps
      -- The tests in front of the raised flag are skipped.
      have hvalid := (hflags e he).1
      clear hmem
      induction flags with
      | nil => exact absurd he (by simp)
      | cons e' flags ih =>
          by_cases hee : e' = e
          · subst hee
            exact exec_ifRaised hsignals.1 (hexec _ U hlands)
          · have hlow := hsignals.ne_of_ne hvalid (hflags e' (by simp)).1 hee
            have he' : e ∈ flags := by
              rcases List.mem_cons.mp he with h | h
              · exact absurd h.symm hee
              · exact h
            exact steps_ifRaised hlow _ _ (ih (fun x hx => hflags x (by simp [hx])) he')

/-- The commands of an exit leave the region. -/
theorem ends_exitCode {role : Role} (e : Escape) (hholds : N.Holds S σ) (hquiet : N.Quiet S) :
    N.Ends fns role hi (some e) σ (N.exitCode role e) S := by
  by_cases hconsumes : role.consumes e = true
  · refine ⟨S, hholds, .refl, ?_, ?_⟩
    · unfold Spent
      rw [if_pos hconsumes]
      cases role with
      | body l resets => exact hquiet.pending l resets
      | function => exact hquiet
      | inner => exact hquiet
    · intro rest U hlands
      unfold exitCode
      rw [if_pos hconsumes]
      cases e with
      | next l =>
          rw [Lands, if_pos hconsumes] at hlands
          exact .returnRun hlands
      | leave l =>
          obtain rfl := hlands
          exact .ret
      | ret =>
          obtain rfl := hlands
          exact .ret
  · refine ⟨S.set (N.flag e) 1, hholds.setFlag _ _, keeps_setFlag _ _,
      (hquiet.raise e).spent hconsumes, ?_⟩
    intro rest U hlands
    obtain rfl := (lands_iff hconsumes).mp hlands
    unfold exitCode
    rw [if_neg hconsumes]
    exact .plain rfl .ret

/-! ## Branches -/

theorem steps_sideCall_skip {p : Polarity} {s : Slot} {name : String} {x : Int64}
    (hs : name ≠ "" → S s = some x) (hp : p.admits (decide (x = 0)) = false) :
    Steps fns (N.sideCall p s name) S S := by
  unfold sideCall
  split
  · exact .nil
  · rename_i hname
    intro rest U hrest
    exact .skip (by simpa [Test.passes, Range.contains, hs hname] using hp) hrest

theorem steps_sideCall_run {p : Polarity} {s : Slot} {name : String} {x : Int64} {cs : List Command}
    (hs : S s = some x) (hp : p.admits (decide (x = 0)) = true) (hname : name ≠ "")
    (hfn : fns (N.ref name) = some cs) (hcs : Exec fns cs S T) :
    Steps fns (N.sideCall p s name) S T := by
  unfold sideCall
  rw [if_neg hname]
  intro rest U hrest
  exact .run (by simpa [Test.passes, Range.contains, hs] using hp) (.call hfn hcs hrest)

/-- The side of a branch that is taken. An absent side is the empty statement. -/
theorem steps_side {p : Polarity} {s : Slot} {name : String} {x : Int64} {cs : List Command} {a : Stmt}
    {o : Option Escape} (hs : S s = some x) (hp : p.admits (decide (x = 0)) = true)
    (hfn : name ≠ "" → fns (N.ref name) = some cs) (habsent : name = "" → a = .skip)
    (heval : Eval a σ o τ) (hends : name ≠ "" → N.Ends fns .inner hi o τ cs S)
    (hholds : N.Holds S σ) (hquiet : N.Quiet S) :
    ∃ T, Steps fns (N.sideCall p s name) S T ∧ N.Holds T τ ∧ N.Keeps hi S T ∧ N.Signals o T ∧
      (name = "" → T = S) := by
  by_cases hname : name = ""
  · obtain rfl := habsent hname
    cases heval
    refine ⟨S, ?_, hholds, .refl, hquiet, fun _ => rfl⟩
    unfold sideCall
    rw [if_pos hname]
    exact .nil
  · obtain ⟨T, hexec, hT, hkeeps, hsignals⟩ := (hends hname).exec
    exact ⟨T, steps_sideCall_run hs hp hname (hfn hname) hexec, hT, hkeeps, hsignals,
      fun h => absurd h hname⟩

/-- Saving a condition that is tested twice. -/
theorem exists_saved (fns : String → Option (List Command)) {n : Nat} {c : Variable} {t f : String}
    (hn : t ≠ "" ∧ f ≠ "" → n < hi) (hc : c ∈ vars) (hholds : N.Holds S σ) (hquiet : N.Quiet S) :
    ∃ T, Steps fns (N.saving n c t f) S T ∧ T (N.tested n c t f) = some (σ c) ∧ N.Holds T σ ∧
      N.Quiet T ∧ N.Keeps hi S T := by
  by_cases hboth : t ≠ "" ∧ f ≠ ""
  · have hval : S.get (N.slot c) = σ c := Scores.get_of_eq (hholds c hc)
    refine ⟨S.set (N.temp n) (σ c), ?_, ?_, ?_, ?_, ?_⟩
    · unfold saving
      rw [if_pos hboth]
      exact .single (by simp [effect, ScoreOp.apply, hval])
    · unfold tested
      rw [if_pos hboth]
      exact S.set_self _ _
    · exact hholds.congr fun v => S.set_ne _ (N.slot_ne_temp v n)
    · exact hquiet.congr fun s hs => S.set_ne _ (temp_ne_flag n hs).symm
    · intro m hm
      refine S.set_ne _ ?_
      intro heq
      have hmn := N.temp_inj m n heq
      have hlt := hn hboth
      omega
  · refine ⟨S, ?_, ?_, hholds, hquiet, .refl⟩
    · unfold saving
      rw [if_neg hboth]
      exact .nil
    · unfold tested
      rw [if_neg hboth]
      exact hholds c hc

variable {code : String → List Command}

/-- What the commands of a statement do when the statement runs from `σ` to `τ` with outcome `o`. -/
def Carried (N : Target vars valid) (fns : String → Option (List Command))
    (code : String → List Command) (s : Stmt) (σ : Values) (o : Option Escape) (τ : Values) : Prop :=
  ∀ role hi cs S, N.Laid code role hi s cs → (∀ x ∈ s.names, fns (N.ref x) = some (code x)) →
    N.Holds S σ → N.Quiet S → N.Ends fns role hi o τ cs S

theorem carried_yes {c : Variable} {t f : String} {a b : Stmt} {o : Option Escape} (hcond : σ c ≠ 0)
    (heval : Eval a σ o τ) (ih : N.Carried fns code a σ o τ) :
    N.Carried fns code (.branch c t a f b) σ o τ := by
  intro role hi cs S hlaid hnames hholds hquiet
  obtain ⟨n, flags, hle, hn, hc, rfl, hflags, hmem, habsent, -, hlaidt, -⟩ := hlaid
  obtain ⟨S₁, hsave, htested, hholds₁, hquiet₁, hkeeps₁⟩ := exists_saved fns hn hc hholds hquiet
  have hends : t ≠ "" → N.Ends fns .inner n o τ (code t) S₁ := by
    intro ht
    refine ih _ _ _ _ (hlaidt ht) ?_ hholds₁ hquiet₁
    intro x hx
    exact hnames x (by simp [Stmt.names, ht, hx])
  obtain ⟨S₂, hside, hholds₂, hkeeps₂, hsignals, hsame⟩ :=
    @steps_side _ _ N fns S₁ σ τ n .fails _ t _ _ a o htested (by simp [Polarity.admits, hcond])
      (fun ht => hnames t (by simp [Stmt.names, ht])) habsent heval hends hholds₁ hquiet₁
  -- The condition still stands where the other side asks for it.
  have htested₂ : f ≠ "" → S₂ (N.tested n c t f) = some (σ c) := by
    intro hf
    by_cases ht : t = ""
    · rw [hsame ht]
      exact htested
    · rw [← htested]
      unfold tested
      rw [if_pos ⟨ht, hf⟩]
      exact hkeeps₂ n (Nat.le_refl n)
  have hskip : Steps fns (N.sideCall .holds (N.tested n c t f) f) S₂ S₂ :=
    steps_sideCall_skip htested₂ (by simp [Polarity.admits, hcond])
  have hpre := (hsave.append hside).append hskip
  have hall := ends_checks hpre hholds₂ (hkeeps₁.trans (hkeeps₂.mono hle)) hsignals
    hflags (fun e he => hmem e (List.mem_append_left _ (heval.mem_exits e he)))
  simpa only [List.append_assoc] using hall

theorem carried_no {c : Variable} {t f : String} {a b : Stmt} {o : Option Escape} (hcond : σ c = 0)
    (heval : Eval b σ o τ) (ih : N.Carried fns code b σ o τ) :
    N.Carried fns code (.branch c t a f b) σ o τ := by
  intro role hi cs S hlaid hnames hholds hquiet
  obtain ⟨n, flags, hle, hn, hc, rfl, hflags, hmem, -, habsent, -, hlaidf⟩ := hlaid
  obtain ⟨S₁, hsave, htested, hholds₁, hquiet₁, hkeeps₁⟩ := exists_saved fns hn hc hholds hquiet
  have hends : f ≠ "" → N.Ends fns .inner n o τ (code f) S₁ := by
    intro hf
    refine ih _ _ _ _ (hlaidf hf) ?_ hholds₁ hquiet₁
    intro x hx
    exact hnames x (by simp [Stmt.names, hf, hx])
  have hskip : Steps fns (N.sideCall .fails (N.tested n c t f) t) S₁ S₁ :=
    steps_sideCall_skip (fun _ => htested) (by simp [Polarity.admits, hcond])
  obtain ⟨S₂, hside, hholds₂, hkeeps₂, hsignals, -⟩ :=
    @steps_side _ _ N fns S₁ σ τ n .holds _ f _ _ b o htested (by simp [Polarity.admits, hcond])
      (fun hf => hnames f (by simp [Stmt.names, hf])) habsent heval hends hholds₁ hquiet₁
  have hpre := (hsave.append hskip).append hside
  have hall := ends_checks hpre hholds₂ (hkeeps₁.trans (hkeeps₂.mono hle)) hsignals
    hflags (fun e he => hmem e (List.mem_append_right _ (heval.mem_exits e he)))
  simpa only [List.append_assoc] using hall

/-! ## Loops -/

theorem exec_landing_quiet (l : String) (above : List Escape) (hholds : N.Holds S τ)
    (hquiet : N.Quiet S) :
    ∃ T, Exec fns (above.map (N.landing l)) S T ∧ N.Holds T τ ∧ N.Keeps hi S T ∧ N.Quiet T := by
  induction above generalizing S with
  | nil => exact ⟨S, .nil, hholds, .refl, hquiet⟩
  | cons e above ih =>
      by_cases he : e = .leave l
      · have hquiet' : N.Quiet (S.set (N.flag e) 0) := quiet_lowered fun s hs _ => hquiet s hs
        obtain ⟨T, hexec, hT, hkeeps, hfinal⟩ := ih (hholds.setFlag e 0) hquiet'
        refine ⟨T, ?_, hT, (keeps_setFlag e 0).trans hkeeps, hfinal⟩
        rw [List.map_cons, landing, if_pos he]
        exact .plain rfl hexec
      · obtain ⟨T, hexec, hT, hkeeps, hfinal⟩ := ih hholds hquiet
        refine ⟨T, ?_, hT, hkeeps, hfinal⟩
        rw [List.map_cons, landing, if_neg he]
        exact steps_ifRaised (hquiet _ (N.flag_isFlag e)) _ _ hexec

/-- The flag of `leave` is lowered where the loop is. -/
theorem exec_landing_leave {l : String} {above : List Escape} (hmem : .leave l ∈ above)
    (hvalid : ∀ e ∈ above, valid e) (hholds : N.Holds S τ) (hraised : N.Raised (.leave l) S) :
    ∃ T, Exec fns (above.map (N.landing l)) S T ∧ N.Holds T τ ∧ N.Keeps hi S T ∧ N.Quiet T := by
  have hleave := hvalid _ hmem
  induction above with
  | nil => exact absurd hmem (by simp)
  | cons e above ih =>
      by_cases he : e = .leave l
      · subst he
        obtain ⟨T, hexec, hT, hkeeps, hfinal⟩ :=
          @exec_landing_quiet _ _ N fns _ τ hi l above (hholds.setFlag (.leave l) 0) (quiet_lowered hraised.2)
        refine ⟨T, ?_, hT, (keeps_setFlag _ 0).trans hkeeps, hfinal⟩
        rw [List.map_cons, landing, if_pos rfl]
        exact .plain rfl hexec
      · have hmem' : .leave l ∈ above := by
          rcases List.mem_cons.mp hmem with h | h
          · exact absurd h.symm he
          · exact h
        obtain ⟨T, hexec, hrest⟩ := ih hmem' (fun x hx => hvalid x (by simp [hx]))
        refine ⟨T, ?_, hrest⟩
        rw [List.map_cons, landing, if_neg he]
        exact steps_ifRaised (hraised.ne_of_ne hleave (hvalid e (by simp)) he) _ _ hexec

/-- Any other exit passes the loop. -/
theorem exec_landing_exit {l : String} {above : List Escape} {e : Escape} (hne : e ≠ .leave l)
    (he : valid e) (hvalid : ∀ e ∈ above, valid e) (hholds : N.Holds S τ) (hraised : N.Raised e S) :
    ∃ T, Exec fns (above.map (N.landing l)) S T ∧ N.Holds T τ ∧ N.Keeps hi S T ∧ N.Raised e T := by
  induction above generalizing S with
  | nil => exact ⟨S, .nil, hholds, .refl, hraised⟩
  | cons e' above ih =>
      have hvalid' : ∀ x ∈ above, valid x := fun x hx => hvalid x (by simp [hx])
      by_cases hleave : e' = .leave l
      · have hflag : N.flag e ≠ N.flag e' := by
          intro heq
          exact hne ((N.flag_inj e e' he (hvalid e' (by simp)) heq).trans hleave)
        have hraised' : N.Raised e (S.set (N.flag e') 0) := by
          refine ⟨(S.set_ne 0 hflag).trans hraised.1, ?_⟩
          intro s hs hse
          by_cases heq : s = N.flag e'
          · rw [heq, Scores.set_self]
            simp
          · rw [S.set_ne 0 heq]
            exact hraised.2 s hs hse
        obtain ⟨T, hexec, hT, hkeeps, hfinal⟩ := ih hvalid' (hholds.setFlag e' 0) hraised'
        refine ⟨T, ?_, hT, (keeps_setFlag e' 0).trans hkeeps, hfinal⟩
        rw [List.map_cons, landing, if_pos hleave]
        exact .plain rfl hexec
      · by_cases hone : S (N.flag e') = some 1
        · refine ⟨S, ?_, hholds, .refl, hraised⟩
          rw [List.map_cons, landing, if_neg hleave]
          exact exec_ifRaised hone .ret
        · obtain ⟨T, hexec, hrest⟩ := ih hvalid' hholds hraised
          refine ⟨T, ?_, hrest⟩
          rw [List.map_cons, landing, if_neg hleave]
          exact steps_ifRaised hone _ _ hexec

/-- The commands of the check of a loop and of its body. -/
def Cycle (N : Target vars valid) (code : String → List Command) (hi : Nat) (resets : Bool)
    (l k b : String) (test : List Data) (c : Variable) (a : Stmt) : Prop :=
  ∃ (below : List Escape) (tests round : List Command),
    code k = (if resets then [.setScore (N.flag (.next l)) 0] else []) ++ (tests
      ++ .guarded .fails (N.slot c) (.exactly 0) (.call (N.ref b)) :: below.map (N.check .inner)) ∧
    code b = round ++ [.returnRun (.call (N.ref k))] ∧ c ∈ vars ∧ N.again l = N.ref k ∧
    N.Computes tests test ∧ N.Laid code (.body l resets) hi a round

/-- The flags behind a call of the check of a loop. A loop that was left still shows it. -/
def RoundSignals (N : Target vars valid) (l : String) (a : Stmt) (o : Option Escape) (S : Scores) :
    Prop :=
  match o with
  | none => N.Quiet S ∨ N.Raised (.leave l) S ∧ .leave l ∈ a.exits
  | some e => N.Raised e S

/-- What a call of the check of a loop does when the loop runs from `σ` to `τ` with outcome `o`. -/
def Rounds (N : Target vars valid) (fns : String → Option (List Command))
    (code : String → List Command) (l k b : String) (test : List Data) (c : Variable) (a : Stmt)
    (σ : Values) (o : Option Escape) (τ : Values) : Prop :=
  ∀ hi resets S, N.Cycle code hi resets l k b test c a →
    (∀ x ∈ k :: b :: a.names, fns (N.ref x) = some (code x)) → N.Holds S σ → N.Pending l resets S →
      ∃ T, Exec fns [.call (N.ref k)] S T ∧ N.Holds T τ ∧ N.Keeps hi S T ∧ N.RoundSignals l a o T

theorem Computes.keeps {tests : List Command} {test : List Data} (h : N.Computes tests test)
    (fns : String → Option (List Command)) (hi : Nat) (hholds : N.Holds S σ) (hquiet : N.Quiet S) :
    ∃ T, Steps fns tests S T ∧ N.Holds T (execAll σ test) ∧ N.Quiet T ∧ N.Keeps hi S T := by
  obtain ⟨T, hsteps, hT, hrest⟩ := h fns S σ hholds
  refine ⟨T, hsteps, hT, ?_, ?_⟩
  · refine hquiet.congr fun s hs => hrest s (fun v => (slot_ne_flag v hs).symm) ?_
    rintro rfl
    exact N.scratch_not_isFlag hs
  · intro n _
    exact hrest _ (fun v => (N.slot_ne_temp v n).symm) (N.temp_ne_scratch n)

/-- The start of the check: a pending `next` is settled and the test runs. -/
theorem exists_tested (fns : String → Option (List Command)) (hi : Nat) {l : String} {resets : Bool}
    {tests : List Command} {test : List Data} (htests : N.Computes tests test)
    (hholds : N.Holds S σ) (hpending : N.Pending l resets S) :
    ∃ T, Steps fns ((if resets then [.setScore (N.flag (.next l)) 0] else []) ++ tests) S T ∧
      N.Holds T (execAll σ test) ∧ N.Quiet T ∧ N.Keeps hi S T := by
  cases resets with
  | false =>
      have hquiet : N.Quiet S := fun s hs hone => absurd (hpending s hs hone).1 (by simp)
      exact htests.keeps fns hi hholds hquiet
  | true =>
      have hquiet : N.Quiet (S.set (N.flag (.next l)) 0) :=
        quiet_lowered fun s hs hne hone => hne (hpending s hs hone).2
      obtain ⟨T, hsteps, hT, hquietT, hkeeps⟩ := htests.keeps fns hi (hholds.setFlag (.next l) 0) hquiet
      have hreset : Steps fns [.setScore (N.flag (.next l)) 0] S (S.set (N.flag (.next l)) 0) :=
        .single rfl
      exact ⟨T, hreset.append hsteps, hT, hquietT, (keeps_setFlag _ 0).trans hkeeps⟩

/-- A call of the check of a loop whose test fails. -/
theorem rounds_done {l k b : String} {test : List Data} {c : Variable} {a : Stmt}
    (hcond : execAll σ test c = 0) :
    N.Rounds fns code l k b test c a σ none (execAll σ test) := by
  rintro hi resets S ⟨below, tests, round, hk, -, hc, -, htests, -⟩ hnames hholds hpending
  obtain ⟨T, hsteps, hT, hquiet, hkeeps⟩ := exists_tested fns hi htests hholds hpending
  have htest : T (N.slot c) = some 0 := by
    rw [hT c hc, hcond]
  refine ⟨T, .call ((hnames k (by simp)).trans (congrArg some hk)) ?_ .nil, hT, hkeeps, .inl hquiet⟩
  rw [← List.append_assoc]
  apply hsteps
  refine .skip ?_ (exec_checks_inner below T)
  simp [Polarity.admits, Test.passes, Range.contains, htest]

/-- A call of the check of a loop whose test passes does what the body does. -/
theorem exec_round {l k b : String} {test : List Data} {c : Variable} {a : Stmt} {resets : Bool}
    (hcycle : N.Cycle code hi resets l k b test c a)
    (hnames : ∀ x ∈ k :: b :: a.names, fns (N.ref x) = some (code x)) (hholds : N.Holds S σ)
    (hpending : N.Pending l resets S) (hcond : execAll σ test c ≠ 0) :
    ∃ T, N.Holds T (execAll σ test) ∧ N.Quiet T ∧ N.Keeps hi S T ∧
      ∀ U, Exec fns (code b) T U → Exec fns [.call (N.ref k)] S U := by
  obtain ⟨below, tests, round, hk, -, hc, -, htests, -⟩ := hcycle
  obtain ⟨T, hsteps, hT, hquiet, hkeeps⟩ := exists_tested fns hi htests hholds hpending
  refine ⟨T, hT, hquiet, hkeeps, ?_⟩
  intro U hbody
  refine .call ((hnames k (by simp)).trans (congrArg some hk)) ?_ .nil
  rw [← List.append_assoc]
  apply hsteps
  refine .run ?_ (.call (hnames b (by simp)) hbody (exec_checks_inner below U))
  simp [Polarity.admits, Test.passes, Range.contains, hT c hc, hcond]

/-- A round at whose end the loop starts over. -/
theorem rounds_again {l k b : String} {test : List Data} {c : Variable} {a : Stmt} {ρ : Values}
    {o o' : Option Escape} (hcond : execAll σ test c ≠ 0) (ho : o = none ∨ o = some (.next l))
    (hbody : N.Carried fns code a (execAll σ test) o ρ)
    (hloop : N.Rounds fns code l k b test c a ρ o' τ) :
    N.Rounds fns code l k b test c a σ o' τ := by
  intro hi resets S hcycle hnames hholds hpending
  obtain ⟨T, hT, hquiet, hkeeps, hround⟩ := exec_round hcycle hnames hholds hpending hcond
  obtain ⟨below, tests, round, -, hb, -, hagain, -, hlaid⟩ := id hcycle
  have hends := hbody _ _ _ _ hlaid (fun x hx => hnames x (by simp [hx])) hT hquiet
  obtain ⟨V, hV, hkeepsV, hrest⟩ := hends
  rw [hb] at hround
  rcases ho with rfl | rfl
  · obtain ⟨hquietV, hsteps⟩ := hrest
    obtain ⟨U, hexec, hU, hkeepsU, hsignals⟩ := hloop hi resets V hcycle hnames hV (hquietV.pending l resets)
    exact ⟨U, hround U (hsteps _ _ (.returnRun hexec)), hU, (hkeeps.trans hkeepsV).trans hkeepsU, hsignals⟩
  · obtain ⟨hspent, hexec⟩ := hrest
    have hconsumes : (Role.body l resets).consumes (.next l) = true := by simp [Role.consumes]
    have hpendingV : N.Pending l resets V := by
      unfold Spent at hspent
      rw [if_pos hconsumes] at hspent
      exact hspent
    obtain ⟨U, hcall, hU, hkeepsU, hsignals⟩ := hloop hi resets V hcycle hnames hV hpendingV
    refine ⟨U, hround U (hexec _ U ?_), hU, (hkeeps.trans hkeepsV).trans hkeepsU, hsignals⟩
    rw [Lands, if_pos hconsumes, hagain]
    exact hcall

/-- A round that an exit other than `next` leaves. -/
theorem exec_round_exit {l k b : String} {test : List Data} {c : Variable} {a : Stmt} {e : Escape}
    {resets : Bool} (hcycle : N.Cycle code hi resets l k b test c a)
    (hnames : ∀ x ∈ k :: b :: a.names, fns (N.ref x) = some (code x)) (hholds : N.Holds S σ)
    (hpending : N.Pending l resets S) (hcond : execAll σ test c ≠ 0) (hnext : e ≠ .next l)
    (hbody : N.Carried fns code a (execAll σ test) (some e) τ) :
    ∃ T, Exec fns [.call (N.ref k)] S T ∧ N.Holds T τ ∧ N.Keeps hi S T ∧ N.Raised e T := by
  obtain ⟨T, hT, hquiet, hkeeps, hround⟩ := exec_round hcycle hnames hholds hpending hcond
  obtain ⟨below, tests, round, -, hb, -, -, -, hlaid⟩ := hcycle
  obtain ⟨V, hV, hkeepsV, hspent, hexec⟩ :=
    hbody _ _ _ _ hlaid (fun x hx => hnames x (by simp [hx])) hT hquiet
  have hconsumes : ¬(Role.body l resets).consumes e = true := by
    cases e with
    | next m => simpa [Role.consumes] using hnext
    | leave m => simp [Role.consumes]
    | ret => simp [Role.consumes]
  unfold Spent at hspent
  rw [if_neg hconsumes] at hspent
  refine ⟨V, hround V ?_, hV, hkeeps.trans hkeepsV, hspent⟩
  rw [hb]
  exact hexec _ V ((lands_iff hconsumes).mpr rfl)

/-- The call of a loop, from what calls of its check do. -/
theorem Rounds.carried {l k b : String} {test : List Data} {c : Variable} {a : Stmt}
    {o : Option Escape} (h : N.Rounds fns code l k b test c a σ o τ)
    (heval : Eval (.loop l k b test c a) σ o τ) :
    N.Carried fns code (.loop l k b test c a) σ o τ := by
  intro role hi cs S hlaid hnames hholds hquiet
  obtain ⟨flags, above, below, tests, round, resets, rfl, hflags, hmem, hl, habove, hleave, hk, hb, hc,
    hagain, htests, hround⟩ := hlaid
  have hcycle : N.Cycle code hi resets l k b test c a :=
    ⟨below, tests, round, hk, hb, hc, hagain, htests, hround⟩
  obtain ⟨T, hexec, hT, hkeeps, hsignals⟩ := h hi resets S hcycle
    (fun x hx => hnames x (List.mem_cons_of_mem l hx)) hholds (hquiet.pending l resets)
  have hland : ∃ U, Exec fns (above.map (N.landing l)) T U ∧ N.Holds U τ ∧ N.Keeps hi T U ∧
      N.Signals o U := by
    cases o with
    | some e =>
        have he := heval.mem_exits e rfl
        have hne : e ≠ .leave l := by
          simp only [Stmt.exits, List.mem_filter, Bool.and_eq_true, decide_eq_true_eq] at he
          exact he.2.1
        exact exec_landing_exit hne (hflags e (hmem e he)).1 habove hT hsignals
    | none =>
        rcases hsignals with hquietT | ⟨hraised, hmemleave⟩
        · exact exec_landing_quiet l above hT hquietT
        · exact exec_landing_leave (hleave hmemleave) habove hT hraised
  obtain ⟨U, hlanding, hU, hkeepsU, hsignalsU⟩ := hland
  have hcall : Steps fns [.call (N.ref l)] S U := by
    intro rest V hrest
    refine .call (hnames l (by simp [Stmt.names])) ?_ hrest
    rw [hl]
    cases hexec with
    | call hfn hcs hnil =>
        cases hnil
        exact .call hfn hcs hlanding
    | plain hc => exact absurd hc (by simp [effect])
  exact ends_checks hcall hU (hkeeps.trans hkeepsU) hsignalsU hflags
    (fun e he => hmem e (heval.mem_exits e he))

/-! ## Bodies -/

/-- What the induction over a run carries: of a loop, what calls of its check do. -/
def Simulated (N : Target vars valid) (fns : String → Option (List Command))
    (code : String → List Command) (s : Stmt) (σ : Values) (o : Option Escape) (τ : Values) : Prop :=
  match s with
  | .loop l k b test c a => N.Rounds fns code l k b test c a σ o τ
  | s => N.Carried fns code s σ o τ

theorem Simulated.carried {s : Stmt} {o : Option Escape} (h : N.Simulated fns code s σ o τ)
    (heval : Eval s σ o τ) : N.Carried fns code s σ o τ := by
  cases s with
  | loop l k b test c a => exact Rounds.carried h heval
  | _ => exact h

theorem carried_seq {a b : Stmt} {ρ : Values} {o : Option Escape}
    (ha : N.Carried fns code a σ none ρ) (hb : N.Carried fns code b ρ o τ) :
    N.Carried fns code (.seq a b) σ o τ := by
  rintro role hi cs S ⟨first, second, rfl, hfirst, hsecond⟩ hnames hholds hquiet
  obtain ⟨T, hT, hkeeps, hquietT, hsteps⟩ :=
    ha _ _ _ _ hfirst (fun x hx => hnames x (by simp [Stmt.names, hx])) hholds hquiet
  obtain ⟨U, hU, hkeepsU, hrest⟩ :=
    hb _ _ _ _ hsecond (fun x hx => hnames x (by simp [Stmt.names, hx])) hT hquietT
  refine ⟨U, hU, hkeeps.trans hkeepsU, ?_⟩
  cases o with
  | none => exact ⟨hrest.1, hsteps.append hrest.2⟩
  | some e =>
      refine ⟨hrest.1, ?_⟩
      intro rest V hlands
      rw [List.append_assoc]
      exact hsteps _ V (hrest.2 rest V hlands)

theorem carried_seqExit {a b : Stmt} {e : Escape} (ha : N.Carried fns code a σ (some e) τ) :
    N.Carried fns code (.seq a b) σ (some e) τ := by
  rintro role hi cs S ⟨first, second, rfl, hfirst, -⟩ hnames hholds hquiet
  obtain ⟨T, hT, hkeeps, hspent, hexec⟩ :=
    ha _ _ _ _ hfirst (fun x hx => hnames x (by simp [Stmt.names, hx])) hholds hquiet
  refine ⟨T, hT, hkeeps, hspent, ?_⟩
  intro rest V hlands
  rw [List.append_assoc]
  exact hexec _ V hlands

/-- Commands laid out for a statement do what the statement does. -/
theorem simulated_of_eval {s : Stmt} {o : Option Escape} (h : Eval s σ o τ) :
    N.Simulated fns code s σ o τ := by
  induction h with
  | skip =>
      intro role hi cs S hlaid _ hholds hquiet
      obtain rfl := hlaid
      exact ⟨S, hholds, .refl, hquiet, .nil⟩
  | data =>
      intro role hi cs S hlaid _ hholds hquiet
      obtain ⟨T, hsteps, hT, hquietT, hkeeps⟩ := Computes.keeps hlaid fns hi hholds hquiet
      exact ⟨T, hT, hkeeps, hquietT, hsteps⟩
  | seq ha hb iha ihb => exact carried_seq (iha.carried ha) (ihb.carried hb)
  | seqExit ha ih => exact carried_seqExit (ih.carried ha)
  | yes hc ha ih => exact carried_yes hc ha (ih.carried ha)
  | no hc hb ih => exact carried_no hc hb (ih.carried hb)
  | done hc => exact rounds_done hc
  | again hc ha ho _ iha ihloop => exact rounds_again hc ho (iha.carried ha) ihloop
  | left hc ha ih =>
      intro hi resets S hcycle hnames hholds hpending
      obtain ⟨T, hexec, hT, hkeeps, hraised⟩ :=
        exec_round_exit hcycle hnames hholds hpending hc (by simp) (ih.carried ha)
      exact ⟨T, hexec, hT, hkeeps, .inr ⟨hraised, ha.mem_exits _ rfl⟩⟩
  | exit hc ha _ hnext ih =>
      intro hi resets S hcycle hnames hholds hpending
      exact exec_round_exit hcycle hnames hholds hpending hc hnext (ih.carried ha)
  | leave =>
      intro role hi cs S hlaid _ hholds hquiet
      obtain rfl := hlaid
      exact ends_exitCode _ hholds hquiet
  | next =>
      intro role hi cs S hlaid _ hholds hquiet
      obtain rfl := hlaid
      exact ends_exitCode _ hholds hquiet
  | ret =>
      intro role hi cs S hlaid _ hholds hquiet
      obtain rfl := hlaid
      exact ends_exitCode _ hholds hquiet

/-- The commands of a function run its body and leave no flag raised. -/
theorem exec_body {s : Stmt} {o : Option Escape} {cs : List Command} (h : Eval s σ o τ)
    (hexits : ∀ e ∈ s.exits, e = .ret) (hlaid : N.Laid code .function hi s cs)
    (hnames : ∀ x ∈ s.names, fns (N.ref x) = some (code x)) (hholds : N.Holds S σ)
    (hquiet : N.Quiet S) : ∃ T, Exec fns cs S T ∧ N.Holds T τ ∧ N.Quiet T := by
  obtain ⟨T, hT, -, hrest⟩ := ((simulated_of_eval h).carried h) _ _ _ _ hlaid hnames hholds hquiet
  cases o with
  | none => exact ⟨T, hrest.2.exec, hT, hrest.1⟩
  | some e =>
      obtain rfl := hexits e (h.mem_exits e rfl)
      have hnil := hrest.2 [] T rfl
      rw [List.append_nil] at hnil
      exact ⟨T, hnil, hT, hrest.1⟩

end Target

end Datapack.Generation
