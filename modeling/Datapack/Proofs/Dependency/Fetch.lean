import Datapack.Dependency.Fetch
import Mathlib.Algebra.Ring.Int.Defs
import Mathlib.Order.Bounds.Basic
import Mathlib.Order.Nat

/-!
# How often an archive is requested

A fetch makes attempts until one settles it: a success, or a failure that another attempt would only repeat.
Each attempt takes the next response of the line, so the responses tell beforehand which attempt is the last
one.  An attempt that settles nothing leaves the rest of the fetch to a line that was asked and waited on once
more, and by induction on these attempts the fetch arrives at the last one.
-/

namespace Datapack.Dependency

variable {p : RetryPolicy} {url : String} {line : Line} {left tried n : Nat}

/-! ## Outcomes -/

/-- An outcome ends a fetch: a success, or a failure with a status below 500. -/
def Settles : Except AttemptFault (List UInt8) → Prop
  | .ok _ => True
  | .error (.status code) => code < 500
  | .error (.unreachable ..) | .error (.brokenOff _) => False

theorem settles_error_iff {fault : AttemptFault} : Settles (.error fault) ↔ fault.isFinal = true := by
  cases fault <;> simp [Settles, AttemptFault.isFinal]

namespace RetryPolicy

/-- A success is a whole answer with the status 200 that is not too large. -/
theorem judge_eq_ok_iff {u : Url} {r : Response} {body : List UInt8} :
    p.judge u r = .ok body ↔ r = .answered 200 body ∧ body.length ≤ p.sizeLimit := by
  cases r with
  | unreachable reason => simp [judge]
  | answered status received break? =>
      by_cases hstatus : status = 200
      · subst hstatus
        by_cases hlarge : p.sizeLimit < received.length
        · have hjudge : p.judge u (.answered 200 received break?) = .error (.status 413) := by simp [judge, hlarge]
          rw [hjudge]
          refine iff_of_false nofun ?_
          rintro ⟨⟨⟩, hsize⟩
          exact absurd hlarge (Nat.not_lt.2 hsize)
        · cases break? with
          | some reason => simp [judge, hlarge]
          | none =>
              have hjudge : p.judge u (.answered 200 received) = .ok received := by simp [judge, hlarge]
              rw [hjudge, Except.ok.injEq]
              constructor
              · rintro rfl
                exact ⟨rfl, Nat.not_lt.1 hlarge⟩
              · rintro ⟨⟨⟩, -⟩
                rfl
      · simp [judge, hstatus]

/-- The outcome of an attempt that follows `n` others of a fetch over a line. -/
def outcome (p : RetryPolicy) (url : String) (line : Line) (n : Nat) : Except AttemptFault (List UInt8) :=
  match Url.parse? url with
  | none => .error (.status 400)
  | some u => p.judge u (line.respond (line.requests.length + n))

theorem outcome_eq_ok_iff {body : List UInt8} : p.outcome url line n = .ok body ↔
    (Url.parse? url).isSome ∧ line.respond (line.requests.length + n) = .answered 200 body ∧
      body.length ≤ p.sizeLimit := by
  unfold outcome
  cases Url.parse? url with
  | none => simp
  | some u => simp [judge_eq_ok_iff]

end RetryPolicy

/-! ## One attempt -/

/-- The requests that some attempts make: one each, and none if the text is no address. -/
def requested (url : String) (attempts : Nat) : List String :=
  match Url.parse? url with
  | none => []
  | some u => List.replicate attempts u.text

theorem requested_succ (url : String) (n : Nat) :
    requested url (n + 1) = requested url n ++ requested url 1 := by
  unfold requested
  cases Url.parse? url with
  | none => rfl
  | some u => exact List.replicate_succ'

/-- The line after one more attempt. -/
def Line.asked (line : Line) (url : String) : Line :=
  { line with requests := line.requests ++ requested url 1 }

namespace RetryPolicy

theorem attempt_eq (p : RetryPolicy) (url : String) (line : Line) :
    p.attempt url line = (p.outcome url line 0, line.asked url) := by
  unfold attempt outcome Line.asked requested
  cases Url.parse? url with
  | none => simp
  | some u => rfl

theorem fetchFrom_of_settles (h : Settles (p.outcome url line 0) ∨ left = 0) (tried : Nat) :
    p.fetchFrom url left tried line = ((p.outcome url line 0).mapError (.failed url), line.asked url) := by
  unfold fetchFrom
  rw [attempt_eq]
  cases houtcome : p.outcome url line 0 with
  | ok body => rfl
  | error fault =>
      cases left with
      | zero => rfl
      | succ left =>
          rw [houtcome, settles_error_iff, or_iff_left (Nat.succ_ne_zero left)] at h
          simp [h, Except.mapError]

theorem fetchFrom_of_not_settles (h : ¬Settles (p.outcome url line 0)) (hline : line.interrupted = false)
    (left tried : Nat) : p.fetchFrom url (left + 1) tried line =
      p.fetchFrom url left (tried + 1) ((line.asked url).wait (p.delay tried)) := by
  conv_lhs => unfold fetchFrom
  rw [attempt_eq]
  cases houtcome : p.outcome url line 0 with
  | ok body =>
      rw [houtcome] at h
      exact absurd trivial h
  | error fault =>
      rw [houtcome, settles_error_iff] at h
      simp [h, Line.asked, Line.wait, hline]

/-! ## A whole fetch -/

/-- The line after some attempts of a fetch and the delays behind them. -/
def waited (p : RetryPolicy) (url : String) (line : Line) (n : Nat) : Line :=
  { line with
    requests := line.requests ++ requested url n
    delays := line.delays ++ (List.range n).map p.delay }

theorem waited_zero (p : RetryPolicy) (url : String) (line : Line) : p.waited url line 0 = line := by
  have hnone : requested url 0 = [] := by
    unfold requested
    cases Url.parse? url <;> rfl
  simp [waited, hnone]

theorem waited_succ (p : RetryPolicy) (url : String) (line : Line) (n : Nat) :
    p.waited url line (n + 1) = ((p.waited url line n).asked url).wait (p.delay n) := by
  simp [waited, Line.asked, Line.wait, requested_succ url n, List.range_succ]

/-- The attempt that follows `n` others finds the outcome at their end. -/
theorem outcome_waited (p : RetryPolicy) (url : String) (line : Line) (n : Nat) :
    p.outcome url (p.waited url line n) 0 = p.outcome url line n := by
  unfold outcome waited requested
  cases Url.parse? url with
  | none => rfl
  | some u => simp

/-- As long as no attempt settles it, a fetch goes on with what is left. -/
theorem fetch_eq_fetchFrom (hline : line.interrupted = false) (hn : n ≤ p.retries)
    (h : ∀ j < n, ¬Settles (p.outcome url line j)) :
    p.fetch url line = p.fetchFrom url (p.retries - n) n (p.waited url line n) := by
  induction n with
  | zero => rw [waited_zero, Nat.sub_zero, fetch]
  | succ n ih =>
      have hsettles : ¬Settles (p.outcome url (p.waited url line n) 0) := by
        rw [outcome_waited]
        exact h n (Nat.lt_succ_self n)
      have hleft : p.retries - n = p.retries - (n + 1) + 1 := by omega
      rw [ih (Nat.le_of_succ_le hn) fun j hj => h j (Nat.lt_succ_of_lt hj), hleft,
        fetchFrom_of_not_settles hsettles hline, waited_succ]

/-- A delay that fits into a word is the first one times a power of two. -/
theorem toInt_delay (p : RetryPolicy) {n : Nat} (hlow : -2 ^ 63 ≤ p.backoff.toInt * 2 ^ n)
    (hhigh : p.backoff.toInt * 2 ^ n < 2 ^ 63) : (p.delay n).toInt = p.backoff.toInt * 2 ^ n := by
  have hword : (p.delay n).toInt = (p.backoff.toInt * 2 ^ n).bmod (2 ^ 64) := by
    rw [delay, Int64.toInt_ofBitVec, BitVec.toInt_shiftLeft, Nat.shiftLeft_eq, Int.natCast_mul, Int.natCast_pow,
      Int.cast_ofNat_Int, ← Int64.toInt_toBitVec, BitVec.toInt_eq_toNat_bmod, Int.bmod_mul_bmod]
  rw [hword, Int.bmod_eq_of_le_mul_two (by omega) (by omega)]

/-- While waiting is not interrupted, a fetch ends with the first attempt that is a success or fails with a
status below 500, or else with the last one that the policy allows.  Before an attempt that follows `j` others
there were `j` delays, which start with the backoff and double as long as a word holds them.  The fetch returns
the body of its last attempt or names the failure of it. -/
theorem fetch_retries (hline : line.interrupted = false) (p : RetryPolicy) (url : String) :
    ∃ n, IsLeast {j | Settles (p.outcome url line j) ∨ j = p.retries} n ∧
      (∀ j ≤ n, p.fetch url line = p.fetchFrom url (p.retries - j) j (p.waited url line j)) ∧
      (∀ j < n, -2 ^ 63 ≤ p.backoff.toInt * 2 ^ j → p.backoff.toInt * 2 ^ j < 2 ^ 63 →
        (p.delay j).toInt = p.backoff.toInt * 2 ^ j) ∧
      (p.fetch url line).2.requests = line.requests ++ requested url (n + 1) ∧
      (p.fetch url line).2.delays = line.delays ++ (List.range n).map p.delay ∧
      (∀ body, (p.fetch url line).1 = .ok body ↔
        (Url.parse? url).isSome ∧ line.respond (line.requests.length + n) = .answered 200 body ∧
          body.length ≤ p.sizeLimit) ∧
      ∀ fault, p.outcome url line n = .error fault → ∃ e, (p.fetch url line).1 = .error e ∧
        e.message = "fetch failed: " ++ url ++ ": " ++ fault.message := by
  classical
  have hstops : ∃ j, Settles (p.outcome url line j) ∨ j = p.retries := ⟨p.retries, .inr rfl⟩
  obtain ⟨n, hn⟩ : ∃ n, IsLeast {j | Settles (p.outcome url line j) ∨ j = p.retries} n :=
    ⟨_, Nat.isLeast_find hstops⟩
  have hlimit : n ≤ p.retries := hn.2 (.inr rfl)
  have hgoes : ∀ j ≤ n, p.fetch url line = p.fetchFrom url (p.retries - j) j (p.waited url line j) :=
    fun j hj => fetch_eq_fetchFrom hline (hj.trans hlimit) fun i hi hsettles =>
      Nat.not_lt.2 (hn.2 (.inl hsettles)) (hi.trans_le hj)
  have hends : Settles (p.outcome url (p.waited url line n) 0) ∨ p.retries - n = 0 := by
    rw [outcome_waited]
    exact hn.1.imp_right fun hlast => by omega
  have hfetch : p.fetch url line =
      ((p.outcome url line n).mapError (.failed url), (p.waited url line n).asked url) := by
    rw [hgoes n le_rfl, fetchFrom_of_settles hends, outcome_waited]
  refine ⟨n, hn, hgoes, fun j _ => p.toInt_delay, ?_, ?_, fun body => ?_, fun fault hfault => ?_⟩
  · rw [hfetch, requested_succ, ← List.append_assoc]
    rfl
  · rw [hfetch]
    rfl
  · rw [hfetch, ← outcome_eq_ok_iff]
    cases p.outcome url line n <;> simp [Except.mapError]
  · exact ⟨.failed url fault, by rw [hfetch, hfault]; rfl, rfl⟩

/-- A line that answers in the end. -/
def flakyLine : Line := .scripted [.answered 503 [], .unreachable "reset", .answered 200 [0x50]]

/-- A server that is down and a connection that is lost are tried again. -/
theorem fetch_retries_flaky : flakyLine.interrupted = false ∧
    (fetch {} "http://h.test/p.zip" flakyLine).1 = .ok [0x50] ∧
    (fetch {} "http://h.test/p.zip" flakyLine).2.requests = List.replicate 3 "http://h.test/p.zip" ∧
    (fetch {} "http://h.test/p.zip" flakyLine).2.delays = [500000000, 1000000000] := by
  obtain ⟨n, hn, -, -, hrequests, hdelays, hbody, -⟩ :=
    fetch_retries (show flakyLine.interrupted = false from rfl) {} "http://h.test/p.zip"
  have houtcome : outcome {} "http://h.test/p.zip" flakyLine 0 = .error (.status 503) ∧
      outcome {} "http://h.test/p.zip" flakyLine 1 =
        .error (.unreachable (Text.bytes "http://h.test/p.zip") "reset") ∧
      outcome {} "http://h.test/p.zip" flakyLine 2 = .ok [0x50] := by decide +kernel
  have htwo : n = 2 := by
    refine hn.unique ⟨.inl (by simp [houtcome, Settles]), fun j hj => ?_⟩
    match j with
    | 0 => simp [houtcome, Settles] at hj
    | 1 => simp [houtcome, Settles] at hj
    | j + 2 => exact Nat.le_add_left 2 j
  subst htwo
  refine ⟨rfl, (hbody _).2 ⟨by decide +kernel, rfl, by decide⟩, hrequests.trans ?_, hdelays.trans ?_⟩
  · decide +kernel
  · decide

end RetryPolicy

end Datapack.Dependency
