import Datapack.Dependency.Url
import Datapack.Text.Quote

/-!
# Fetching archives

An archive is requested over a `Line`, which keeps a record of the requests made and the delays waited.
A failure that may go away on its own is tried again after a delay that doubles each time.
-/

namespace Datapack.Dependency

/-- What a request leads to. -/
inductive Response where
  /-- The server answers with a status and a body, which may break off for a reason. -/
  | answered (status : Int) (body : List UInt8) (break? : Option String := none)
  /-- No answer arrives. -/
  | unreachable (reason : String)
  deriving DecidableEq

/-- A connection to the servers of archives. -/
structure Line where
  /-- The response to the `n`-th request. -/
  respond : Nat → Response
  /-- The requests made so far. -/
  requests : List String := []
  /-- The delays waited so far, in nanoseconds. -/
  delays : List Int64 := []
  /-- Whether waiting is interrupted. -/
  interrupted : Bool := false

namespace Line

/-- The line on which the given responses arrive in order and the last is repeated. -/
def scripted (responses : List Response) : Line :=
  { respond := fun n =>
      (responses[n]?.or responses.getLast?).getD (.unreachable "no response") }

def request (line : Line) (url : String) : Response × Line :=
  (line.respond line.requests.length, { line with requests := line.requests ++ [url] })

def wait (line : Line) (delay : Int64) : Line := { line with delays := line.delays ++ [delay] }

/-- The wording of a delay of whole milliseconds below a minute. -/
def delayText (delay : Int64) : String :=
  let millis := delay.toInt / 1000000
  if millis % 1000 = 0 then toString (millis / 1000) ++ "s" else toString millis ++ "ms"

end Line

inductive AttemptFault where
  | status (code : Int)
  /-- No answer arrived from an address, which is given by its bytes. -/
  | unreachable (url : List UInt8) (reason : String)
  /-- The body of an answer breaks off. -/
  | brokenOff (reason : String)
  deriving DecidableEq

def AttemptFault.message : AttemptFault → String
  | status code => "http " ++ toString code
  | unreachable url reason => "Get " ++ Text.quotedBytes url ++ ": " ++ reason
  | brokenOff reason => reason

/-- Whether another attempt would fail in the same way. -/
def AttemptFault.isFinal : AttemptFault → Bool
  | status code => code < 500
  | unreachable .. | brokenOff _ => false

inductive FetchFault where
  /-- The last attempt failed. -/
  | failed (url : String) (last : AttemptFault)
  /-- Waiting was interrupted. -/
  | interrupted
  deriving DecidableEq

def FetchFault.message : FetchFault → String
  | failed url last => "fetch failed: " ++ url ++ ": " ++ last.message
  | interrupted => "fetch failed: context canceled"

/-- How often and after which delay to try again. -/
structure RetryPolicy where
  retries : Nat := 3
  /-- The first delay in nanoseconds. -/
  backoff : Int64 := 500000000
  /-- The largest archive that is accepted, in bytes. -/
  sizeLimit : Nat := 64 * 1024 * 1024

namespace RetryPolicy

/-- The delay before another attempt: the first one, doubled in a word for every attempt but the first. -/
def delay (p : RetryPolicy) (tried : Nat) : Int64 := .ofBitVec (p.backoff.toBitVec <<< tried)

/-- The outcome a response stands for. Nothing of a body beyond the largest size is read. -/
def judge (p : RetryPolicy) (u : Url) : Response → Except AttemptFault (List UInt8)
  | .unreachable reason => .error (.unreachable u.redacted reason)
  | .answered status body break? =>
    if status ≠ 200 then .error (.status status)
    else if p.sizeLimit < body.length then .error (.status 413)
    else
      match break? with
      | some reason => .error (.brokenOff reason)
      | none => .ok body

/-- Try once. A text that is no address counts as a bad request, and none is made. -/
def attempt (p : RetryPolicy) (url : String) (line : Line) :
    Except AttemptFault (List UInt8) × Line :=
  match Url.parse? url with
  | none => (.error (.status 400), line)
  | some u =>
    let (response, line) := line.request u.text
    (p.judge u response, line)

/-- Try, and try again `left` times at most. `tried` attempts were made before. -/
def fetchFrom (p : RetryPolicy) (url : String) :
    Nat → Nat → Line → Except FetchFault (List UInt8) × Line
  | left, tried, line =>
    match p.attempt url line with
    | (.ok body, line) => (.ok body, line)
    | (.error fault, line) =>
      match left with
      | 0 => (.error (.failed url fault), line)
      | left + 1 =>
        if fault.isFinal then (.error (.failed url fault), line)
        else
          let line := line.wait (p.delay tried)
          if line.interrupted then (.error .interrupted, line)
          else fetchFrom p url left (tried + 1) line

def fetch (p : RetryPolicy) (url : String) (line : Line) :
    Except FetchFault (List UInt8) × Line :=
  p.fetchFrom url p.retries 0 line

end RetryPolicy

end Datapack.Dependency
