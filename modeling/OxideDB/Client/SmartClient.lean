import OxideDB.Client.Coordinator

/-!
# The client's retries

`SmartClient.commit` tries a failed commit again, on the same transaction; `SmartClient.run` runs the
work again, in a new one.  The work is whatever a caller does through the client: a tree of calls in
which every next call may depend on what the last one returned or raised.
-/

namespace OxideDB.Client

open Raft (Bytes)
open Txn (TxnStatus)
open Program

inductive Error where
  /-- `SerializationError`. -/
  | serialization (msg : String)
  | other (msg : String)
  deriving DecidableEq

namespace SmartClient

/-- A method of the client. -/
abbrev Method := Program Client Error

/-- A method of the coordinator, called by the client. -/
def call {A : Type} (p : Client.Method A) : Method A := fun c =>
  (match (p c).1 with
    | .ok a => .ok a
    | .error e => .error (.other e), (p c).2)

/-- `_retry_max_attempts`. -/
def retryMaxAttempts : ℕ := 3

/-- The attempts of `_retry_with_backoff` that are left, and the last error. -/
def retryWithBackoff {A : Type} (func : Method A) : ℕ → Error → Method A
  | 0, lastError => raise lastError
  | attempts + 1, _ => do
    match ← attempt func with
    | .ok a => return a
    | .error (.serialization msg) => raise (.serialization msg)
    | .error (.other msg) => retryWithBackoff func attempts (.other msg)

/-- `str` of a `TxnStatus`. -/
def statusText : TxnStatus → String
  | .pending => "TxnStatus.PENDING"
  | .prewritten => "TxnStatus.PREWRITTEN"
  | .committed => "TxnStatus.COMMITTED"
  | .aborted => "TxnStatus.ABORTED"

/-- `_do_commit`. -/
def doCommit (id : ℕ) : Method (Bool × Option ℤ) := do
  let result ← call (Client.commit id)
  if result.1 then return result
  else
    match ← get (·.transactions id) with
    | none => raise (.other "Commit failed")
    | some t =>
      match t.abortReason with
      | some reason => raise (.serialization s!"Commit aborted: {reason}")
      | none =>
        let status := statusText t.status
        raise (.other s!"Commit failed: {status}")

/-- What `raise` makes of a `last_error` that is `None`. -/
def noError : Error := .other "exceptions must derive from BaseException"

/-- `commit`. -/
def commit (id : ℕ) : Method (Bool × Option ℤ) :=
  retryWithBackoff (doCommit id) retryMaxAttempts noError

/-! ## Work -/

/-- What a caller can ask the client for. -/
inductive Request where
  | begin
  | addWrite (id : ℕ) (key value : Bytes)
  | read (id : ℕ) (key : Bytes)
  | commit (id : ℕ)
  | rollback (id : ℕ)
  /-- A call that touches no transaction, such as `get` or `delete`. -/
  | other
  /-- The executor takes a commit of a secondary key meanwhile. -/
  | background (i : ℕ)

inductive Value where
  | none
  | id (id : ℕ)
  | bytes (value : Option Bytes)
  | committed (success : Bool) (commitTs : Option ℤ)
  | flag (b : Bool)

def Request.perform : Request → Method Value
  | .begin => do return .id (← call Client.begin)
  | .addWrite id key value => do
    call (Client.addWrite id key value)
    return .none
  | .read id key => do return .bytes (← call (Client.read id key))
  | .commit id => do
    let (success, commitTs) ← SmartClient.commit id
    return .committed success commitTs
  | .rollback id => do return .flag (← call (Client.rollback id))
  | .other => do return .bytes (← call (ask (·.value)))
  | .background i => do
    call (runSecondary i)
    return .none

/-- A work function at work: it is done, raises, or calls the client and goes on with the answer. -/
inductive Work where
  | done
  | raise (e : Error)
  | request (r : Request) (next : Except Error Value → Work)

def Work.perform : Work → Method Unit
  | .done => return ()
  | .raise e => Program.raise e
  | .request r next => do
    let answer ← attempt r.perform
    (next answer).perform

/-- The attempts of `run` that are left, and the last error. -/
def run (work : ℕ → Work) : ℕ → Error → Method Bool
  | 0, lastError => raise lastError
  | attempts + 1, lastError => do
    let id ← call Client.begin
    modify fun c => { c with attempts := c.attempts ++ [id] }
    (work id).perform
    match ← attempt (commit id) with
    | .ok (true, _) => return true
    | .ok (false, _) => run work attempts lastError
    | .error (.serialization msg) => run work attempts (.serialization msg)
    | .error (.other msg) => raise (.other msg)

end SmartClient
end OxideDB.Client
