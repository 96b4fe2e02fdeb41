import OxideDB.ByteOrder
import OxideDB.Program
import OxideDB.Txn.System

/-!
# A client and the rest of the cluster

A client of the cluster, in one thread, and everything around it.  The shards are state machines;
between any two calls of the client others change them, and entries that proposals of the client
have left in a log are applied.  What a call meets is a `Moment`: whether it raises, who leads, what
the clock says, and what becomes of a proposal.  The moments are given in advance and nothing is
assumed about them, so a statement about a client holds whatever the cluster does.

* `World` — the shards, and the proposals of the client with what the machine has said to each.
* `Moment`, `Client.next` — one call of the client.
-/

namespace OxideDB

open Raft (Bytes ApplyResult ErrorCode)
open Storage MVCCStateMachine
open Txn (TxnStatus)

namespace Client

/-! ## The shards -/

/-- A proposal of the client, and whose call made it. -/
structure Proposal where
  txn : ℕ
  shard : ℕ
  command : Command
  /-- Entries in the shard's log, not applied yet. -/
  waiting : ℕ := 0
  /-- The machine's answers to the entries that were applied. -/
  results : List ApplyResult := []
  deriving DecidableEq

structure World where
  shards : ℕ → MVCCStateMachine
  proposals : List Proposal := []

/-- What goes on beside the client. -/
inductive Happening where
  /-- A command of somebody else. -/
  | command (shard : ℕ) (now : Time) (command : Command)
  /-- An entry of a proposal of the client. -/
  | entry (j : ℕ) (now : Time)
  deriving DecidableEq

namespace World

variable (w : World)

/-- The machine's answer to a command, and the shards after it. -/
def apply (shard : ℕ) (now : Time) (command : Command) : ApplyResult × World :=
  let (machine, result) := MVCCStateMachine.apply now (w.shards shard) command
  (result, { w with shards := Function.update w.shards shard machine })

/-- Proposal `j`, which is `p`, is applied. -/
def execute (j : ℕ) (now : Time) (p : Proposal) : ApplyResult × World :=
  let (result, w') := w.apply p.shard now p.command
  (result, { w' with proposals := w.proposals.set j { p with results := p.results ++ [result] } })

def happen : Happening → World
  | .command shard now command => (w.apply shard now command).2
  | .entry j now =>
    match w.proposals[j]? with
    | some p =>
      if 0 < p.waiting then (w.execute j now { p with waiting := p.waiting - 1 }).2 else w
    | none => w

def happenAll (happenings : List Happening) : World := happenings.foldl happen w

end World

/-! ## Calls -/

/-- What the caller of a proposal hears. -/
inductive Heard where
  /-- The entry is applied, and this is what the machine says. -/
  | answer (now : Time)
  /-- A success that the machine need not have given: the node has no answer for the entry, or
  another entry's. -/
  | presumed
  /-- A refusal, or a failure the caller is told of. -/
  | failure (code : ErrorCode) (msg : String)
  /-- `None`: no leader was found. -/
  | nothing
  | raised (msg : String)
  deriving DecidableEq

/-- What a call of the client meets. -/
structure Moment where
  /-- What has gone on since the last call. -/
  before : List Happening := []
  /-- A call other than a proposal raises. -/
  raised : Option String := none
  /-- The placement the client holds. -/
  shard : Bytes → Option ℕ
  /-- A lookup finds a leader. -/
  leader : Bool := true
  timestamp : ℤ := 0
  /-- What a read is answered, and a read of the newest write record. -/
  value : Option Bytes := none
  record : Option WriteRecord := none
  /-- Entries the walk of a proposal leaves in a log, beside the one that is answered. -/
  copies : ℕ := 0
  /-- What goes on while the proposal is made. -/
  during : List Happening := []
  heard : Heard := .answer 0
  /-- Which thread of an executor is next. -/
  thread : ℕ := 0

/-- `Transaction`. -/
structure Transaction where
  startTs : ℤ
  commitTs : Option ℤ := none
  keys : List (Bytes × Bytes) := []
  status : TxnStatus := .pending
  readSet : List Bytes := []
  abortReason : Option String := none
  deriving DecidableEq

/-- `primary_key`: the first key that was added. -/
def Transaction.primaryKey (t : Transaction) : Bytes := (t.keys.head?.map Prod.fst).getD []

/-- A `_commit_key` that waits for a thread of the executor. -/
structure SecondaryCommit where
  txn : ℕ
  shard : ℕ
  key : Bytes
  startTs : ℤ
  commitTs : ℤ
  deriving DecidableEq

end Client

/-- A client: the coordinator with its transactions, the executor, and the world around them. -/
structure Client where
  world : Client.World
  moments : ℕ → Client.Moment
  /-- How many calls have been made. -/
  calls : ℕ := 0
  validateReads : Bool := true
  txnIdCounter : ℕ := 0
  transactions : ℕ → Option Client.Transaction := fun _ => none
  executor : List Client.SecondaryCommit := []
  /-- The transactions of the calls of `run`, in the order in which they were begun. -/
  attempts : List ℕ := []

namespace Client

/-- A client that has made no call. -/
def init (shards : ℕ → MVCCStateMachine) (moments : ℕ → Moment) (validateReads : Bool) : Client where
  world := { shards := shards }
  moments := moments
  validateReads := validateReads

/-- A method of the coordinator. -/
abbrev Method := Program Client String

open Program

/-- What the next call meets. -/
def moment (c : Client) : Moment := c.moments c.calls

/-- The next call begins, and what has gone on before it. -/
def advance (c : Client) : Client :=
  { c with calls := c.calls + 1, world := c.world.happenAll c.moment.before }

def next : Method Moment := fun c => (.ok c.moment, c.advance)

/-- A call that is answered from the moment, or raises. -/
def ask {A : Type} (f : Moment → A) : Method A := do
  let m ← next
  match m.raised with
  | some e => raise e
  | none => return f m

/-- A proposal goes out: entries of it are in a log, and what goes on meanwhile. -/
def posted (c : Client) (txn shard : ℕ) (command : Command) (m : Moment) : Client :=
  let p : Proposal := { txn := txn, shard := shard, command := command, waiting := m.copies }
  { c with world := { c.world with proposals := c.world.proposals ++ [p] }.happenAll m.during }

def post (txn shard : ℕ) (command : Command) (m : Moment) : Method ℕ := fun c =>
  (.ok c.world.proposals.length, c.posted txn shard command m)

/-- Proposal `j` is applied, and answered. -/
def answered (j : ℕ) (now : Time) : Method (Option ApplyResult) := fun c =>
  match c.world.proposals[j]? with
  | some p => (.ok (some (c.world.execute j now p).1), { c with world := (c.world.execute j now p).2 })
  | none => (.ok none, c)

/-- `_propose_to`, called for a transaction. -/
def proposeTo (txn shard : ℕ) (command : Command) : Method (Option ApplyResult) := do
  let m ← next
  let j ← post txn shard command m
  match m.heard with
  | .answer now => answered j now
  | .presumed => return some .ok
  | .failure code msg => return some (.failure code msg)
  | .nothing => return none
  | .raised msg => raise msg

end Client
end OxideDB
