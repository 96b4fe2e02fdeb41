import OxideDB.Client.World

/-!
# The transaction coordinator

`begin`, `add_write`, `read`, `commit` and `rollback` as one client calls them, one after the
other.  The prewrite threads of a call are the only ones that run side by side; which of them is
next is the moment's choice.
-/

namespace OxideDB.Client

open Raft (Bytes ApplyResult)
open Storage MVCCStateMachine
open Txn (TxnStatus Groups addToGroup)
open Program

/-- Change a transaction of the coordinator. -/
def setTxn (id : ℕ) (f : Transaction → Transaction) : Method Unit :=
  modify fun c => { c with
    transactions := Function.update c.transactions id ((c.transactions id).map f) }

def setStatus (id : ℕ) (status : TxnStatus) : Method Unit := setTxn id ({ · with status := status })

/-- `_get_shard_id`. -/
def getShardId (key : Bytes) : Method ℕ := do
  match ← ask (·.shard key) with
  | some shard => return shard
  | none =>
    let text := reprBytes key
    raise s!"No shard holds {text}"

/-- `_get_shard_leader`, as far as there is one. -/
def getShardLeader (_shard : ℕ) : Method Bool := ask (·.leader)

/-- `tso_client.get_timestamp()`. -/
def getTimestamp : Method ℤ := ask (·.timestamp)

/-- `begin`. -/
def begin : Method ℕ := do
  modify fun c => { c with txnIdCounter := c.txnIdCounter + 1 }
  let id ← get (·.txnIdCounter)
  let startTs ← getTimestamp
  modify fun c => { c with
    transactions := Function.update c.transactions id (some { startTs := startTs }) }
  return id

/-- `add_write`. -/
def addWrite (id : ℕ) (key value : Bytes) : Method Unit := do
  match ← get (·.transactions id) with
  | none => raise s!"Transaction {id} not found"
  | some t =>
    if t.status = .pending then setTxn id fun t => { t with keys := t.keys ++ [(key, value)] }
    else raise s!"Transaction {id} is not pending"

/-- `read`, with the locks in its way settled by then. -/
def read (id : ℕ) (key : Bytes) : Method (Option Bytes) := do
  match ← get (·.transactions id) with
  | none => raise s!"Transaction {id} not found"
  | some _ =>
    let value ← ask (·.value)
    setTxn id fun t => { t with
      readSet := if t.readSet.contains key then t.readSet
        else t.readSet.orderedInsert (· ≤ ·) key }
    return value

/-- `_group_keys_by_shard`. -/
def groupKeysByShard : List (Bytes × Bytes) → Groups → Method Groups
  | [], groups => return groups
  | row :: rows, groups => do
    let shard ← getShardId row.1
    groupKeysByShard rows (addToGroup shard row groups)

/-- The threads of `_prewrite_shard` until all are done: those that are not, with the keys they
have not got through, and whether every one that is has returned `True`. -/
def prewriteShards (id : ℕ) (t : Transaction) : ℕ → Groups → Bool → Method Bool
  | 0, _, ok => return ok
  | fuel + 1, running, ok => do
    let i ← get (·.moment.thread % running.length)
    match running[i]? with
    | none => return ok
    | some (_, []) => prewriteShards id t fuel (running.eraseIdx i) ok
    | some (shard, (key, value) :: rest) =>
      match ← attempt (proposeTo id shard (.prewrite key value t.startTs t.primaryKey)) with
      | .ok (some result) =>
        if result.success then prewriteShards id t fuel (running.set i (shard, rest)) ok
        else prewriteShards id t fuel (running.eraseIdx i) false
      | _ => prewriteShards id t fuel (running.eraseIdx i) false

/-- The steps the threads take at most. -/
def threadSteps (groups : Groups) : ℕ := (groups.map fun g => g.2.length + 1).sum

/-- `_rollback_all_shards`. -/
def rollbackAllShards (id : ℕ) (t : Transaction) (groups : Groups) : Method Unit :=
  groups.forM fun g => g.2.forM fun row => do
    let _ ← proposeTo id g.1 (.rollback row.1 t.startTs)

/-- Whether each of the shards has a leader, in order, up to the first that has none. -/
def allLeaders : Groups → Method Bool
  | [] => return true
  | g :: groups => do
    if ← getShardLeader g.1 then allLeaders groups else return false

/-- `_prewrite_all_shards`. -/
def prewriteAllShards (id : ℕ) (t : Transaction) (groups : Groups) : Method Bool := do
  if ← allLeaders groups then
    if ← prewriteShards id t (threadSteps groups) groups true then return true
    else
      rollbackAllShards id t groups
      return false
  else return false

/-- `_validate_read_set`. -/
def validateReadSet (t : Transaction) : List Bytes → Method (Option String)
  | [] => return none
  | key :: keys => do
    let text := reprBytes key
    let shard ← getShardId key
    if ← getShardLeader shard then
      match ← ask (·.record) with
      | some record =>
        let c := record.commitTs
        let s := t.startTs
        if t.startTs < record.commitTs then
          return some s!"{text} was committed at {c}, after this transaction started at {s}"
        else validateReadSet t keys
      | none => validateReadSet t keys
    else return some s!"no leader for shard {shard}, holding {text}"

/-- What `commit` makes of the read set. -/
def readConflict (t : Transaction) : Method (Option String) := do
  if ← get (·.validateReads) then validateReadSet t t.readSet else return none

/-- `_commit_key`. -/
def commitKey (id shard : ℕ) (key : Bytes) (startTs commitTs : ℤ) : Method (Option ApplyResult) :=
  proposeTo id shard (.commit key startTs commitTs)

/-- `_commit_secondary_shards`: what it hands to the executor. -/
def secondaries (id : ℕ) (t : Transaction) (groups : Groups) (commitTs : ℤ) :
    List SecondaryCommit :=
  groups.flatMap fun g => (g.2.filter (·.1 ≠ t.primaryKey)).map fun row =>
    ⟨id, g.1, row.1, t.startTs, commitTs⟩

/-- The end of a `commit` that does not go through. -/
def abort (id : ℕ) (t : Transaction) (groups : Groups) (reason : Option String) :
    Method (Bool × Option ℤ) := do
  rollbackAllShards id t groups
  setTxn id fun t => { t with status := .aborted, abortReason := reason.or t.abortReason }
  return (false, none)

/-- `commit`, from the commit timestamp on. -/
def commitPrimary (id : ℕ) (t : Transaction) (groups : Groups) : Method (Bool × Option ℤ) := do
  let commitTs ← getTimestamp
  setTxn id ({ · with commitTs := some commitTs })
  let shard ← getShardId t.primaryKey
  if ← getShardLeader shard then
    match ← commitKey id shard t.primaryKey t.startTs commitTs with
    | some result =>
      if result.success then
        setStatus id .committed
        modify fun c => { c with executor := c.executor ++ secondaries id t groups commitTs }
        return (true, some commitTs)
      else abort id t groups none
    | none => abort id t groups none
  else abort id t groups none

/-- `commit`, with every key locked. -/
def commitPrewritten (id : ℕ) (t : Transaction) (groups : Groups) :
    Method (Bool × Option ℤ) := do
  setStatus id .prewritten
  match ← readConflict t with
  | some text => abort id t groups (some s!"read set invalidated: {text}")
  | none => commitPrimary id t groups

/-- `commit`. -/
def commit (id : ℕ) : Method (Bool × Option ℤ) := do
  match ← get (·.transactions id) with
  | none => return (false, none)
  | some t =>
    if t.status ≠ .pending then return (false, none)
    else if t.keys = [] then
      setTxn id fun t => { t with status := .committed, commitTs := some t.startTs }
      return (true, some t.startTs)
    else
      let groups ← groupKeysByShard t.keys []
      if ← prewriteAllShards id t groups then commitPrewritten id t groups
      else
        setStatus id .aborted
        return (false, none)

/-- `rollback`. -/
def rollback (id : ℕ) : Method Bool := do
  match ← get (·.transactions id) with
  | none => return false
  | some t =>
    if t.status = .committed then return false
    else if t.status = .pending then
      setStatus id .aborted
      return true
    else
      let groups ← groupKeysByShard t.keys []
      rollbackAllShards id t groups
      setStatus id .aborted
      return true

/-- A thread of the executor takes the `i`-th commit of a secondary key. -/
def runSecondary (i : ℕ) : Method Unit := do
  match ← get (·.executor[i]?) with
  | none => return ()
  | some s =>
    modify fun c => { c with executor := c.executor.eraseIdx i }
    let _ ← attempt (commitKey s.txn s.shard s.key s.startTs s.commitTs)

end OxideDB.Client
