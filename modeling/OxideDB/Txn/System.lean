import Mathlib.Data.List.Sort
import OxideDB.Positions
import OxideDB.Tso.Client
import OxideDB.Txn.Resolver

/-!
# Transactions over shards

`transaction/coordinator.py`, with the resolver and the cleaner of `lock_resolver.py` and
`lock_cleaner.py`: any number of coordinators, each with its own timestamp client, any number
of transactions, and whoever meets a lock.  A shard is one machine that applies its commands
one after the other.

What is proposed and what is applied are kept apart.  A call of `_propose_to` (`Call`) may put
its command into the log of its shard any number of times, since the walk asks again where it
was refused; each of these entries is applied at any later moment or never; and what the
proposer hears is the machine's answer to one of them, some refusal, nothing, an exception, or a
success that the machine did not give.

A transaction is where its `commit` (or `prewrite`) call has got to (`Phase`).  One event is
one thread taking one step: proposing, hearing, reading a shard, drawing a timestamp.
-/

namespace OxideDB.Txn

open Raft (Bytes ApplyResult)
open Storage MVCCStateMachine
open Tso (TSOClient TSOSMStateMachine)

/-- The placement, the clients' batch sizes, and how the coordinators are configured. -/
structure Config where
  shardOf : Bytes → ℕ
  batchSize : ℕ → ℕ
  resolver : LockResolver
  validateReads : Bool
  batch_pos (c : ℕ) : 1 ≤ batchSize c

/-- Timestamps are fetched one at a time, and `commit` validates what was read. -/
def Config.unbatched (shardOf : Bytes → ℕ) : Config where
  shardOf := shardOf
  batchSize _ := 1
  resolver := ⟨5⟩
  validateReads := true
  batch_pos _ := le_rfl

/-! ## Proposals -/

/-- What the caller of `_propose_to` hears. -/
inductive Answer where
  /-- A result: the machine's, or a refusal. -/
  | result (r : ApplyResult)
  /-- `None`: no leader was found. -/
  | none
  /-- `NodeUnreachable` left the walk. -/
  | raised
  deriving DecidableEq

/-- The test a proposer makes of what it heard. -/
def Answer.success : Answer → Bool
  | .result r => r.success
  | .none => false
  | .raised => false

/-- A call of `_propose_to`. -/
structure Call where
  shard : ℕ
  command : Command
  /-- Entries in the shard's log, not applied yet. -/
  pending : ℕ := 0
  /-- The machine's answers to the entries that were applied. -/
  results : List ApplyResult := []
  answer : Option Answer := none
  deriving DecidableEq

/-- An entry of the call may still be applied. -/
def Call.live (call : Call) : Bool := call.answer.isNone || 0 < call.pending

/-! ## Transactions -/

inductive TxnStatus where
  | pending
  | prewritten
  | committed
  | aborted
  deriving DecidableEq, Repr

/-- A thread of `_prewrite_shard`. -/
structure ShardTask where
  shard : ℕ
  /-- The keys it has not got through, the one it is waiting for first. -/
  todo : List (Bytes × Bytes)
  call : Option ℕ := none
  verdict : Option Bool := none
  deriving DecidableEq

/-- Where a transaction's `commit` or `prewrite` call is. -/
inductive Phase where
  /-- Neither has been called. -/
  | active
  | prewriting (tasks : List ShardTask)
  /-- `prewrite` has returned `True`. -/
  | prewritten
  /-- `commit`, before it holds the commit lock. -/
  | awaitingLock
  /-- `_validate_read_set`, with the keys it has not read; then the primary's commit. -/
  | validating (todo : List Bytes)
  | committing (call : ℕ)
  /-- `_rollback_all_shards`, with the keys it has not got through. -/
  | rollingBack (todo : List Bytes) (call : Option ℕ)
  /-- Committed, with the secondary keys whose commits are still with the executor. -/
  | committed (secondaries : List Bytes)
  /-- Aborted, or left by an exception. -/
  | closed
  deriving DecidableEq

/-- The keys by shard, the shards in the order they are met. -/
abbrev Groups := List (ℕ × List (Bytes × Bytes))

/-- A transaction, and its call of `commit` or `prewrite`. -/
structure Transaction where
  coordinator : ℕ
  startTs : ℤ
  keys : List (Bytes × Bytes) := []
  readSet : List Bytes := []
  status : TxnStatus := .pending
  commitTs : Option ℤ := none
  phase : Phase := .active
  /-- The call is `commit` and not `prewrite`. -/
  viaCommit : Bool := false
  /-- `shard_groups` of the call. -/
  groups : Groups := []
  /-- What `commit` returned. -/
  returned : Option (Bool × Option ℤ) := none
  /-- What the transaction's reads returned, oldest first. -/
  reads : List (Bytes × Option Bytes) := []
  deriving DecidableEq

/-- `primary_key`: the first key that was added. -/
def Transaction.primaryKey (t : Transaction) : Bytes := (t.keys.head?.map Prod.fst).getD []

/-- Add a key to the group of its shard. -/
def addToGroup (shard : ℕ) (row : Bytes × Bytes) : Groups → Groups
  | [] => [(shard, [row])]
  | (s, rows) :: groups =>
    if s = shard then (s, rows ++ [row]) :: groups
    else (s, rows) :: addToGroup shard row groups

/-- `_group_keys_by_shard`. -/
def groupKeysByShard (cfg : Config) (keys : List (Bytes × Bytes)) : Groups :=
  keys.foldl (fun groups row => addToGroup (cfg.shardOf row.1) row groups) []

/-- The keys of the groups, in the order they are gone through. -/
def Groups.keys (groups : Groups) : List Bytes := groups.flatMap fun g => g.2.map Prod.fst

/-- A call of `rollback`. -/
structure Cleanup where
  txn : ℕ
  todo : List Bytes
  call : Option ℕ := none
  deriving DecidableEq

/-- How far a call of `resolve_lock` is. -/
inductive ResolutionStage where
  | asked
  /-- The primary's newest write record is not the transaction's. -/
  | noRecord
  /-- It is, and its timestamp is asked for. -/
  | committed
  | closed
  deriving DecidableEq

/-- A call of `resolve_lock`, by a reader or by the cleaner. -/
structure Resolution where
  key : Bytes
  lock : Lock
  stage : ResolutionStage := .asked
  deriving DecidableEq

structure System where
  shards : ℕ → MVCCStateMachine
  group : TSOSMStateMachine
  clocks : ℕ → TSOClient
  txns : List Transaction
  calls : List Call
  /-- Who holds a coordinator's commit lock. -/
  commitLock : ℕ → Option ℕ
  cleanups : List Cleanup
  resolutions : List Resolution

namespace System

/-- Empty shards, and clients that have not asked for a run. -/
def init (cfg : Config) : System where
  shards _ := .empty
  group := {}
  clocks c := { batchSize := cfg.batchSize c }
  txns := []
  calls := []
  commitLock _ := none
  cleanups := []
  resolutions := []

variable (S : System)

/-- The machine a key lives on. -/
def machineOf (cfg : Config) (key : Bytes) : MVCCStateMachine := S.shards (cfg.shardOf key)

@[simps -fullyApplied]
def setTxn (i : ℕ) (t : Transaction) : System := { S with txns := S.txns.set i t }

@[simps -fullyApplied]
def setCall (j : ℕ) (call : Call) : System := { S with calls := S.calls.set j call }

/-- A new call of `_propose_to`. -/
@[simps -fullyApplied]
def propose (cfg : Config) (key : Bytes) (command : Command) : System :=
  { S with calls := S.calls ++ [{ shard := cfg.shardOf key, command := command }] }

/-- The number of the next call. -/
def nextCall : ℕ := S.calls.length

/-- What call `j` was answered. -/
def answerOf (j : ℕ) : Option Answer := S.calls[j]?.bind (·.answer)

/-- Leave the commit lock of `t`'s coordinator, if transaction `i` holds it. -/
def unlock (i : ℕ) (t : Transaction) : System :=
  if S.commitLock t.coordinator = some i then
    { S with commitLock := Function.update S.commitLock t.coordinator none }
  else S

/-- `tso_client.get_timestamp()` of a coordinator. -/
def draw (c : ℕ) : ℤ × System :=
  let (timestamp, client, group) := (S.clocks c).getTimestamp S.group
  (timestamp, { S with group := group, clocks := Function.update S.clocks c client })

/-- `_fetch_batch` of a coordinator's client, ahead of the number that is taken. -/
@[simps -fullyApplied shards calls txns resolutions commitLock]
def fetch (c : ℕ) : System :=
  let (group, batch) := S.group.applyAllocate (S.clocks c).batchSize
  { S with group := group, clocks := Function.update S.clocks c ((S.clocks c).fetched batch) }

end System

/-! ## Events -/

inductive Event where
  | begin (coordinator : ℕ)
  /-- A client has its next run, and the number is yet to be taken. -/
  | fetch (coordinator : ℕ)
  | addWrite (i : ℕ) (key value : Bytes)
  | read (i : ℕ) (key : Bytes)
  /-- `commit` (or `prewrite`) is called; every shard has a leader, or one has not. -/
  | start (i : ℕ) (viaCommit : Bool)
  | startRefused (i : ℕ) (viaCommit : Bool)
  | proposePrewrite (i shard : ℕ)
  | prewriteAnswered (i shard : ℕ)
  | joined (i : ℕ)
  | lockTaken (i : ℕ)
  /-- One key of the read set is checked, or its shard has no leader. -/
  | validateKey (i : ℕ)
  | validateRefused (i : ℕ)
  /-- The commit timestamp is drawn; the primary's shard has a leader, or it has not. -/
  | proposePrimary (i : ℕ)
  | primaryRefused (i : ℕ)
  | primaryAnswered (i : ℕ)
  | proposeRollback (i : ℕ)
  | rollbackAnswered (i : ℕ)
  | rolledBack (i : ℕ)
  | proposeSecondary (i : ℕ) (key : Bytes)
  /-- An exception leaves the call, or its process is gone. -/
  | abandon (i : ℕ)
  /-- `rollback` is called. -/
  | rollback (i : ℕ)
  | cleanupNext (n : ℕ)
  | cleanupAnswered (n : ℕ)
  | cleanupDone (n : ℕ)
  /-- Somebody meets the lock on a key. -/
  | meet (key : Bytes)
  | readRecord (n : ℕ)
  | readLock (n : ℕ) (now : Time)
  | readCommitTs (n : ℕ)
  /-- The walk asks a node, which appends an entry. -/
  | ask (j : ℕ)
  | applyEntry (j : ℕ) (now : Time)
  | answer (j : ℕ) (a : Answer)
  deriving DecidableEq

namespace Transaction

variable (t : Transaction)

/-- `read_set.add`; the set is gone through in order. -/
def addRead (key : Bytes) (value : Option Bytes) : Transaction :=
  { t with
    readSet := if key ∈ t.readSet then t.readSet else t.readSet.orderedInsert (· ≤ ·) key
    reads := t.reads ++ [(key, value)] }

/-- The call of `commit` or `prewrite`, past its checks. -/
def started (cfg : Config) (viaCommit : Bool) : Transaction :=
  let groups := groupKeysByShard cfg t.keys
  { t with
    viaCommit := viaCommit
    groups := groups
    phase := .prewriting (groups.map fun g => { shard := g.1, todo := g.2 }) }

/-- `commit` without a write. -/
def committedEmpty : Transaction :=
  { t with
    status := .committed
    commitTs := some t.startTs
    viaCommit := true
    returned := some (true, some t.startTs)
    phase := .committed [] }

/-- The call has ended without a commit. -/
def aborted : Transaction :=
  { t with
    status := .aborted
    phase := .closed
    returned := if t.viaCommit then some (false, none) else t.returned }

/-- Every key is locked. -/
def locked : Transaction :=
  { t with
    status := .prewritten
    phase := if t.viaCommit then .awaitingLock else .prewritten }

/-- The primary's commit has been answered with success. -/
def primaryCommitted : Transaction :=
  { t with
    status := .committed
    returned := some (true, t.commitTs)
    phase := .committed (t.groups.keys.filter (· ≠ t.primaryKey)) }

/-- `_rollback_all_shards` begins. -/
def rollingBack : Transaction := { t with phase := .rollingBack t.groups.keys none }

end Transaction

/-- The task of a shard that is not done. -/
def openTask (tasks : List ShardTask) (shard : ℕ) : Option ShardTask :=
  tasks.find? fun task => task.shard = shard ∧ task.verdict = none

def setTask (tasks : List ShardTask) (task : ShardTask) : List ShardTask :=
  tasks.map fun task' => if task'.shard = task.shard then task else task'

/-- A task that has heard about its first key. -/
def ShardTask.heard (task : ShardTask) (a : Answer) : ShardTask :=
  if a.success then
    let rest := task.todo.tail
    { task with todo := rest, call := none, verdict := if rest = [] then some true else none }
  else { task with call := none, verdict := some false }

/-- An entry of the call has been applied. -/
def Call.applied (call : Call) (r : ApplyResult) : Call :=
  { call with pending := call.pending - 1, results := call.results ++ [r] }

/-- What the proposer may hear of a call: success only once an entry is in a log.  It need not be the
machine's answer to that entry: of one that was overwritten, and whose index is in a snapshot by
then, the node knows no more than what it applied there, and of an older one nothing. -/
def Call.mayHear (call : Call) : Answer → Bool
  | .result r => !r.success || 0 < call.pending || call.results ≠ []
  | .none => true
  | .raised => true

namespace System

/-- One event of a coordinator's timestamp client. -/
def clockStep (S : System) (c : ℕ) : Event → Option System
  | .begin _ =>
    let (startTs, S') := S.draw c
    some { S' with txns := S.txns ++ [{ coordinator := c, startTs := startTs }] }
  | .fetch _ => if (S.clocks c).exhausted then some (S.fetch c) else none
  | _ => none

/-- One event of transaction `i`. -/
def txnStep (cfg : Config) (S : System) (i : ℕ) (t : Transaction) : Event → Option System
  | .addWrite _ key value =>
    if t.status = .pending then some (S.setTxn i { t with keys := t.keys ++ [(key, value)] })
    else none
  | .read _ key =>
    match (S.machineOf cfg key).get key (some t.startTs) with
    | .ok r => if r.success then some (S.setTxn i (t.addRead key r.value)) else none
    | .error _ => none
  | .start _ viaCommit =>
    if t.status = .pending ∧ t.phase = .active then
      if t.keys = [] then if viaCommit then some (S.setTxn i t.committedEmpty) else none
      else some (S.setTxn i (t.started cfg viaCommit))
    else none
  | .startRefused _ viaCommit =>
    if t.status = .pending ∧ t.phase = .active ∧ t.keys ≠ [] then
      some (S.setTxn i { t with viaCommit := viaCommit }.aborted)
    else none
  | .proposePrewrite _ shard =>
    match t.phase with
    | .prewriting tasks =>
      match openTask tasks shard with
      | some ⟨_, (key, value) :: rest, .none, _⟩ =>
        let task : ShardTask := ⟨shard, (key, value) :: rest, some S.nextCall, none⟩
        some ((S.propose cfg key (.prewrite key value t.startTs t.primaryKey)).setTxn i
          { t with phase := .prewriting (setTask tasks task) })
      | _ => none
    | _ => none
  | .prewriteAnswered _ shard =>
    match t.phase with
    | .prewriting tasks =>
      match openTask tasks shard with
      | some task =>
        match task.call.bind S.answerOf with
        | some a => some (S.setTxn i { t with phase := .prewriting (setTask tasks (task.heard a)) })
        | .none => none
      | .none => none
    | _ => none
  | .joined _ =>
    match t.phase with
    | .prewriting tasks =>
      if tasks.all (·.verdict.isSome) then
        if tasks.all (·.verdict = some true) then
          some (S.setTxn i t.locked)
        else some (S.setTxn i t.rollingBack)
      else none
    | _ => none
  | .lockTaken _ =>
    if t.phase = .awaitingLock ∧ S.commitLock t.coordinator = none then
      let todo := if cfg.validateReads then t.readSet else []
      some { S.setTxn i { t with phase := .validating todo } with
        commitLock := Function.update S.commitLock t.coordinator (some i) }
    else none
  | .validateKey _ =>
    match t.phase with
    | .validating (key :: rest) =>
      match (S.machineOf cfg key).getWriteRecord key with
      | .ok record =>
        if record.any (t.startTs < ·.commitTs) then some (S.setTxn i t.rollingBack)
        else some (S.setTxn i { t with phase := .validating rest })
      | .error _ => none
    | _ => none
  | .validateRefused _ =>
    match t.phase with
    | .validating (_ :: _) => some (S.setTxn i t.rollingBack)
    | _ => none
  | .proposePrimary _ =>
    if t.phase = .validating [] then
      let (commitTs, S') := S.draw t.coordinator
      some ((S'.propose cfg t.primaryKey (.commit t.primaryKey t.startTs commitTs)).setTxn i
        { t with commitTs := some commitTs, phase := .committing S.nextCall })
    else none
  | .primaryRefused _ =>
    if t.phase = .validating [] then
      let (commitTs, S') := S.draw t.coordinator
      some (S'.setTxn i { t with commitTs := some commitTs }.rollingBack)
    else none
  | .primaryAnswered _ =>
    match t.phase with
    | .committing call =>
      match S.answerOf call with
      | some .raised => some ((S.setTxn i { t with phase := .closed }).unlock i t)
      | some a =>
        if a.success then
          some ((S.setTxn i t.primaryCommitted).unlock i t)
        else some (S.setTxn i t.rollingBack)
      | none => none
    | _ => none
  | .proposeRollback _ =>
    match t.phase with
    | .rollingBack (key :: rest) .none =>
      some ((S.propose cfg key (.rollback key t.startTs)).setTxn i
        { t with phase := .rollingBack (key :: rest) (some S.nextCall) })
    | _ => none
  | .rollbackAnswered _ =>
    match t.phase with
    | .rollingBack todo (some call) =>
      match S.answerOf call with
      | some .raised => some ((S.setTxn i { t with phase := .closed }).unlock i t)
      | some _ => some (S.setTxn i { t with phase := .rollingBack todo.tail .none })
      | none => none
    | _ => none
  | .rolledBack _ =>
    if t.phase = .rollingBack [] none then some ((S.setTxn i t.aborted).unlock i t) else none
  | .proposeSecondary _ key =>
    match t.phase, t.commitTs with
    | .committed secondaries, some commitTs =>
      if key ∈ secondaries then
        some ((S.propose cfg key (.commit key t.startTs commitTs)).setTxn i
          { t with phase := .committed (secondaries.erase key) })
      else none
    | _, _ => none
  | .abandon _ =>
    match t.phase with
    | .committed _ => none
    | .active => none
    | _ => some ((S.setTxn i { t with phase := .closed }).unlock i t)
  | .rollback _ =>
    if t.status = .committed then none
    else if t.status = .pending then some (S.setTxn i { t with status := .aborted })
    else some { S with cleanups :=
      S.cleanups ++ [{ txn := i, todo := (groupKeysByShard cfg t.keys).keys }] }
  | _ => none

/-- One event of a call of `rollback`. -/
def cleanupStep (cfg : Config) (S : System) (n : ℕ) (task : Cleanup) (t : Transaction) :
    Event → Option System
  | .cleanupNext _ =>
    match task.todo, task.call with
    | key :: _, .none =>
      some { S.propose cfg key (.rollback key t.startTs) with
        cleanups := S.cleanups.set n { task with call := some S.nextCall } }
    | _, _ => none
  | .cleanupAnswered _ =>
    match task.call.bind S.answerOf with
    | some .raised => some { S with cleanups := S.cleanups.eraseIdx n }
    | some _ => some { S with cleanups := S.cleanups.set n ⟨task.txn, task.todo.tail, none⟩ }
    | none => none
  | .cleanupDone _ =>
    if task.todo = [] ∧ task.call = none then
      some { S.setTxn task.txn { t with status := .aborted } with
        cleanups := S.cleanups.eraseIdx n }
    else none
  | _ => none

/-- One event of a call of `resolve_lock`. -/
def resolutionStep (cfg : Config) (S : System) (n : ℕ) (res : Resolution) :
    Event → Option System
  | .readRecord _ =>
    if res.stage = .asked then
      match (S.machineOf cfg res.lock.primaryKey).getWriteRecord res.lock.primaryKey with
      | .ok record =>
        let stage := if record.any (·.startTs = res.lock.startTs) then .committed else .noRecord
        some { S with resolutions := S.resolutions.set n { res with stage := stage } }
      | .error _ => none
    else none
  | .readLock _ now =>
    if res.stage = .noRecord then
      match (S.machineOf cfg res.lock.primaryKey).getLockStatus res.lock.primaryKey with
      | .ok lock =>
        let S' := { S with resolutions := S.resolutions.set n { res with stage := .closed } }
        if lock.any fun lock => lock.startTs = res.lock.startTs ∧
            0 < cfg.resolver.remainingTtl now lock then some S'
        else some (S'.propose cfg res.key (.rollback res.key res.lock.startTs))
      | .error _ => none
    else none
  | .readCommitTs _ =>
    if res.stage = .committed then
      match LockResolver.primaryCommitTs (some (S.machineOf cfg res.lock.primaryKey))
        res.lock.primaryKey res.lock.startTs with
      | .ok commitTs =>
        let S' := { S with resolutions := S.resolutions.set n { res with stage := .closed } }
        match commitTs with
        | none => some S'
        | some c => some (S'.propose cfg res.key (.commit res.key res.lock.startTs c))
      | .error _ => none
    else none
  | _ => none

/-- One event of a proposal. -/
def callStep (S : System) (j : ℕ) (call : Call) : Event → Option System
  | .ask _ =>
    if call.answer = none then some (S.setCall j { call with pending := call.pending + 1 }) else none
  | .applyEntry _ now =>
    if 0 < call.pending then
      let (m, r) := apply now (S.shards call.shard) call.command
      some { S.setCall j (call.applied r) with
        shards := Function.update S.shards call.shard m }
    else none
  | .answer _ a =>
    if call.answer = none ∧ call.mayHear a then some (S.setCall j { call with answer := some a })
    else none
  | _ => none

/-- Whom an event concerns. -/
inductive Subject where
  | clock (coordinator : ℕ)
  | txn (i : ℕ)
  | cleanup (n : ℕ)
  | lockOn (key : Bytes)
  | resolution (n : ℕ)
  | call (j : ℕ)

end System

def Event.subject : Event → System.Subject
  | .begin c | .fetch c => .clock c
  | .addWrite i _ _ | .read i _ | .start i _ | .startRefused i _ | .proposePrewrite i _
  | .prewriteAnswered i _ | .joined i | .lockTaken i | .validateKey i | .validateRefused i
  | .proposePrimary i | .primaryRefused i | .primaryAnswered i | .proposeRollback i
  | .rollbackAnswered i | .rolledBack i | .proposeSecondary i _ | .abandon i | .rollback i =>
    .txn i
  | .cleanupNext n | .cleanupAnswered n | .cleanupDone n => .cleanup n
  | .meet key => .lockOn key
  | .readRecord n | .readLock n _ | .readCommitTs n => .resolution n
  | .ask j | .applyEntry j _ | .answer j _ => .call j

namespace System

/-- One step of one thread. -/
def step (cfg : Config) (S : System) (e : Event) : Option System :=
  match e.subject with
  | .clock c => S.clockStep c e
  | .txn i =>
    match S.txns[i]? with
    | some t => S.txnStep cfg i t e
    | none => none
  | .cleanup n =>
    match S.cleanups[n]? with
    | some task =>
      match S.txns[task.txn]? with
      | some t => S.cleanupStep cfg n task t e
      | none => none
    | none => none
  | .lockOn key =>
    match (S.machineOf cfg key).getLockStatus key with
    | .ok (some lock) =>
      some { S with resolutions := S.resolutions ++ [{ key := key, lock := lock }] }
    | _ => none
  | .resolution n =>
    match S.resolutions[n]? with
    | some res => S.resolutionStep cfg n res e
    | none => none
  | .call j =>
    match S.calls[j]? with
    | some call => S.callStep j call e
    | none => none

/-- The state after the events, or `none` when one of them was not possible. -/
abbrev run (cfg : Config) : System → List Event → Option System :=
  Transition.run (step cfg)

/-- Every step of the run meets `P`. -/
abbrev Along (cfg : Config) (P : System → Event → Prop) : System → List Event → Prop :=
  Transition.Along (step cfg) P

/-- A proposal that is asked once, applied and answered. -/
def asked (j : ℕ) : List Event := [.ask j, .applyEntry j 0, .answer j (.result .ok)]

end System

end OxideDB.Txn
