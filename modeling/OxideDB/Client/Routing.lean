import Mathlib.Data.Finset.Card
import OxideDB.Metadata.Service
import OxideDB.Program

/-!
# The walk over a shard's replicas

`client/routing.py` with the cache of the routing table behind it, `metadata/cache.py`: where a
client sends a question about a shard, and where it goes after a refusal.  The address a refusal
named comes first, then the replicas the table lists, one after the other, and then the table is read
again.

What the client meets outside is a `Moment` for each call: the table the metadata group returns,
whether the interval of the rate limit has passed, the handle a factory builds.  The moments are given
in advance and nothing is assumed about them.  The question is any program; what it does besides lives
in `outside`.

* `leaderForShard` — the hint, the queue, the table.
* `refusedWith` — what a refusal leaves to ask.
-/

namespace OxideDB.Routing

open Raft (Bytes ErrorCode)
open Metadata (RoutingTable ShardPlacement RangeMap locate)
open Program

abbrev Address := String

/-- A handle on a node; one in this process knows no address. -/
structure NodeClient where
  address : Option Address
  deriving DecidableEq

/-- What a question raises. -/
inductive Raised where
  | scanRefused (code : ErrorCode) (leaderAddress : Option Address)
  | nodeUnreachable (msg : String)
  | other (msg : String)
  deriving DecidableEq

/-- What `getattr` finds on an answer. -/
class Answer (A : Type) where
  errorCode : A → Option ErrorCode
  leaderAddress : A → Option Address

instance : Answer Raft.ApplyResult where
  errorCode := fun r => r.errorCode
  leaderAddress := fun r => r.leaderAddress

/-- What a call of the client meets. -/
structure Moment where
  /-- A read of the table, or the text of what it raises. -/
  table : Except String RoutingTable
  /-- The table that is held is older than the interval. -/
  due : Bool := true
  /-- `get_client`, of a factory that remembers the addresses it was handed. -/
  getClient : ℤ → ℤ → Option Address → Option NodeClient
  /-- `random.shuffle`. -/
  shuffle : List ℤ → List ℤ := id
  /-- The cluster's own nodes have a leader of the shard. -/
  leads : ℤ → Bool := fun _ => true
  rangeMap : RangeMap := .empty

/-- What a client is built with. -/
structure Setup where
  /-- There is a table to route by. -/
  router : Bool
  localNodeId : Option ℤ := none
  getClientAt : ℤ → Address → Option NodeClient
  address_getClientAt : ∀ shard a c, getClientAt shard a = some c → c.address = some a

/-- What a walk does. -/
inductive Visit where
  | asked (address : Option Address)
  /-- A refusal, with the address it names, and the replicas that were waiting for their turn. -/
  | refused (hint : Option Address) (queued : List Address)
  /-- A lookup meets a table that names nobody to ask, and is old enough to be read again. -/
  | nameless
  | read
  deriving DecidableEq

/-- `ShardLeaders` and the `RoutingCache` behind it. -/
structure ShardLeaders (X : Type) where
  hints : ℤ → Option Address := fun _ => none
  queued : ℤ → List Address := fun _ => []
  asked : ℤ → Finset Address := fun _ => ∅
  table : Option RoutingTable := none
  moments : ℕ → Moment
  /-- How many calls have been made. -/
  calls : ℕ := 0
  trace : List Visit := []
  outside : X

abbrev Method (X : Type) := Program (ShardLeaders X) Raised

namespace ShardLeaders

variable {X : Type} (s : ShardLeaders X)

def visit (v : Visit) : ShardLeaders X := { s with trace := s.trace ++ [v] }

def setHint (shard : ℤ) (hint : Option Address) : ShardLeaders X :=
  { s with hints := Function.update s.hints shard hint }

def setQueued (shard : ℤ) (queue : List Address) : ShardLeaders X :=
  { s with queued := Function.update s.queued shard queue }

def noteAsked (shard : ℤ) (address : Address) : ShardLeaders X :=
  { s with asked := Function.update s.asked shard (insert address (s.asked shard)) }

/-- `_forget_shard`. -/
def forgetShard (shard : ℤ) : ShardLeaders X :=
  { s with
    hints := Function.update s.hints shard none
    queued := Function.update s.queued shard []
    asked := Function.update s.asked shard ∅ }

end ShardLeaders

/-- The address of one more member, once. -/
def addAddress (p : ShardPlacement) (addresses : List Address) (node : ℤ) : List Address :=
  match p.addresses.get? node with
  | some a => if a ∈ addresses then addresses else addresses ++ [a]
  | none => addresses

/-- `replica_addresses`, of one placement: the leader's first. -/
def replicaAddresses (p : ShardPlacement) : List Address :=
  p.nodes.foldl (addAddress p) p.leaderAddress.toList

section Methods

variable {X : Type}

def next : Method X Moment := fun s => (.ok (s.moments s.calls), { s with calls := s.calls + 1 })

/-! ## The cache of the table -/

/-- `refresh`: a read of the table. -/
def refresh : Method X RoutingTable := do
  let m ← next
  modify (·.visit .read)
  match m.table with
  | .ok t =>
    modify fun s => { s with table := some t }
    return t
  | .error msg => raise (.other msg)

def table : Method X RoutingTable := do
  match ← get (·.table) with
  | some t => return t
  | none => refresh

/-- `_client_for`. -/
def clientFor (shard : ℤ) : Method X (Option NodeClient) := do
  let t ← table
  match t.shards.get? shard with
  | none => return none
  | some p =>
    match p.leaderId with
    | none => return none
    | some leader =>
      let m ← next
      return m.getClient shard leader p.leaderAddress

def refreshIfItCouldHaveChanged : Method X Unit := do
  let m ← next
  if m.due then
    modify (·.visit .nameless)
    let _ ← refresh
    return ()
  else return ()

/-- `leader_for_shard` of the cache. -/
def namedLeader (shard : ℤ) : Method X (Option NodeClient) := do
  match ← clientFor shard with
  | some c => return some c
  | none =>
    refreshIfItCouldHaveChanged
    clientFor shard

/-- The first member of a list the factory has a handle for. -/
def firstHandle (m : Moment) (shard : ℤ) (p : ShardPlacement) (nodes : List ℤ) : Option NodeClient :=
  nodes.findSome? fun node => m.getClient shard node (p.addresses.get? node)

def anyReplicaFor (cfg : Setup) (shard : ℤ) : Method X (Option NodeClient) := do
  let t ← table
  match t.shards.get? shard with
  | none => return none
  | some p =>
    if p.nodes.isEmpty then return none
    else
      let m ← next
      let here := p.nodes.filter fun node => some node = cfg.localNodeId
      return (firstHandle m shard p here).or (firstHandle m shard p (m.shuffle p.nodes))

/-! ## Who is asked next -/

variable (cfg : Setup) (shard : ℤ)

/-- The loop of `_take_queued`, over what the queue holds. -/
def popQueued : List Address → Method X (Option NodeClient)
  | [] => return none
  | a :: rest => do
    modify (·.setQueued shard rest)
    modify (·.noteAsked shard a)
    match cfg.getClientAt shard a with
    | some c => return some c
    | none => popQueued rest

def takeQueued : Method X (Option NodeClient) := do
  popQueued cfg shard (← get (·.queued shard))

/-- `_hand_out`. -/
def handOut (c : NodeClient) : Method X NodeClient := do
  match c.address with
  | some a => modify (·.noteAsked shard a)
  | none => pure ()
  return c

/-- What is left when there is no hint and nothing is queued: the table, or the cluster itself. -/
def placedLeader : Method X (Option NodeClient) := do
  if cfg.router then
    match ← namedLeader shard with
    | some c => return some (← handOut shard c)
    | none => return none
  else
    let m ← next
    return if m.leads shard then some ⟨none⟩ else none

/-- The end of `leader_for_shard`, once no hint is left. -/
def queuedLeader : Method X (Option NodeClient) := do
  match ← takeQueued cfg shard with
  | some c => return some c
  | none => placedLeader cfg shard

def leaderForShard : Method X (Option NodeClient) := do
  let hint ← get (·.hints shard)
  modify (·.setHint shard none)
  match hint.bind fun a => (cfg.getClientAt shard a).map fun c => (a, c) with
  | some (a, c) =>
    modify (·.noteAsked shard a)
    return some c
  | none => queuedLeader cfg shard

def replicaForShard : Method X (Option NodeClient) := do
  if cfg.router then
    match ← anyReplicaFor cfg shard with
    | some c => return some (← handOut shard c)
    | none => return none
  else return none

def shardForKey (key : Bytes) : Method X (Option ℤ) := do
  if cfg.router then return ((← table).shardFor key).map (·.shardId)
  else
    let m ← next
    return some (locate m.rangeMap key)

/-! ## What a refusal leaves -/

/-- `_replica_addresses`. -/
def knownAddresses : Method X (List Address) := do
  if cfg.router then return (((← table).shards.get? shard).map replicaAddresses).getD []
  else return []

/-- `_queue_replicas`. -/
def queueReplicas : Method X Bool := do
  let addresses := (← knownAddresses cfg shard).filter fun a => (cfg.getClientAt shard a).isSome
  let asked ← get (·.asked shard)
  let queue ← get (·.queued shard)
  let waiting := addresses.filter fun a => a ∉ asked ∧ a ∉ queue
  modify (·.setQueued shard (queue ++ waiting))
  return !(queue ++ waiting).isEmpty

/-- `_remember_hint`. -/
def rememberHint (a : Address) : Method X Bool := do
  if a ∈ (← get (·.asked shard)) then return false
  else if (cfg.getClientAt shard a).isNone then return false
  else
    modify (·.setHint shard (some a))
    return true

/-- The address a refusal names, if it names one. -/
def rememberNamed : Option Address → Method X Bool
  | some a => rememberHint cfg shard a
  | none => return false

def refusedWith (hint : Option Address) : Method X Bool := do
  let remembered ← rememberNamed cfg shard hint
  if remembered then return true else queueReplicas cfg shard

def refreshForShard : Method X Unit := do
  modify (·.forgetShard shard)
  if cfg.router then
    let _ ← refresh
    return ()
  else return ()

/-! ## The walk -/

variable {A : Type} [Answer A]

/-- What came of a question: an answer, a refusal with the address it names, or an error that is
nobody's here. -/
inductive Verdict (A : Type) where
  | answered (a : A)
  | refused (answer : Option A) (raised : Option Raised) (hint : Option Address)
  | raises (r : Raised)

def verdict : Except Raised (Option A) → Verdict A
  | .ok (some a) =>
    if Answer.errorCode a = some .errNotLeader then .refused (some a) none (Answer.leaderAddress a)
    else .answered a
  | .ok none => .refused none none none
  | .error (.scanRefused code hint) =>
    if code = .errNotLeader then .refused none (some (.scanRefused code hint)) hint
    else .raises (.scanRefused code hint)
  | .error (.nodeUnreachable msg) => .refused none (some (.nodeUnreachable msg)) none
  | .error (.other msg) => .raises (.other msg)

/-- How a turn of the loop ends. -/
inductive Turn (A : Type) where
  | finished (answer : Option A)
  | refused (answer : Option A) (raised : Option Raised) (elsewhere : Bool)

/-- What the loop does with the client it has. -/
def put (question : NodeClient → Method X (Option A)) (c : NodeClient) : Method X (Turn A) := do
  modify (·.visit (.asked c.address))
  match verdict (← (question c).attempt) with
  | .answered a =>
    modify (·.forgetShard shard)
    return .finished (some a)
  | .raises r => raise r
  | .refused answer raised hint =>
    modify fun s => s.visit (.refused hint (s.queued shard))
    return .refused answer raised (← refusedWith cfg shard hint)

/-- The caller's own pick, if it has one. -/
def firstOrLeader : Option NodeClient → Method X (Option NodeClient)
  | some c => return some c
  | none => leaderForShard cfg shard

/-- One turn of the loop of `ask_shard`. -/
def turn (question : NodeClient → Method X (Option A)) (first : Option NodeClient)
    (lastAnswer : Option A) : Method X (Turn A) := do
  match ← firstOrLeader cfg shard first with
  | some c => put cfg shard question c
  | none => return .finished lastAnswer

/-- What the loop does after a turn; `again` is the next one. -/
def goOn (again : ℕ → Option A → Method X (Option (Option A))) (readsLeft : ℕ) :
    Turn A → Method X (Option (Option A))
  | .finished answer => return some answer
  | .refused answer _ true => again readsLeft answer
  | .refused answer raised false =>
    match readsLeft with
    | 0 =>
      match raised with
      | some r => raise r
      | none => return some answer
    | readsLeft + 1 => do
      refreshForShard cfg shard
      again readsLeft answer

/-- The loop of `ask_shard`; `none` when `fuel` turns are not enough. -/
def walk (question : NodeClient → Method X (Option A)) :
    ℕ → Option NodeClient → ℕ → Option A → Method X (Option (Option A))
  | 0, _, _, _ => return none
  | fuel + 1, first, readsLeft, lastAnswer => do
    let t ← turn cfg shard question first lastAnswer
    goOn cfg shard (walk question fuel none) readsLeft t

/-- `ask_shard`. -/
def askShard (fuel : ℕ) (question : NodeClient → Method X (Option A)) (tableReads : ℕ)
    (first : Option NodeClient) : Method X (Option (Option A)) :=
  walk cfg shard question fuel first (tableReads - 1) none

end Methods

end OxideDB.Routing
