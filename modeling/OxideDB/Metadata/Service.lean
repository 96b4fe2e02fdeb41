import OxideDB.ByteOrder
import OxideDB.Dict
import OxideDB.Raft.Message

/-!
# The routing table

The state machine of the metadata group, `metadata/service.py`: which shard answers for which
range of keys, which nodes serve it, and who leads it.  Five commands change the table, and
each is refused whole if it does not fit.

A command arrives as packed bytes with arguments of any shape.  What Python makes of such a
value (`int(…)`, `bytes(…)`, a loop over it) is left open: `Python` holds those functions, each
of which may raise, and everything that is proved holds for all of them.
-/

namespace OxideDB.Metadata

open Raft (Bytes)

/-- `RangeMap`: the half-open range of each shard. -/
abbrev RangeMap := Dict ℤ (Bytes × Bytes)

/-- `locate`, of `shard/router.py`: a key outside every range goes to shard 0. -/
def locate (rangeMap : RangeMap) (key : Bytes) : ℤ :=
  ((rangeMap.entries.find? fun e => e.2.1 ≤ key ∧ key < e.2.2).map Prod.fst).getD 0

/-- `MetadataCommandType`; a type that is none of these is quoted in the refusal. -/
inductive MetadataCommandType where
  | initRoutes
  | setShardNodes
  | reportLeader
  | split
  | moveShard
  | unknown (text : String)
  deriving DecidableEq

/-- A command as it was unpacked: its type, and its arguments by name. -/
structure Command (V : Type) where
  type : MetadataCommandType
  field : String → Option V

/-- What `unpackb` made of the bytes of a command, or the text of what it raised. -/
abbrev Payload (V : Type) := Except String (Command V)

/-- What Python makes of unpacked values: the conversions, with the text of what they raise,
and the texts in which a refusal shows its values. -/
structure Python (V : Type) where
  items : V → Except String (List V)
  item : V → ℕ → Except String V
  int : V → Except String ℤ
  bytes : V → Except String Bytes
  str : V → Except String String
  reprBytes : Bytes → String
  reprNodes : List ℤ → String
  reprAddresses : Dict ℤ String → String

/-- What applying a command answers. -/
inductive Result where
  | success
  | failure (code : ℕ) (msg : String)
  deriving DecidableEq

/-- One shard as the table describes it; `stop` is the source's `end`. -/
structure ShardPlacement where
  shardId : ℤ
  start : Bytes
  stop : Bytes
  nodes : List ℤ := []
  addresses : Dict ℤ String := .empty
  leaderId : Option ℤ := none
  leaderTerm : ℤ := 0
  deriving DecidableEq

/-- `MetadataStateMachine`. -/
structure MetadataStateMachine where
  shards : Dict ℤ ShardPlacement
  version : ℕ
  deriving DecidableEq

/-! ## The arguments of a command -/

section Arguments

variable {V : Type} (py : Python V) (cmd : Command V)

/-- `cmd[name]`. -/
def Command.get (name : String) : Except String V :=
  match cmd.field name with
  | some v => .ok v
  | none => .error s!"'{name}'"

/-- `[int(node_id) for node_id in v]`. -/
def Python.ints (v : V) : Except String (List ℤ) := do
  (← py.items v).mapM py.int

/-- `{int(entry[0]): str(entry[1]) for entry in v}`. -/
def Python.addresses (v : V) : Except String (Dict ℤ String) := do
  let entries ← (← py.items v).mapM fun entry => do
    return (← py.int (← py.item entry 0), ← py.str (← py.item entry 1))
  return .ofList entries

/-- `{int(entry[0]): (bytes(entry[1]), bytes(entry[2])) for entry in v}`. -/
def Python.ranges (v : V) : Except String RangeMap := do
  let entries ← (← py.items v).mapM fun entry => do
    return (← py.int (← py.item entry 0),
      (← py.bytes (← py.item entry 1), ← py.bytes (← py.item entry 2)))
  return .ofList entries

/-- What `_apply_set_shard_nodes` reads of its command. -/
structure SetShardNodes where
  shardId : ℤ
  nodes : List ℤ
  addresses : Dict ℤ String

/-- What `_apply_report_leader` reads of its command. -/
structure ReportLeader where
  shardId : ℤ
  nodeId : ℤ
  term : ℤ

/-- What `_apply_split` reads of its command. -/
structure Split where
  shardId : ℤ
  newShardId : ℤ
  splitKey : Bytes
  nodes : List ℤ
  addresses : Dict ℤ String

/-- What `_apply_move_shard` reads of its command. -/
structure MoveShard where
  shardId : ℤ
  fromNodes : List ℤ
  nodes : List ℤ
  addresses : Dict ℤ String

def readSetShardNodes : Except String SetShardNodes := do
  let shardId ← py.int (← cmd.get "shard_id")
  let nodes ← py.ints (← cmd.get "nodes")
  let addresses ← py.addresses (← cmd.get "addresses")
  return { shardId, nodes, addresses }

def readReportLeader : Except String ReportLeader := do
  let shardId ← py.int (← cmd.get "shard_id")
  let nodeId ← py.int (← cmd.get "node_id")
  let term ← py.int (← cmd.get "term")
  return { shardId, nodeId, term }

def readSplit : Except String Split := do
  let shardId ← py.int (← cmd.get "shard_id")
  let newShardId ← py.int (← cmd.get "new_shard_id")
  let splitKey ← py.bytes (← cmd.get "split_key")
  let nodes ← py.ints (← cmd.get "nodes")
  let addresses ← py.addresses (← cmd.get "addresses")
  return { shardId, newShardId, splitKey, nodes, addresses }

def readMoveShard : Except String MoveShard := do
  let shardId ← py.int (← cmd.get "shard_id")
  let fromNodes ← py.ints (← cmd.get "from_nodes")
  let nodes ← py.ints (← cmd.get "nodes")
  let addresses ← py.addresses (← cmd.get "addresses")
  return { shardId, fromNodes, nodes, addresses }

end Arguments

/-! ## The commands -/

namespace MetadataStateMachine

/-- The machine of a new group. -/
def init : MetadataStateMachine := { shards := .empty, version := 0 }

/-- A shard's placement is replaced, and the table gets a new version. -/
def place (m : MetadataStateMachine) (shardId : ℤ) (placement : ShardPlacement) :
    MetadataStateMachine :=
  { shards := m.shards.set shardId placement, version := m.version + 1 }

variable {V : Type} (py : Python V) (m : MetadataStateMachine)

def applyInitRoutes (ranges : RangeMap) : MetadataStateMachine × Result :=
  if m.shards.entries ≠ [] then (m, .failure 3 "the routing table is already initialised")
  else
    ({ shards := ranges.mapValues fun shardId (start, stop) => { shardId, start, stop }
       version := m.version + 1 }, .success)

def applySetShardNodes (args : SetShardNodes) : MetadataStateMachine × Result :=
  let shardId := args.shardId
  match m.shards.get? shardId with
  | none => (m, .failure 4 s!"shard {shardId} is not in the routing table")
  | some placement =>
    -- the node that last reported itself leader may not be in the replica set any more
    let stranger := placement.leaderId.any fun leader => leader ∉ args.nodes
    (m.place shardId { placement with
      nodes := args.nodes
      addresses := args.addresses
      leaderId := if stranger then none else placement.leaderId
      leaderTerm := if stranger then 0 else placement.leaderTerm }, .success)

def applyReportLeader (args : ReportLeader) : MetadataStateMachine × Result :=
  let shardId := args.shardId
  let nodeId := args.nodeId
  match m.shards.get? shardId with
  | none => (m, .failure 4 s!"shard {shardId} is not in the routing table")
  | some placement =>
    if placement.nodes ≠ [] ∧ nodeId ∉ placement.nodes then
      (m, .failure 5 s!"node {nodeId} does not serve shard {shardId}")
    else if placement.leaderId ≠ none ∧ args.term ≤ placement.leaderTerm then
      let leaderTerm := placement.leaderTerm
      (m, .failure 6 s!"shard {shardId} already has a leader at term {leaderTerm}")
    else
      (m.place shardId { placement with leaderId := some nodeId, leaderTerm := args.term },
        .success)

/-- `_split_again`: the new id is taken, by `right`. -/
def splitAgain (args : Split) (right : ShardPlacement) : MetadataStateMachine × Result :=
  let newShardId := args.newShardId
  let splitKey := py.reprBytes args.splitKey
  if (m.shards.get? args.shardId).any (·.stop = args.splitKey) ∧ right.start = args.splitKey then
    if right.nodes = args.nodes then (m, .success)
    else
      let there := py.reprNodes right.nodes
      let asked := py.reprNodes args.nodes
      (m, .failure 10 (s!"shard {newShardId} was created by a split at {splitKey} " ++
        s!"with replica set {there}, not {asked}"))
  else
    let start := py.reprBytes right.start
    let stop := py.reprBytes right.stop
    (m, .failure 9 s!"shard {newShardId} is already in the routing table ({start}, {stop})")

/-- The first of the other shards that a half of the split shard would overlap. -/
def overlap (shardId : ℤ) (halves : List ShardPlacement) : Option Result :=
  m.shards.entries.findSome? fun other =>
    if other.1 = shardId then none
    else halves.findSome? fun half =>
      if other.2.start < half.stop ∧ half.start < other.2.stop then
        let otherId := other.1
        let otherStart := py.reprBytes other.2.start
        let otherStop := py.reprBytes other.2.stop
        let start := py.reprBytes half.start
        let stop := py.reprBytes half.stop
        some (.failure 11 (s!"shard {otherId} ({otherStart}, {otherStop}) " ++
          s!"overlaps the new range ({start}, {stop})"))
      else none

def applySplit (args : Split) : MetadataStateMachine × Result :=
  let shardId := args.shardId
  match m.shards.get? args.newShardId with
  | some right => m.splitAgain py args right
  | none =>
    match m.shards.get? shardId with
    | none => (m, .failure 7 s!"shard {shardId} is not in the routing table")
    | some placement =>
      if placement.start < args.splitKey ∧ args.splitKey < placement.stop then
        let left := { placement with shardId, stop := args.splitKey }
        let right : ShardPlacement :=
          { shardId := args.newShardId, start := args.splitKey, stop := placement.stop,
            nodes := args.nodes, addresses := args.addresses }
        match m.overlap py shardId [left, right] with
        | some refusal => (m, refusal)
        | none =>
          ({ shards := (m.shards.set shardId left).set args.newShardId right
             version := m.version + 1 }, .success)
      else
        let splitKey := py.reprBytes args.splitKey
        let start := py.reprBytes placement.start
        let stop := py.reprBytes placement.stop
        (m, .failure 8 (s!"split point {splitKey} is not inside shard {shardId}'s " ++
          s!"range ({start}, {stop})"))

def applyMoveShard (args : MoveShard) : MetadataStateMachine × Result :=
  let shardId := args.shardId
  let asked := py.reprNodes args.nodes
  let expected := py.reprNodes args.fromNodes
  match m.shards.get? shardId with
  | none => (m, .failure 12 s!"shard {shardId} is not in the routing table")
  | some placement =>
    let there := py.reprNodes placement.nodes
    if args.nodes = [] ∨ ¬ args.nodes.Nodup ∨
        args.nodes.any (fun nodeId => args.addresses.get? nodeId = none) then
      (m, .failure 13 (s!"{asked} cannot serve shard {shardId}: a replica set is not " ++
        "empty, does not repeat a node, and gives every node of it an address"))
    else if placement.nodes = args.nodes then
      if placement.addresses.sameAs args.addresses then (m, .success)
      else
        let addressesThere := py.reprAddresses placement.addresses
        let addressesAsked := py.reprAddresses args.addresses
        (m, .failure 16 (s!"shard {shardId} already serves {asked}, at addresses " ++
          s!"{addressesThere} rather than {addressesAsked}"))
    else if placement.nodes ≠ args.fromNodes then
      (m, .failure 14 (s!"shard {shardId} is served by {there}, not by " ++
        s!"{expected} as this proposal expected"))
    else if args.nodes.any (· ∈ args.fromNodes) then
      (m, .failure 15 (s!"{asked} overlaps the replica set leaving shard {shardId} " ++
        s!"({expected}); a move replaces the group, and a node cannot " ++
        "hold two groups for one shard"))
    else
      (m.place shardId { placement with
        nodes := args.nodes
        addresses := args.addresses
        leaderId := none
        leaderTerm := 0 }, .success)

/-- The body of `apply`, which may raise. -/
def applyCommand (cmd : Command V) : Except String (MetadataStateMachine × Result) :=
  match cmd.type with
  | .initRoutes => do return m.applyInitRoutes (← py.ranges (← cmd.get "ranges"))
  | .setShardNodes => do return m.applySetShardNodes (← readSetShardNodes py cmd)
  | .reportLeader => do return m.applyReportLeader (← readReportLeader py cmd)
  | .split => do return m.applySplit py (← readSplit py cmd)
  | .moveShard => do return m.applyMoveShard py (← readMoveShard py cmd)
  | .unknown text => return (m, .failure 1 s!"Unknown metadata command: {text}")

/-- `apply`: what is raised is answered as a refusal. -/
def apply (payload : Payload V) : MetadataStateMachine × Result :=
  match payload.bind (m.applyCommand py) with
  | .ok applied => applied
  | .error raised => (m, .failure 2 s!"Apply error: {raised}")

/-- The machine after a log of commands. -/
def replay (payloads : List (Payload V)) : MetadataStateMachine :=
  payloads.foldl (fun m payload => (m.apply py payload).1) m

end MetadataStateMachine

/-! ## What a client reads -/

/-- `leader_address`. -/
def ShardPlacement.leaderAddress (p : ShardPlacement) : Option String :=
  p.leaderId.bind p.addresses.get?

/-- `RoutingTable`. -/
structure RoutingTable where
  version : ℕ
  shards : Dict ℤ ShardPlacement
  deriving DecidableEq

namespace RoutingTable

def routes (t : RoutingTable) : RangeMap :=
  t.shards.mapValues fun _ placement => (placement.start, placement.stop)

/-- `route_for`: the shard that owns a key, by the one routing rule. -/
def routeFor (t : RoutingTable) (key : Bytes) : ℤ := locate t.routes key

def shardFor (t : RoutingTable) (key : Bytes) : Option ShardPlacement :=
  t.shards.get? (t.routeFor key)

end RoutingTable

namespace MetadataStateMachine

/-- `_table_payload`: the placements in the order of their ids. -/
def tablePayload (m : MetadataStateMachine) : ℕ × List ShardPlacement :=
  (m.version, m.shards.sorted.entries.map fun e =>
    { e.2 with addresses := e.2.addresses.sorted })

end MetadataStateMachine

/-- `_parse_table`. -/
def parseTable (payload : ℕ × List ShardPlacement) : RoutingTable :=
  { version := payload.1
    shards := .ofList (payload.2.map fun placement => (placement.shardId, placement)) }

/-- `table`: what a read of the whole table gives. -/
def MetadataStateMachine.table (m : MetadataStateMachine) : RoutingTable :=
  parseTable m.tablePayload

end OxideDB.Metadata
