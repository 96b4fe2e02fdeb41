import OxideDB.Raft.Node
import OxideDB.Transition

/-!
# A Raft group: nodes, messages in flight, and what may happen next

A group is `n` nodes and everything between them: the requests and responses on
the wire, the snapshot jobs a node has dispatched and not run yet, the reads that
are collecting acknowledgements and the proposals that are waiting.  A packet is
taken off the wire when it is handled; one that never is was lost, and any packet
may be taken at any time, so the wire delays and reorders at will.

`RaftCluster.act` is one atomic step of one node, `RaftCluster.step` adds crashes:
`crash` falls between two steps, `crashIn` at one of the durable writes of a step.
A crash loses what the node held in memory, its queued jobs, its callers, and the
answers on their way to it.  `RaftCluster.run` is a run from the start.
-/

namespace OxideDB.Raft

/-- What one node can be asked to do in one step. -/
inductive Input (n : ℕ) (δ : Type) where
  | startElection
  | requestVote (request : RequestVoteRequest n)
  | requestVoteReply (peer : Fin n) (response : RequestVoteResponse)
  | appendEntries (request : AppendEntriesRequest n)
  | appendEntriesReply (peer : Fin n) (response : AppendEntriesResponse)
  | installSnapshot (request : InstallSnapshotRequest n δ)
  | installSnapshotReply (peer : Fin n) (index : ℕ) (response : InstallSnapshotResponse)
  | proposeCommand (command : Bytes)
  | confirmRead (term acks : ℕ)
  | freezeWrites (reason : FreezeReason)
  | resumeWrites
  | shutdown

/-- What a step of one node answers. -/
inductive Output where
  | silent
  | vote (response : RequestVoteResponse)
  | append (response : AppendEntriesResponse)
  | install (response : InstallSnapshotResponse)
  /-- Whether the caller of `_replicate` is handed the response. -/
  | replied (handed : Bool)
  | appended (entry : Option LogEntry)
  | readIndex (index : Option ℕ)

/-- One step of one node. -/
def Node.handle {n : ℕ} {σ δ : Type} (cfg : Config n σ δ) (me : Fin n) (nd : Node n σ δ) :
    Input n δ → Node n σ δ × Output
  | .startElection => (nd.begin.startElection cfg me, .silent)
  | .requestVote request =>
    let r := nd.begin.requestVote request
    (r.1, .vote r.2)
  | .requestVoteReply peer response => (nd.begin.requestVoteReply cfg me peer response, .silent)
  | .appendEntries request =>
    let r := nd.begin.appendEntries cfg request
    (r.1, .append r.2)
  | .appendEntriesReply peer response =>
    let r := nd.begin.appendEntriesReply cfg peer response
    (r.1, .replied r.2)
  | .installSnapshot request =>
    let r := nd.begin.installSnapshot cfg request
    (r.1, .install r.2)
  | .installSnapshotReply peer index response =>
    let r := nd.begin.installSnapshotReply cfg peer index response
    (r.1, .replied r.2)
  | .proposeCommand command =>
    let r := nd.begin.proposeCommand cfg command
    (r.1, .appended r.2)
  | .confirmRead term acks =>
    let r := nd.begin.confirmRead cfg term acks
    (r.1, .readIndex r.2)
  | .freezeWrites reason => (nd.begin.freezeWrites reason, .silent)
  | .resumeWrites => (nd.begin.resumeWrites, .silent)
  | .shutdown => (nd.begin.shutdown, .silent)

/-- The body of a packet.  A replication message carries the read it was sent for,
if it was sent for one, and a snapshot's answer the index of the snapshot: both are
what the waiting caller remembers. -/
inductive Body (n : ℕ) (δ : Type) where
  | voteRequest (request : RequestVoteRequest n)
  | voteResponse (response : RequestVoteResponse)
  | appendRequest (read : Option ℕ) (request : AppendEntriesRequest n)
  | appendResponse (read : Option ℕ) (response : AppendEntriesResponse)
  | snapshotRequest (read : Option ℕ) (request : InstallSnapshotRequest n δ)
  | snapshotResponse (read : Option ℕ) (index : ℕ) (response : InstallSnapshotResponse)

/-- An answer is waited for by a caller, and goes when its caller goes. -/
def Body.isResponse {n : ℕ} {δ : Type} : Body n δ → Bool
  | .voteResponse _ => true
  | .appendResponse _ _ => true
  | .snapshotResponse _ _ _ => true
  | _ => false

structure Packet (n : ℕ) (δ : Type) where
  src : Fin n
  dst : Fin n
  body : Body n δ

/-- A call of `_install_snapshot` that was dispatched with `term` and has not read
the stored snapshot yet. -/
structure SnapshotJob (n : ℕ) where
  node : Fin n
  peer : Fin n
  term : ℕ
  read : Option ℕ

inductive ReadStatus where
  | asking
  | done (index : Option ℕ)
  | lost
  deriving DecidableEq

/-- A call of `_read_index`. -/
structure ReadCall (n : ℕ) where
  node : Fin n
  term : ℕ
  /-- The peers whose acknowledgement has been counted. -/
  acked : Finset (Fin n)
  status : ReadStatus

inductive CallStatus where
  | admitted
  | waiting (entry : LogEntry)
  | settled (entry : LogEntry)
  | returned (entry : Option LogEntry) (result : ApplyResult)
  | lost
  deriving DecidableEq

/-- A call of `propose`. -/
structure ProposeCall (n : ℕ) where
  node : Fin n
  command : Bytes
  status : CallStatus

structure RaftCluster (n : ℕ) (σ δ : Type) where
  nodes : Fin n → Node n σ δ
  wire : List (Packet n δ)
  jobs : List (SnapshotJob n)
  reads : List (ReadCall n)
  calls : List (ProposeCall n)

/-- The atomic steps.  Packets, jobs, reads and calls are named by their place. -/
inductive Action (n : ℕ) where
  | startElection (p : Fin n)
  | askVote (p peer : Fin n)
  | heartbeat (p peer : Fin n)
  | shipSnapshot (job : ℕ)
  | deliver (packet : ℕ)
  | propose (p : Fin n) (command : Bytes)
  | proposeCommand (call : ℕ)
  | awaitCommit (call : ℕ)
  | expire (call : ℕ)
  | answer (call : ℕ)
  | beginRead (p : Fin n)
  | finishRead (read : ℕ)
  | freezeWrites (p : Fin n) (reason : FreezeReason)
  | resumeWrites (p : Fin n)
  | shutdown (p : Fin n)

inductive Event (n : ℕ) where
  | act (a : Action n)
  /-- A crash between two steps of the node, and its restart. -/
  | crash (p : Fin n)
  /-- A crash at checkpoint `j` of the step `a`, and the restart of the node. -/
  | crashIn (a : Action n) (j : ℕ)

namespace RaftCluster

variable {n : ℕ} {σ δ : Type}

def init (cfg : Config n σ δ) : RaftCluster n σ δ where
  nodes := fun p => Node.loadFromStorage cfg p .empty
  wire := []
  jobs := []
  reads := []
  calls := []

def setNode (g : RaftCluster n σ δ) (p : Fin n) (nd : Node n σ δ) : RaftCluster n σ δ :=
  { g with nodes := Function.update g.nodes p nd }

def send (g : RaftCluster n σ δ) (packet : Packet n δ) : RaftCluster n σ δ :=
  { g with wire := g.wire ++ [packet] }

def setCall (g : RaftCluster n σ δ) (k : ℕ) (call : ProposeCall n) (status : CallStatus) :
    RaftCluster n σ δ :=
  { g with calls := g.calls.set k { call with status := status } }

/-- `_replicate` with the arguments copied for `peer`: the entries it is missing go
out, or a job that will ship the snapshot is queued. -/
def replicate (g : RaftCluster n σ δ) (p peer : Fin n) (read : Option ℕ)
    (args : Node.ReplicateArgs) : RaftCluster n σ δ :=
  if Node.needsSnapshot args then { g with jobs := g.jobs ++ [⟨p, peer, args.term, read⟩] }
  else
    match Node.appendRequest p args with
    | some request => g.send ⟨p, peer, .appendRequest read request⟩
    | none => g

/-- The input a packet is to the node it is addressed to. -/
def packetInput (packet : Packet n δ) : Input n δ :=
  match packet.body with
  | .voteRequest request => .requestVote request
  | .voteResponse response => .requestVoteReply packet.src response
  | .appendRequest _ request => .appendEntries request
  | .appendResponse _ response => .appendEntriesReply packet.src response
  | .snapshotRequest _ request => .installSnapshot request
  | .snapshotResponse _ index response => .installSnapshotReply packet.src index response

/-- The answer a packet is given, if it is a request. -/
def packetReply (packet : Packet n δ) (out : Output) : Option (Packet n δ) :=
  match packet.body, out with
  | .voteRequest _, .vote response => some ⟨packet.dst, packet.src, .voteResponse response⟩
  | .appendRequest read _, .append response =>
      some ⟨packet.dst, packet.src, .appendResponse read response⟩
  | .snapshotRequest read request, .install response =>
      some ⟨packet.dst, packet.src, .snapshotResponse read request.snapshot.index response⟩
  | _, _ => none

/-- The read a response is counted for: it was handed on to its caller, and it is a
success in the term the read began in. -/
def countAck (reads : List (ReadCall n)) (peer : Fin n) (read : Option ℕ) (success : Bool)
    (term : ℕ) (out : Output) : List (ReadCall n) :=
  match read, out with
  | some k, .replied true =>
    match reads[k]? with
    | some call =>
      if success && term = call.term && call.status = .asking then
        reads.set k { call with acked := insert peer call.acked }
      else reads
    | none => reads
  | _, _ => reads

def packetAck (reads : List (ReadCall n)) (packet : Packet n δ) (out : Output) :
    List (ReadCall n) :=
  match packet.body with
  | .appendResponse read response =>
      countAck reads packet.src read response.success response.term out
  | .snapshotResponse read _ response =>
      countAck reads packet.src read response.success response.term out
  | _ => reads

/-- The node a step runs on and what it is asked there, for the steps that touch a
node. -/
def inputOf (g : RaftCluster n σ δ) : Action n → Option (Fin n × Input n δ)
  | .startElection p => some (p, .startElection)
  | .deliver i => (g.wire[i]?).map fun packet => (packet.dst, packetInput packet)
  | .proposeCommand k =>
    match g.calls[k]? with
    | some ⟨p, command, .admitted⟩ => some (p, .proposeCommand command)
    | _ => none
  | .finishRead k =>
    match g.reads[k]? with
    | some ⟨p, term, acked, .asking⟩ => some (p, .confirmRead term (1 + acked.card))
    | _ => none
  | .freezeWrites p reason => some (p, .freezeWrites reason)
  | .resumeWrites p => some (p, .resumeWrites)
  | .shutdown p => some (p, .shutdown)
  | _ => none

/-- What a step that touched a node leaves outside it. -/
def settle (g : RaftCluster n σ δ) (a : Action n) (out : Output) : RaftCluster n σ δ :=
  match a with
  | .deliver i =>
    match g.wire[i]? with
    | some packet =>
      { g with
        wire := g.wire.eraseIdx i ++ (packetReply packet out).toList
        reads := packetAck g.reads packet out }
    | none => g
  | .proposeCommand k =>
    match g.calls[k]?, out with
    | some call, .appended (some entry) => g.setCall k call (.waiting entry)
    | some call, .appended none => g.setCall k call (.returned none Node.notLeader)
    | _, _ => g
  | .finishRead k =>
    match g.reads[k]?, out with
    | some call, .readIndex r => { g with reads := g.reads.set k { call with status := .done r } }
    | _, _ => g
  | _ => g

/-- The steps that only read a node. -/
def bystand (cfg : Config n σ δ) (g : RaftCluster n σ δ) : Action n → Option (RaftCluster n σ δ)
  | .askVote p peer =>
    if peer = p then none
    else ((g.nodes p).voteRequest p).map fun r => g.send ⟨p, peer, .voteRequest r⟩
  | .heartbeat p peer =>
    if peer = p ∨ (g.nodes p).shutdownFlag ∨ (g.nodes p).state ≠ .leader then none
    else some (g.replicate p peer none ((g.nodes p).replicateArgs ((g.nodes p).nextIndex peer)))
  | .shipSnapshot i =>
    match g.jobs[i]? with
    | some job =>
      let g := { g with jobs := g.jobs.eraseIdx i }
      if (g.nodes job.node).shutdownFlag then some g
      else
        match (g.nodes job.node).storage.loadSnapshot with
        | some s => some (g.send ⟨job.node, job.peer,
            .snapshotRequest job.read ⟨job.term, job.node, s⟩⟩)
        | none => some g
    | none => none
  | .propose p command =>
    match (g.nodes p).propose cfg command with
    | some refusal => some { g with calls := g.calls ++ [⟨p, command, .returned none refusal⟩] }
    | none => some { g with calls := g.calls ++ [⟨p, command, .admitted⟩] }
  | .awaitCommit k =>
    match g.calls[k]? with
    | some ⟨p, command, .waiting entry⟩ =>
      match (g.nodes p).awaitCommit entry with
      | some (some refusal) => some (g.setCall k ⟨p, command, .waiting entry⟩
          (.returned (some entry) refusal))
      | some none => some (g.setCall k ⟨p, command, .waiting entry⟩ (.settled entry))
      | none => some g
    | _ => none
  | .expire k =>
    match g.calls[k]? with
    | some ⟨p, command, .waiting entry⟩ =>
      match (g.nodes p).awaitCommit entry with
      | none => some (g.setCall k ⟨p, command, .waiting entry⟩
          (.returned (some entry) (.failure .errTimeout "Proposal timeout")))
      | some _ => none
    | _ => none
  | .answer k =>
    match g.calls[k]? with
    | some ⟨p, command, .settled entry⟩ =>
      some (g.setCall k ⟨p, command, .settled entry⟩
        (.returned (some entry) ((g.nodes p).proposalResult entry)))
    | _ => none
  | .beginRead p =>
    let nd := g.nodes p
    if nd.state ≠ .leader then
      some { g with reads := g.reads ++ [⟨p, nd.currentTerm, ∅, .done none⟩] }
    else if (peers p).isEmpty then
      some { g with reads := g.reads ++ [⟨p, nd.currentTerm, ∅, .done (some nd.commitIndex)⟩] }
    else
      let k := g.reads.length
      let g := { g with reads := g.reads ++ [⟨p, nd.currentTerm, ∅, .asking⟩] }
      some ((peers p).foldl (fun g peer => g.replicate p peer (some k)
        (nd.replicateArgs (some ((nd.nextIndex peer).getD 1)))) g)
  | _ => none

/-- One atomic step. -/
def act (cfg : Config n σ δ) (g : RaftCluster n σ δ) (a : Action n) :
    Option (RaftCluster n σ δ) :=
  match g.inputOf a with
  | some (p, input) =>
    let r := (g.nodes p).handle cfg p input
    some ((g.settle a r.2).setNode p r.1)
  | none => g.bystand cfg a

/-- The request a crash inside a step had already taken off the wire. -/
def consume (g : RaftCluster n σ δ) : Action n → RaftCluster n σ δ
  | .deliver i => { g with wire := g.wire.eraseIdx i }
  | _ => g

/-- A node comes back from its storage, and whatever waited for it is gone. -/
def restart (cfg : Config n σ δ) (g : RaftCluster n σ δ) (p : Fin n)
    (st : EngineRaftStorage n δ) : RaftCluster n σ δ where
  nodes := Function.update g.nodes p (Node.loadFromStorage cfg p st)
  wire := g.wire.filter fun packet => !(packet.body.isResponse && packet.dst = p)
  jobs := g.jobs.filter (·.node ≠ p)
  reads := g.reads.map fun call =>
    if call.node = p ∧ call.status = .asking then { call with status := .lost } else call
  calls := g.calls.map fun call =>
    if call.node = p then
      match call.status with
      | .returned _ _ => call
      | _ => { call with status := .lost }
    else call

/-- The checkpoint a crash inside the step `a` falls on. -/
def crashPoint (cfg : Config n σ δ) (g : RaftCluster n σ δ) (a : Action n) (j : ℕ) :
    Option (Fin n × Checkpoint n δ) :=
  match g.inputOf a with
  | some (p, input) =>
    (((g.nodes p).handle cfg p input).1.checkpoints[j]?).map fun cp => (p, cp)
  | none => none

def step (cfg : Config n σ δ) (g : RaftCluster n σ δ) : Event n → Option (RaftCluster n σ δ)
  | .act a => g.act cfg a
  | .crash p => some (g.restart cfg p (g.nodes p).storage)
  | .crashIn a j =>
    (g.crashPoint cfg a j).map fun x => (g.consume a).restart cfg x.1 x.2.storage

/-- A run of the group. -/
abbrev run (cfg : Config n σ δ) :
    RaftCluster n σ δ → List (Event n) → Option (RaftCluster n σ δ) :=
  Transition.run (step cfg)

/-- A run of the group whose every step meets `P`. -/
abbrev Along (P : RaftCluster n σ δ → Event n → Prop) (cfg : Config n σ δ) :
    RaftCluster n σ δ → List (Event n) → Prop :=
  Transition.Along (step cfg) P

end RaftCluster

end OxideDB.Raft
