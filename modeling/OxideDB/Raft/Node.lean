import OxideDB.Raft.Storage
import Mathlib.Data.List.Sort
import Mathlib.Data.Finset.Basic

/-!
# One Raft node

`MemoryRaftNode` of `raft/node.py`.  The node's lock makes each block below one
atomic step, so a step is a function from node to node; the deadlines that decide
*when* a step is taken are left out, and any step may be taken at any time.

A node writes to its storage several times inside one step.  `Node.write` is the
only way it does, and it notes the moment: `checkpoints` lists what the disk held
after each write of the current step, together with the term and the commit index
the node had in memory then.  These are the places a crash can fall.
-/

namespace OxideDB.Raft

/-- Why a shard is frozen: one of the two reasons `FREEZE_REFUSALS` names, or a
text of the caller's own. -/
inductive FreezeReason where
  | split
  | migration
  | other (reason : String)
  deriving DecidableEq, Repr, Inhabited

/-- What a frozen shard answers a write with. -/
def freezeRefusal : FreezeReason → ErrorCode × String
  | .split => (.errSplitInProgress, "the shard is being split; a new write is refused")
  | .migration =>
      (.errMigrating, "the shard is moving to another group; a new write is refused")
  | .other reason =>
      (.errSplitInProgress, "the shard is frozen (" ++ reason ++ "); a new write is refused")

/-- How the nodes of a group are built.  `writesNewData` reads the command's type,
which is a question for the command's encoding and not for the node. -/
structure Config (n : ℕ) (σ δ : Type) where
  machine : StateMachine σ δ
  /-- `snapshot_interval`; zero turns compaction off, as a negative one does. -/
  snapshotInterval : Fin n → ℕ
  applyResultsWindow : ℕ
  writesNewData : Bytes → Bool

/-- A place a crash can fall: the disk, and the term and commit index in memory. -/
structure Checkpoint (n : ℕ) (δ : Type) where
  storage : EngineRaftStorage n δ
  currentTerm : ℕ
  commitIndex : ℕ

/-- A node: what it holds in memory, and its storage. -/
structure Node (n : ℕ) (σ δ : Type) where
  state : NodeState
  currentTerm : ℕ
  votedFor : Option (Fin n)
  leaderId : Option (Fin n)
  log : List LogEntry
  commitIndex : ℕ
  lastApplied : ℕ
  /-- The index of the newest entry folded into the snapshot: the log's base. -/
  lastIncludedIndex : ℕ
  lastIncludedTerm : ℕ
  snapshotInterval : ℕ
  nextIndex : Fin n → Option ℕ
  matchIndex : Fin n → Option ℕ
  votesReceived : Finset (Fin n)
  writesFrozen : Bool
  freezeReason : FreezeReason
  shutdownFlag : Bool
  applyResults : List (ℕ × ApplyResult)
  machine : Replica σ
  storage : EngineRaftStorage n δ
  checkpoints : List (Checkpoint n δ)

/-- The other nodes of the group. -/
def peers {n : ℕ} (me : Fin n) : List (Fin n) := (List.finRange n).filter (· ≠ me)

/-- `(total_nodes // 2) + 1`. -/
def majority (n : ℕ) : ℕ := n / 2 + 1

/-- Look up `index` in a log whose first entry is `logBase + 1`. -/
def entryIn (log : List LogEntry) (logBase index : ℕ) : Option LogEntry :=
  if logBase < index then log[index - logBase - 1]? else none

/-- `_ApplyResults.record`: a key that is there keeps its place, and the oldest
results go once there are more than the window holds. -/
def recordResult (window : ℕ) (rs : List (ℕ × ApplyResult)) (index : ℕ) (r : ApplyResult) :
    List (ℕ × ApplyResult) :=
  let rs' := if rs.any (·.1 == index) then
      rs.map fun x => if x.1 = index then (index, r) else x
    else rs ++ [(index, r)]
  rs'.drop (rs'.length - max 1 window)

namespace Node

variable {n : ℕ} {σ δ : Type}

/-! ## Reading the log -/

/-- The index of the newest entry, or the snapshot's when the log is empty. -/
def lastLogIndex (nd : Node n σ δ) : ℕ :=
  match nd.log.getLast? with
  | some e => e.index
  | none => nd.lastIncludedIndex

def lastLogTerm (nd : Node n σ δ) : ℕ :=
  match nd.log.getLast? with
  | some e => e.term
  | none => nd.lastIncludedTerm

/-- The entry at `index`, or `none` when it is no longer in the log. -/
def entryAt (nd : Node n σ δ) (index : ℕ) : Option LogEntry :=
  entryIn nd.log nd.lastIncludedIndex index

/-! ## Writing to the storage -/

/-- One durable write. -/
def write (nd : Node n σ δ) (f : EngineRaftStorage n δ → EngineRaftStorage n δ) : Node n σ δ :=
  { nd with
    storage := f nd.storage
    checkpoints := nd.checkpoints ++ [⟨f nd.storage, nd.currentTerm, nd.commitIndex⟩] }

/-- The start of a step: the only place a crash can fall so far is here. -/
def begin (nd : Node n σ δ) : Node n σ δ :=
  { nd with checkpoints := [⟨nd.storage, nd.currentTerm, nd.commitIndex⟩] }

def saveMeta (nd : Node n σ δ) : Node n σ δ :=
  nd.write (·.saveMeta nd.currentTerm nd.votedFor)

def saveLogEntry (nd : Node n σ δ) (entry : LogEntry) : Node n σ δ :=
  nd.write (·.appendLogEntry entry)

def saveLogTruncate (nd : Node n σ δ) (fromIndex : ℕ) : Node n σ δ :=
  nd.write (·.truncateLog fromIndex)

def saveCommitIndex (nd : Node n σ δ) : Node n σ δ :=
  nd.write (·.saveCommitIndex nd.commitIndex)

/-- An entry goes on the end of the log, in memory and then on disk. -/
def append (nd : Node n σ δ) (entry : LogEntry) : Node n σ δ :=
  saveLogEntry { nd with log := nd.log ++ [entry] } entry

/-! ## Applying and compacting -/

/-- `_save_snapshot` and then `_save_log_compaction`: the snapshot is stored before
the log behind it is dropped from the disk. -/
def storeSnapshot (nd : Node n σ δ) (s : Snapshot δ) : Node n σ δ :=
  (nd.write (·.saveSnapshot s)).write (·.compactLog s.index)

/-- The end of `_maybe_snapshot`: the snapshot is stored, and the log drops what it
covers. -/
def compact (nd : Node n σ δ) (term : ℕ) (data : δ) : Node n σ δ :=
  let index := nd.lastApplied
  { nd.storeSnapshot ⟨index, term, data, nd.machine.history⟩ with
    log := nd.log.filter (index < ·.index)
    lastIncludedIndex := index
    lastIncludedTerm := term }

/-- `_maybe_snapshot`: fold the applied prefix into a snapshot and drop it from
the log. -/
def maybeSnapshot (cfg : Config n σ δ) (nd : Node n σ δ) : Node n σ δ :=
  if nd.snapshotInterval = 0 then nd
  else if nd.lastApplied - nd.lastIncludedIndex < nd.snapshotInterval then nd
  else
    match nd.entryAt nd.lastApplied with
    | none => nd
    | some entry =>
      match cfg.machine.snapshot nd.machine.state with
      | none => { nd with snapshotInterval := 0 }
      | some data => nd.compact entry.term data

/-- One turn of the loop of `_apply_committed_entries`. -/
def applyNext (cfg : Config n σ δ) (nd : Node n σ δ) : Node n σ δ :=
  let index := nd.lastApplied + 1
  match nd.entryAt index with
  | none => { nd with lastApplied := index }
  | some entry =>
    let applied := cfg.machine.applyEntry nd.machine.state entry
    { nd with
      lastApplied := index
      machine := ⟨applied.1, nd.machine.history ++ [entry]⟩
      applyResults := recordResult cfg.applyResultsWindow nd.applyResults index applied.2 }

/-- `_apply_committed_entries`: the loop runs once for each index between
`last_applied` and `commit_index`. -/
def applyCommittedEntries (cfg : Config n σ δ) (nd : Node n σ δ) : Node n σ δ :=
  maybeSnapshot cfg ((applyNext cfg)^[nd.commitIndex - nd.lastApplied] nd)

/-- The commit index moves: it is stored, and what it covers is applied. -/
def commitTo (cfg : Config n σ δ) (nd : Node n σ δ) (index : ℕ) : Node n σ δ :=
  applyCommittedEntries cfg (saveCommitIndex { nd with commitIndex := index })

/-- The peers' match indices, sorted, and the node's own last index after them. -/
def matchIndices (nd : Node n σ δ) : List ℕ :=
  ((List.finRange n).filterMap nd.matchIndex).insertionSort (· ≤ ·) ++ [nd.lastLogIndex]

/-- `_update_commit_index`.  The entry the count falls on has to be of the current
term. -/
def updateCommitIndex (cfg : Config n σ δ) (nd : Node n σ δ) : Node n σ δ :=
  if majority n ≤ nd.matchIndices.length then
    let newCommitIndex := nd.matchIndices.getD (nd.matchIndices.length - majority n) 0
    if nd.commitIndex < newCommitIndex then
      match nd.entryAt newCommitIndex with
      | some entry =>
        if entry.term = nd.currentTerm then
          nd.commitTo cfg newCommitIndex
        else nd
      | none => nd
    else nd
  else nd

/-! ## Restart -/

/-- A node that has just been built and has read nothing back yet. -/
def fresh (cfg : Config n σ δ) (me : Fin n) (st : EngineRaftStorage n δ) : Node n σ δ where
  state := .follower
  currentTerm := 0
  votedFor := none
  leaderId := none
  log := []
  commitIndex := 0
  lastApplied := 0
  lastIncludedIndex := 0
  lastIncludedTerm := 0
  snapshotInterval := cfg.snapshotInterval me
  nextIndex := fun _ => none
  matchIndex := fun _ => none
  votesReceived := ∅
  writesFrozen := false
  freezeReason := .split
  shutdownFlag := false
  applyResults := []
  machine := ⟨cfg.machine.init, []⟩
  storage := st
  checkpoints := []

/-- The first half of `_load_from_storage`: the term, the vote, the log, and the
snapshot restored before any entry is replayed. -/
def loadState (cfg : Config n σ δ) (me : Fin n) (st : EngineRaftStorage n δ) : Node n σ δ :=
  let nd := { fresh cfg me st with
    currentTerm := st.loadMeta.1
    votedFor := st.loadMeta.2
    log := st.loadLog }
  match st.loadSnapshot with
  | none => nd
  | some s =>
    { nd with
      machine := ⟨cfg.machine.restore s.data, s.history⟩
      lastIncludedIndex := s.index
      lastIncludedTerm := s.term
      lastApplied := s.index
      log := nd.log.filter (s.index < ·.index) }

/-- `_load_from_storage`: only committed entries are handed to the machine. -/
def loadFromStorage (cfg : Config n σ δ) (me : Fin n) (st : EngineRaftStorage n δ) :
    Node n σ δ :=
  let nd := loadState cfg me st
  applyCommittedEntries cfg
    { nd with commitIndex := max (min st.loadCommitIndex nd.lastLogIndex) nd.lastApplied }.begin

/-! ## Elections -/

/-- `_append_noop_entry`. -/
def appendNoopEntry (cfg : Config n σ δ) (nd : Node n σ δ) : Node n σ δ :=
  let entry : LogEntry := ⟨nd.currentTerm, nd.lastLogIndex + 1, noopCommand⟩
  (nd.append entry).updateCommitIndex cfg

/-- `_check_vote_count`.  The heartbeats a new leader sends at once are the
group's next step. -/
def checkVoteCount (cfg : Config n σ δ) (me : Fin n) (nd : Node n σ δ) : Node n σ δ :=
  if nd.state ≠ .candidate then nd
  else if majority n ≤ nd.votesReceived.card then
    appendNoopEntry cfg { nd with
      state := .leader
      leaderId := some me
      votesReceived := ∅
      nextIndex := fun p => if p = me then nd.nextIndex p else some (nd.lastLogIndex + 1)
      matchIndex := fun p => if p = me then nd.matchIndex p else some 0 }
  else nd

/-- `_start_election`. -/
def startElection (cfg : Config n σ δ) (me : Fin n) (nd : Node n σ δ) : Node n σ δ :=
  if nd.shutdownFlag then nd
  else if nd.state = .leader then nd
  else
    checkVoteCount cfg me (saveMeta { nd with
      state := .candidate
      leaderId := none
      currentTerm := nd.currentTerm + 1
      votedFor := some me
      votesReceived := {me} })

/-- The request `_request_vote` sends, when it sends one. -/
def voteRequest (me : Fin n) (nd : Node n σ δ) : Option (RequestVoteRequest n) :=
  if nd.shutdownFlag then none
  else if nd.state ≠ .candidate then none
  else some ⟨nd.currentTerm, me, nd.lastLogIndex, nd.lastLogTerm⟩

/-- The other half of `_request_vote`: what the candidate does with the answer. -/
def requestVoteReply (cfg : Config n σ δ) (me peer : Fin n) (nd : Node n σ δ)
    (response : RequestVoteResponse) : Node n σ δ :=
  if nd.currentTerm < response.term then
    { nd with
      currentTerm := response.term
      state := .follower
      leaderId := none
      votedFor := none
      votesReceived := ∅ }
  else if nd.state ≠ .candidate then nd
  else if response.voteGranted then
    checkVoteCount cfg me { nd with votesReceived := insert peer nd.votesReceived }
  else nd

/-- How `request_vote` takes up a later term: it is saved at once. -/
def raiseTerm (nd : Node n σ δ) (term : ℕ) : Node n σ δ :=
  if nd.currentTerm < term then
    saveMeta { nd with
      currentTerm := term
      state := .follower
      leaderId := none
      votedFor := none
      votesReceived := ∅ }
  else nd

/-- The candidate's log is at least as up to date as this node's. -/
def logOk (nd : Node n σ δ) (lastLogIndex lastLogTerm : ℕ) : Prop :=
  nd.lastLogTerm < lastLogTerm ∨
    (lastLogTerm = nd.lastLogTerm ∧ nd.lastLogIndex ≤ lastLogIndex)

instance (nd : Node n σ δ) (i t : ℕ) : Decidable (nd.logOk i t) :=
  inferInstanceAs (Decidable (_ ∨ _))

/-- `request_vote`.  The log is measured before the term is looked at. -/
def requestVote (nd : Node n σ δ) (request : RequestVoteRequest n) :
    Node n σ δ × RequestVoteResponse :=
  let raised := nd.raiseTerm request.term
  if request.term < raised.currentTerm then (raised, ⟨raised.currentTerm, false⟩)
  else if (raised.votedFor = none ∨ raised.votedFor = some request.candidateId) ∧
      nd.logOk request.lastLogIndex request.lastLogTerm then
    (saveMeta { raised with votedFor := some request.candidateId }, ⟨raised.currentTerm, true⟩)
  else (raised, ⟨raised.currentTerm, false⟩)

/-! ## Replication, from the leader -/

/-- What `_send_heartbeats`, `_propose_command` and `_read_index` copy under the
lock for the thread that talks to one peer. -/
structure ReplicateArgs where
  term : ℕ
  nextIndex : Option ℕ
  log : List LogEntry
  leaderCommit : ℕ
  logBase : ℕ
  lastLogIndex : ℕ
  logBaseTerm : ℕ

def replicateArgs (nd : Node n σ δ) (nextIndex : Option ℕ) : ReplicateArgs :=
  ⟨nd.currentTerm, nextIndex, nd.log, nd.commitIndex, nd.lastIncludedIndex, nd.lastLogIndex,
    nd.lastIncludedTerm⟩

/-- `_replicate`'s choice: this peer is behind the compacted prefix, and needs the
snapshot. -/
def needsSnapshot (args : ReplicateArgs) : Bool :=
  0 < args.logBase && (match args.nextIndex with
    | none => true
    | some i => i ≤ args.logBase)

/-- The request `_append_entries` builds out of the copy, or `none` when everything
the peer is behind on was compacted away. -/
def appendRequest (me : Fin n) (args : ReplicateArgs) : Option (AppendEntriesRequest n) :=
  let nextIndex := args.nextIndex.getD (args.lastLogIndex + 1)
  if nextIndex ≤ args.logBase then none
  else
    let prevLogIndex := nextIndex - 1
    let prevLogTerm := match entryIn args.log args.logBase prevLogIndex with
      | some e => e.term
      | none => if prevLogIndex = args.logBase then args.logBaseTerm else 0
    let entries := if prevLogIndex < args.lastLogIndex then
        args.log.filter (prevLogIndex < ·.index)
      else []
    some ⟨args.term, me, prevLogIndex, prevLogTerm, entries, args.leaderCommit⟩

/-- The step out of a term a response has made old. -/
def stepDown (nd : Node n σ δ) (term : ℕ) : Node n σ δ :=
  { nd with currentTerm := term, state := .follower, leaderId := none, votedFor := none }

/-- What the leader does when `peer` refused: back up by one entry. -/
def backUp (nd : Node n σ δ) (peer : Fin n) : Node n σ δ :=
  { nd with
    nextIndex := Function.update nd.nextIndex peer
      (some (max 1 ((nd.nextIndex peer).getD 1 - 1))) }

/-- What the leader does when `peer` is known to hold the log up to `index`. -/
def advance (cfg : Config n σ δ) (nd : Node n σ δ) (peer : Fin n) (index : ℕ) : Node n σ δ :=
  updateCommitIndex cfg { nd with
    nextIndex := Function.update nd.nextIndex peer (some (index + 1))
    matchIndex := Function.update nd.matchIndex peer (some index) }

/-- What the caller of a replication request does with the answer; on a success the
peer is known to hold the log up to `index`.  The flag says whether the response is
handed on to the caller of `_replicate`. -/
def replicateReply (cfg : Config n σ δ) (peer : Fin n) (nd : Node n σ δ) (term : ℕ)
    (success : Bool) (index : ℕ) : Node n σ δ × Bool :=
  if nd.currentTerm < term then (nd.stepDown term, false)
  else if nd.state ≠ .leader then (nd, false)
  else if success then (nd.advance cfg peer index, true)
  else (nd.backUp peer, true)

/-- The other half of `_append_entries`: the follower says how far its log goes. -/
def appendEntriesReply (cfg : Config n σ δ) (peer : Fin n) (nd : Node n σ δ)
    (response : AppendEntriesResponse) : Node n σ δ × Bool :=
  nd.replicateReply cfg peer response.term response.success response.matchIndex

/-- The other half of `_install_snapshot`; `index` is the index of the snapshot that
was sent. -/
def installSnapshotReply (cfg : Config n σ δ) (peer : Fin n) (index : ℕ) (nd : Node n σ δ)
    (response : InstallSnapshotResponse) : Node n σ δ × Bool :=
  nd.replicateReply cfg peer response.term response.success index

/-! ## Replication, at the follower -/

/-- How `append_entries` and `install_snapshot` take up a request's term. -/
def adoptTerm (nd : Node n σ δ) (term : ℕ) : Node n σ δ :=
  if nd.currentTerm < term then
    { nd with currentTerm := term, state := .follower, votedFor := none, votesReceived := ∅ }
  else nd

/-- A valid message for this term is the proof that the term has a leader. -/
def followLeader (nd : Node n σ δ) (leaderId : Fin n) : Node n σ δ :=
  let nd := if nd.state ≠ .follower then
      { nd with state := .follower, votesReceived := ∅ }
    else nd
  { nd with leaderId := some leaderId }

def saveMetaIf (changed : Bool) (nd : Node n σ δ) : Node n σ δ :=
  if changed then nd.saveMeta else nd

/-- The consistency check of `append_entries`.  Below the snapshot there is nothing
left to compare; at its boundary only the term was kept. -/
def prevMatches (nd : Node n σ δ) (prevLogIndex prevLogTerm : ℕ) : Bool :=
  if nd.lastLogIndex < prevLogIndex then false
  else
    match nd.entryAt prevLogIndex with
    | none => !(prevLogIndex = nd.lastIncludedIndex && prevLogTerm ≠ nd.lastIncludedTerm)
    | some e => e.term = prevLogTerm

/-- A conflict: the log is cut before `index`, and the commit index and the applied
index are pulled back to what is left. -/
def truncateFrom (nd : Node n σ δ) (index : ℕ) : Node n σ δ :=
  let cut := saveLogTruncate
    { nd with log := nd.log.take (index - nd.lastIncludedIndex - 1) } index
  let commit := min cut.commitIndex cut.lastLogIndex
  { cut with commitIndex := commit, lastApplied := min cut.lastApplied commit }

/-- One turn of the loop over the request's entries. -/
def absorbEntry (nd : Node n σ δ) (entry : LogEntry) : Node n σ δ :=
  if entry.index ≤ nd.lastIncludedIndex then nd
  else
    match nd.entryAt entry.index with
    | some existing =>
      if existing.term ≠ entry.term then (nd.truncateFrom entry.index).append entry else nd
    | none => nd.append entry

/-- The end of `append_entries`: follow the leader's commit index. -/
def followCommit (cfg : Config n σ δ) (nd : Node n σ δ) (leaderCommit : ℕ) : Node n σ δ :=
  if nd.commitIndex < leaderCommit then nd.commitTo cfg (min leaderCommit nd.lastLogIndex)
  else nd

/-- `append_entries`. -/
def appendEntries (cfg : Config n σ δ) (nd : Node n σ δ) (request : AppendEntriesRequest n) :
    Node n σ δ × AppendEntriesResponse :=
  let termChanged := nd.currentTerm < request.term
  let nd := nd.adoptTerm request.term
  if request.term < nd.currentTerm then
    (nd.saveMetaIf termChanged, ⟨nd.currentTerm, false, 0⟩)
  else
    let nd := nd.followLeader request.leaderId
    if nd.prevMatches request.prevLogIndex request.prevLogTerm then
      let nd := (request.entries.foldl absorbEntry nd).saveMetaIf termChanged
      (nd.followCommit cfg request.leaderCommit, ⟨nd.currentTerm, true, nd.lastLogIndex⟩)
    else (nd.saveMetaIf termChanged, ⟨nd.currentTerm, false, 0⟩)

/-- The end of `install_snapshot`: the snapshot takes the place of the state and of
the log below it.  What the log holds above the snapshot is kept. -/
def replaceState (cfg : Config n σ δ) (nd : Node n σ δ) (s : Snapshot δ) : Node n σ δ :=
  saveCommitIndex { nd.storeSnapshot s with
    machine := ⟨cfg.machine.restore s.data, s.history⟩
    log := nd.log.filter (s.index < ·.index)
    lastIncludedIndex := s.index
    lastIncludedTerm := s.term
    lastApplied := s.index
    commitIndex := max nd.commitIndex s.index }

/-- `install_snapshot`. -/
def installSnapshot (cfg : Config n σ δ) (nd : Node n σ δ)
    (request : InstallSnapshotRequest n δ) : Node n σ δ × InstallSnapshotResponse :=
  let termChanged := nd.currentTerm < request.term
  let nd := nd.adoptTerm request.term
  if request.term < nd.currentTerm then
    (nd.saveMetaIf termChanged, ⟨nd.currentTerm, false⟩)
  else
    let nd := (nd.followLeader request.leaderId).saveMetaIf termChanged
    if request.snapshot.index ≤ nd.lastApplied then (nd, ⟨nd.currentTerm, true⟩)
    else (nd.replaceState cfg request.snapshot, ⟨nd.currentTerm, true⟩)

/-! ## Proposals and reads -/

def notLeader : ApplyResult := .failure .errNotLeader "Not leader"

/-- The admission block of `propose`: a refusal, or `none` when the command is let
in.  How many proposals are in flight is how many calls the cluster holds open. -/
def propose (cfg : Config n σ δ) (nd : Node n σ δ) (command : Bytes) : Option ApplyResult :=
  if nd.state ≠ .leader then some notLeader
  else if nd.writesFrozen ∧ cfg.writesNewData command then
    let refusal := freezeRefusal nd.freezeReason
    some (.failure refusal.1 refusal.2)
  else none

/-- The first block of `_propose_command`: the entry it appended, or `none` when the
node no longer leads. -/
def proposeCommand (cfg : Config n σ δ) (nd : Node n σ δ) (command : Bytes) :
    Node n σ δ × Option LogEntry :=
  if nd.state ≠ .leader then (nd, none)
  else
    let entry : LogEntry := ⟨nd.currentTerm, nd.lastLogIndex + 1, command⟩
    ((nd.append entry).updateCommitIndex cfg, some entry)

/-- `has_committed_in_its_own_term`. -/
def hasCommittedInItsOwnTerm (nd : Node n σ δ) : Bool :=
  if nd.state ≠ .leader then false
  else
    match nd.entryAt nd.commitIndex with
    | some e => e.term = nd.currentTerm
    | none => false

/-- The last block of `_read_index`: the index the read may be served at, given how
many nodes acknowledged the leader's term. -/
def confirmRead (cfg : Config n σ δ) (nd : Node n σ δ) (term acks : ℕ) :
    Node n σ δ × Option ℕ :=
  if nd.state ≠ .leader ∨ nd.currentTerm ≠ term then (nd, none)
  else if acks < majority n then (nd, none)
  else
    let nd := nd.updateCommitIndex cfg
    (nd, some nd.commitIndex)

/-- The wait of `_propose_command`, looked at once: a refusal, the news that the
commit index has passed the entry, or `none` while there is nothing to say yet. -/
def awaitCommit (nd : Node n σ δ) (entry : LogEntry) : Option (Option ApplyResult) :=
  if nd.commitIndex < entry.index then
    if nd.state ≠ .leader ∨ nd.currentTerm ≠ entry.term then
      some (some (.failure .errLeadershipLost "Lost leadership"))
    else none
  else
    match nd.entryAt entry.index with
    | some applied =>
      if applied.term ≠ entry.term then
        some (some (.failure .errEntryOverwritten "Entry overwritten"))
      else some none
    | none => some none

/-- The last block of `_propose_command`: the machine's answer, if it is still in the
window. -/
def proposalResult (nd : Node n σ δ) (entry : LogEntry) : ApplyResult :=
  match nd.applyResults.lookup entry.index with
  | some r =>
    { success := r.success, errorCode := r.errorCode, errorMsg := r.errorMsg, data := r.data,
      index := some entry.index }
  | none => .ok none (some entry.index)

def freezeWrites (nd : Node n σ δ) (reason : FreezeReason) : Node n σ δ :=
  { nd with writesFrozen := true, freezeReason := reason }

def resumeWrites (nd : Node n σ δ) : Node n σ δ := { nd with writesFrozen := false }

def shutdown (nd : Node n σ δ) : Node n σ δ :=
  { nd with state := .follower, shutdownFlag := true }

/-! ## What the blocks come to -/

variable {cfg : Config n σ δ} {nd : Node n σ δ} {motive : Node n σ δ → Prop}

/-- `_maybe_snapshot` leaves the node alone, gives compaction up or compacts. -/
theorem maybeSnapshot_cases (hsame : motive nd) (hoff : motive { nd with snapshotInterval := 0 })
    (hcompact : ∀ e data, nd.entryAt nd.lastApplied = some e →
      cfg.machine.snapshot nd.machine.state = some data → motive (nd.compact e.term data)) :
    motive (nd.maybeSnapshot cfg) := by
  unfold maybeSnapshot
  split
  · exact hsame
  split
  · exact hsame
  split
  · exact hsame
  rename_i e he
  split
  · exact hoff
  · rename_i data hdata
    exact hcompact e data he hdata

/-- The apply loop touches the machine, its results and `last_applied`. -/
theorem applyNext_iterate (cfg : Config n σ δ) (k : ℕ) (nd : Node n σ δ) :
    ∃ m rs, (applyNext cfg)^[k] nd =
      { nd with lastApplied := nd.lastApplied + k, machine := m, applyResults := rs } := by
  induction k with
  | zero => exact ⟨nd.machine, nd.applyResults, rfl⟩
  | succ k ih =>
    obtain ⟨m, rs, heq⟩ := ih
    rw [Function.iterate_succ_apply', heq, applyNext]
    dsimp only
    split
    · exact ⟨m, rs, rfl⟩
    · exact ⟨_, _, rfl⟩

/-- `_update_commit_index` moves to where the count falls, or not at all. -/
theorem updateCommitIndex_moves (cfg : Config n σ δ) (nd : Node n σ δ) :
    nd.updateCommitIndex cfg = nd ∨ majority n ≤ nd.matchIndices.length ∧
      ∃ i e, i = nd.matchIndices.getD (nd.matchIndices.length - majority n) 0 ∧
        nd.commitIndex < i ∧ nd.entryAt i = some e ∧ e.term = nd.currentTerm ∧
        nd.updateCommitIndex cfg = nd.commitTo cfg i := by
  unfold updateCommitIndex
  split
  swap
  · exact .inl rfl
  rename_i hlen
  dsimp only
  split
  swap
  · exact .inl rfl
  rename_i hlt
  split
  swap
  · exact .inl rfl
  rename_i e he
  split
  · rename_i hterm
    exact .inr ⟨hlen, _, e, rfl, hlt, he, hterm, rfl⟩
  · exact .inl rfl

/-- An entry a leader sent is passed over, put on the end, or put in the place of another. -/
theorem absorbEntry_cases {e : LogEntry}
    (hsame : (nd.lastIncludedIndex < e.index → (nd.entryAt e.index).isSome) → motive nd)
    (happend : nd.lastIncludedIndex < e.index → nd.entryAt e.index = none → motive (nd.append e))
    (hreplace : ∀ old, nd.lastIncludedIndex < e.index → nd.entryAt e.index = some old →
      motive ((nd.truncateFrom e.index).append e)) : motive (nd.absorbEntry e) := by
  unfold absorbEntry
  split
  · rename_i hbase
    exact hsame fun h => absurd h (not_lt.2 hbase)
  rename_i hbase
  split
  · rename_i old hold
    split
    · exact hreplace old (not_le.1 hbase) hold
    · exact hsame fun _ => by rw [hold]; rfl
  · rename_i hnone
    exact happend (not_le.1 hbase) hnone

end Node

end OxideDB.Raft
