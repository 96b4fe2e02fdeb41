import OxideDB.Raft.Message

/-!
# What a node keeps on disk

`EngineRaftStorage` of `raft/storage.py`: the term and the vote, the log, the
commit index and the newest snapshot, each under its own key of a byte-ordered
engine.  A log entry's key is its index, so the log is kept here as the list the
engine's range scan returns: ordered by index, one entry an index.  Every method
is one engine call, and so one durable step.
-/

namespace OxideDB.Raft

/-- The durable state of one node. -/
structure EngineRaftStorage (n : ℕ) (δ : Type) where
  currentTerm : ℕ := 0
  votedFor : Option (Fin n) := none
  log : List LogEntry := []
  commitIndex : ℕ := 0
  snapshot : Option (Snapshot δ) := none
  deriving DecidableEq

namespace EngineRaftStorage

variable {n : ℕ} {δ : Type}

/-- A storage nothing has been written to. -/
def empty : EngineRaftStorage n δ := {}

def saveMeta (st : EngineRaftStorage n δ) (currentTerm : ℕ) (votedFor : Option (Fin n)) :
    EngineRaftStorage n δ :=
  { st with currentTerm := currentTerm, votedFor := votedFor }

def loadMeta (st : EngineRaftStorage n δ) : ℕ × Option (Fin n) :=
  (st.currentTerm, st.votedFor)

/-- A `put` at the entry's index: whatever was stored at that index is replaced. -/
def appendLogEntry (st : EngineRaftStorage n δ) (entry : LogEntry) : EngineRaftStorage n δ :=
  { st with log := st.log.filter (·.index < entry.index) ++ entry ::
      st.log.filter (entry.index < ·.index) }

/-- Drop every entry with `index ≥ fromIndex`. -/
def truncateLog (st : EngineRaftStorage n δ) (fromIndex : ℕ) : EngineRaftStorage n δ :=
  { st with log := st.log.filter (·.index < fromIndex) }

/-- Drop every entry with `index ≤ lastIncludedIndex`. -/
def compactLog (st : EngineRaftStorage n δ) (lastIncludedIndex : ℕ) : EngineRaftStorage n δ :=
  { st with log := st.log.filter (lastIncludedIndex < ·.index) }

def loadLog (st : EngineRaftStorage n δ) : List LogEntry := st.log

def saveCommitIndex (st : EngineRaftStorage n δ) (commitIndex : ℕ) : EngineRaftStorage n δ :=
  { st with commitIndex := commitIndex }

def loadCommitIndex (st : EngineRaftStorage n δ) : ℕ := st.commitIndex

def saveSnapshot (st : EngineRaftStorage n δ) (snapshot : Snapshot δ) : EngineRaftStorage n δ :=
  { st with snapshot := some snapshot }

def loadSnapshot (st : EngineRaftStorage n δ) : Option (Snapshot δ) := st.snapshot

end EngineRaftStorage

end OxideDB.Raft
