import Mathlib.Data.Finset.Card
import Mathlib.Data.Fintype.Basic

/-!
# The data a Raft node exchanges

The records of `raft/node.py` and `raft/state_machine.py` that travel between
nodes, or between a node and its state machine: log entries, the three pairs of
requests and responses, the result of applying a command, and the interface of a
state machine.  A group has `n` nodes, named by `Fin n`.

The one thing here that the source does not have is the *history* of a state
machine: the entries it has been handed, in the order it was handed them.  It is
carried wherever the state is carried, a snapshot included, so that "the command
this replica folded in at index `i`" is a question the model can answer.
-/

namespace OxideDB

/-- What a computation that may raise did, when it did not. -/
theorem bind_ok {ε α β : Type} {x : Except ε α} {f : α → Except ε β} {b : β}
    (h : x >>= f = .ok b) : ∃ a, x = .ok a ∧ f a = .ok b := by
  cases x with
  | error e => cases h
  | ok a => exact ⟨a, rfl, h⟩

namespace Raft

/-- Keys, values and commands are byte strings. -/
abbrev Bytes := List UInt8

/-- The three roles of a node. -/
inductive NodeState where
  | follower
  | candidate
  | leader
  deriving DecidableEq, Repr, Inhabited

/-- The command of the empty entry a new leader appends. -/
def noopCommand : Bytes := []

/-- One entry of the log. -/
structure LogEntry where
  term : ℕ
  index : ℕ
  command : Bytes
  deriving DecidableEq, Repr, Inhabited

/-- The codes a refusal carries. -/
inductive ErrorCode where
  | success
  | errUnknown
  | errApplyError
  | errLocked
  | errWriteConflict
  | errNoLock
  | errTimestampMismatch
  | errLockStatusInvalid
  | errNotLeader
  | errLeadershipLost
  | errTimeout
  | errEntryOverwritten
  | errSplitInProgress
  | errMigrating
  deriving DecidableEq, Repr, Inhabited

/-- The number a code is on the wire. -/
def ErrorCode.toNat : ErrorCode → ℕ
  | .success => 0
  | .errUnknown => 1
  | .errApplyError => 2
  | .errLocked => 101
  | .errWriteConflict => 102
  | .errNoLock => 201
  | .errTimestampMismatch => 202
  | .errLockStatusInvalid => 203
  | .errNotLeader => 301
  | .errLeadershipLost => 302
  | .errTimeout => 303
  | .errEntryOverwritten => 304
  | .errSplitInProgress => 305
  | .errMigrating => 306

/-- What applying a command, or proposing one, answers. -/
structure ApplyResult where
  success : Bool
  errorCode : Option ErrorCode := none
  errorMsg : Option String := none
  data : Option Bytes := none
  /-- Where the command landed in the log, when it landed somewhere. -/
  index : Option ℕ := none
  leaderAddress : Option String := none
  deriving DecidableEq, Repr, Inhabited

namespace ApplyResult

/-- `ApplyResult.success`. -/
def ok (data : Option Bytes := none) (index : Option ℕ := none) : ApplyResult :=
  { success := true, errorCode := some .success, data := data, index := index }

/-- `ApplyResult.failure`. -/
def failure (code : ErrorCode) (msg : String) : ApplyResult :=
  { success := false, errorCode := some code, errorMsg := some msg }

end ApplyResult

/-- A state machine: a state a command moves, and a serialised form of it.
`snapshot` answers `none` where the source raises `NotImplementedError`. -/
structure StateMachine (σ δ : Type) where
  init : σ
  apply : σ → Bytes → σ × ApplyResult
  snapshot : σ → Option δ
  restore : δ → σ

namespace StateMachine

variable {σ δ : Type} (M : StateMachine σ δ)

/-- What the apply loop does with one entry: a no-op belongs to the log and not
to the machine, so it is answered without being handed over. -/
def applyEntry (s : σ) (e : LogEntry) : σ × ApplyResult :=
  if e.command = noopCommand then (s, .ok) else M.apply s e.command

/-- The state reached from scratch by a sequence of entries. -/
def replay (es : List LogEntry) : σ :=
  es.foldl (fun s e => (M.applyEntry s e).1) M.init

theorem replay_concat (es : List LogEntry) (e : LogEntry) :
    M.replay (es ++ [e]) = (M.applyEntry (M.replay es) e).1 := by
  simp [replay, List.foldl_append]

/-- `restore` puts back whatever `snapshot` produced. -/
def Lawful : Prop :=
  ∀ s d, M.snapshot s = some d → M.restore d = s

/-- A state the machine can be in after the entries `es`: applied one by one, with the
state serialised and restored any number of times on the way. -/
inductive Reached : σ → List LogEntry → Prop
  | init : Reached M.init []
  | apply {s : σ} {es : List LogEntry} (e : LogEntry) :
      Reached s es → Reached (M.applyEntry s e).1 (es ++ [e])
  | restored {s : σ} {es : List LogEntry} {d : δ} :
      Reached s es → M.snapshot s = some d → Reached (M.restore d) es

variable {M : StateMachine σ δ} {s : σ} {es : List LogEntry} (hM : M.Lawful)
include hM

/-- Snapshots are invisible to a lawful machine. -/
theorem Reached.eq_replay (h : M.Reached s es) : s = M.replay es := by
  induction h with
  | init => rfl
  | apply e _ ih => rw [replay_concat, ← ih]
  | restored _ hd ih => rw [hM _ _ hd, ih]

/-- What every entry keeps, a longer history has kept. -/
theorem Reached.of_prefix {I : σ → Prop} (hstep : ∀ s e, I s → I (M.applyEntry s e).1) {s' : σ}
    {es' : List LogEntry} (h : M.Reached s es) (h' : M.Reached s' es') (hpre : es <+: es')
    (hI : I s) : I s' := by
  obtain ⟨more, rfl⟩ := hpre
  rw [h.eq_replay hM] at hI
  rw [h'.eq_replay hM]
  clear h'
  induction more using List.reverseRecOn with
  | nil => rwa [List.append_nil]
  | append_singleton more e ih =>
    rw [← List.append_assoc, replay_concat]
    exact hstep _ e ih

end StateMachine

/-- A state machine as one replica holds it: its state, and the entries folded
into that state so far. -/
structure Replica (σ : Type) where
  state : σ
  history : List LogEntry

/-- A snapshot of a state machine, at the index and term it was taken at. -/
structure Snapshot (δ : Type) where
  index : ℕ
  term : ℕ
  data : δ
  history : List LogEntry
  deriving DecidableEq

structure RequestVoteRequest (n : ℕ) where
  term : ℕ
  candidateId : Fin n
  lastLogIndex : ℕ
  lastLogTerm : ℕ
  deriving DecidableEq

structure RequestVoteResponse where
  term : ℕ
  voteGranted : Bool
  deriving DecidableEq

structure AppendEntriesRequest (n : ℕ) where
  term : ℕ
  leaderId : Fin n
  prevLogIndex : ℕ
  prevLogTerm : ℕ
  entries : List LogEntry
  leaderCommit : ℕ
  deriving DecidableEq

structure AppendEntriesResponse where
  term : ℕ
  success : Bool
  matchIndex : ℕ
  deriving DecidableEq

/-- The request carries one snapshot: its index and term are the source's
`last_included_index` and `last_included_term`. -/
structure InstallSnapshotRequest (n : ℕ) (δ : Type) where
  term : ℕ
  leaderId : Fin n
  snapshot : Snapshot δ
  deriving DecidableEq

structure InstallSnapshotResponse where
  term : ℕ
  success : Bool
  deriving DecidableEq

end Raft
end OxideDB
