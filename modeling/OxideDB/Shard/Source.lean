import OxideDB.Raft.Boundary
import OxideDB.Raft.Freeze
import OxideDB.Shard.Group
import OxideDB.Shard.RangeRead

/-!
# Reading a shard out

A split and a move read the rows of a shard out of its group, to copy them into another one.  A
caller's split or move looks for a node that leads, freezes every replica, waits for the
proposals under way to be answered, looks for locks and reads the rows — all of it in the one
node it found.  One that is resumed from a note freezes the replicas of its side, which are all of
them in a cluster and its own one in a process, and asks the group for the rows through a client.
The group goes on meanwhile: it elects, replicates and commits, and clients go on proposing to it.

* `Source.step` — the flow and its group.
-/

namespace OxideDB.Shard

open Raft (Bytes RaftCluster ProposeCall FreezeReason)
open Storage Option
open Storage.MVCCStateMachine (ScanFailure)

/-- A split at `splitKey`, or a move, of a shard with the range from `start` to `stop`. -/
structure Job where
  start : Bytes
  stop : Bytes
  splitKey : Option Bytes
  deriving DecidableEq

namespace Job

/-- Why the shard is frozen. -/
def reason (job : Job) : FreezeReason :=
  match job.splitKey with
  | some _ => .split
  | none => .migration

/-- A split point is inside the range. -/
def Allowed (job : Job) : Prop := ∀ key ∈ job.splitKey, job.start < key ∧ key < job.stop

instance (job : Job) : Decidable job.Allowed :=
  inferInstanceAs (Decidable (∀ key ∈ job.splitKey, job.start < key ∧ key < job.stop))

/-- The rows to copy, out of a node's own machine. -/
def rows (job : Job) (m : MVCCStateMachine) : Except String (List (Bytes × Bytes)) :=
  match job.splitKey with
  | some splitKey => rowsAbove m (job.start, job.stop) splitKey
  | none => committedRows m job.start job.stop

/-- The rows to copy, as a client is answered. -/
def rowsThrough (job : Job) (m : MVCCStateMachine) :
    Except ScanFailure (List (Bytes × Bytes)) :=
  match job.splitKey with
  | some splitKey => rowsAboveThrough m (job.start, job.stop) splitKey
  | none => m.scan job.start job.stop none

/-- A key whose row is to be copied. -/
def Covers (job : Job) (key : Bytes) : Prop :=
  job.start ≤ key ∧ key < job.stop ∧ ∀ splitKey ∈ job.splitKey, splitKey ≤ key

end Job

namespace Source

/-- How far the flow is.  `left` are the replicas that are still to be frozen, asked, thawed or
closed. -/
inductive Phase (n : ℕ) where
  | idle
  /-- Begun by a caller, with the leader it found, or resumed from a note. -/
  | freezing (leader : Option (Fin n)) (left : List (Fin n))
  | draining (leader : Fin n) (left : List (Fin n))
  | checking (leader : Fin n)
  | reading (leader : Fin n)
  /-- Frozen and written down; the rows are yet to be read through a client. -/
  | held
  | lockCheck (source : Fin n) (read : ℕ)
  | rowRead (source : Fin n) (read : ℕ)
  | copying (source : Fin n) (rows : List (Bytes × Bytes))
  | thawing (left : List (Fin n))
  | closing (left : List (Fin n))
  deriving DecidableEq

namespace Phase

variable {n : ℕ}

/-- The node whose rows the next step reads. -/
def source : Phase n → Option (Fin n)
  | .reading p => some p
  | .rowRead p _ => some p
  | _ => none

/-- From the first replica frozen to the rows copied. -/
def Holds : Phase n → Prop
  | .idle | .thawing _ | .closing _ => False
  | _ => True

instance (phase : Phase n) : Decidable phase.Holds := by
  induction phase using Phase.casesOn <;> dsimp only [Holds] <;> infer_instance

/-- Every replica of the side has been frozen. -/
def Full : Phase n → Prop
  | .freezing _ _ => False
  | phase => phase.Holds

/-- The next step thaws a replica. -/
def Thaws : Phase n → Prop
  | .thawing (_ :: _) => True
  | _ => False

instance (phase : Phase n) : Decidable phase.Thaws := by
  unfold Thaws
  split <;> infer_instance

/-- The rows have been read. -/
def HasRows : Phase n → Prop
  | .copying _ _ => True
  | _ => False

instance (phase : Phase n) : Decidable phase.HasRows := by
  induction phase using Phase.casesOn <;> dsimp only [HasRows] <;> infer_instance

end Phase

inductive Step (n : ℕ) where
  /-- A step of the group and its clients. -/
  | group (e : Raft.Event n)
  /-- `split_shard`, `move_shard`. -/
  | begin (job : Job)
  /-- `_resume_split`, `_resume_migration`, by a side that holds the replicas `own`. -/
  | resume (job : Job) (own : List (Fin n))
  /-- The lookup of a resumed flow answers with a node. -/
  | find (p : Fin n)
  /-- The flow takes its next step. -/
  | proceed
  /-- What the flow waits for does not come in time. -/
  | giveUp
  /-- The routing table has been told. -/
  | finish
  /-- The routing table refuses the move. -/
  | abort
  /-- The process that runs the flow stops; what it left can be resumed. -/
  | die

end Source

/-- A group, and the flow that reads its rows. -/
structure Source (n : ℕ) where
  group : Group n
  job : Job
  /-- The replicas that the side of the flow holds. -/
  own : List (Fin n)
  phase : Source.Phase n

namespace Source

variable {n : ℕ} {cfg : Settings n} {s s' : Source n} {x : Step n}

/-- The event is none of those that only the flow makes happen: a side freezes, thaws and closes
its own replicas. -/
def Foreign (own : List (Fin n)) : Raft.Event n → Prop
  | .act (.freezeWrites q _) | .act (.resumeWrites q) | .act (.shutdown q) => q ∉ own
  | _ => True

instance (own : List (Fin n)) (e : Raft.Event n) : Decidable (Foreign own e) := by
  induction e using Raft.Event.casesOn with
  | act a => induction a using Raft.Action.casesOn <;> dsimp only [Foreign] <;> infer_instance
  | crash _ | crashIn _ _ => exact inferInstanceAs (Decidable True)

/-- The replicas of other sides are frozen. -/
def OthersFrozen (s : Source n) : Prop := ∀ q ∉ s.own, (s.group.nodes q).writesFrozen = true

instance (s : Source n) : Decidable s.OthersFrozen :=
  inferInstanceAs (Decidable (∀ q ∉ s.own, _))

def init (cfg : Settings n) : Source n :=
  ⟨RaftCluster.init cfg, ⟨[], [], none⟩, List.finRange n, .idle⟩

/-- The flow makes `e` happen in the group, and goes on to `phase`. -/
def makes (cfg : Settings n) (s : Source n) (e : Raft.Event n) (phase : Phase n) :
    Option (Source n) :=
  (s.group.step cfg e).map fun g => { s with group := g, phase := phase }

/-- `shard_leader`: the first replica that takes itself for the leader. -/
def shardLeader (g : Group n) : Option (Fin n) :=
  (List.finRange n).find? fun p => (g.nodes p).state = .leader

/-- The proposal is counted in `_proposes`: it was admitted, and is not answered. -/
def inFlight (call : ProposeCall n) : Bool :=
  match call.status with
  | .admitted | .waiting _ | .settled _ => true
  | .returned _ _ | .lost => false

/-- Whether a range read of `p` may be answered from its machine, once its handshake `k` is over
and the index it confirmed is applied. -/
def handshake (g : Group n) (p : Fin n) (k : ℕ) : Option Bool :=
  match g.reads[k]? with
  | some ⟨_, _, _, .asking⟩ => none
  | some ⟨_, _, _, .done (some i)⟩ =>
    if i ≤ (g.nodes p).lastApplied then some ((g.nodes p).state = .leader) else none
  | _ => some false

/-- The machine of a replica. -/
def machine (s : Source n) (p : Fin n) : MVCCStateMachine := (s.group.nodes p).machine.state

/-- The next step of the flow. -/
def proceed (cfg : Settings n) (s : Source n) : Option (Source n) :=
  match s.phase with
  | .freezing leader (q :: left) =>
    s.makes cfg (.act (.freezeWrites q s.job.reason)) (.freezing leader left)
  | .freezing (some p) [] => some { s with phase := .draining p (List.finRange n) }
  | .freezing none [] => some { s with phase := .held }
  | .draining p (q :: left) =>
    if s.group.calls.any fun call => call.node = q && inFlight call then none
    else some { s with phase := .draining p left }
  | .draining p [] => some { s with phase := .checking p }
  | .checking p =>
    match locksInRange (s.machine p) s.job.start s.job.stop with
    | .ok false => some { s with phase := .reading p }
    | _ => some { s with phase := .thawing s.own }
  | .reading p =>
    match s.job.rows (s.machine p) with
    | .ok rows =>
      -- a move that has read no rows reads them again, through a client
      if rows = [] ∧ s.job.splitKey = none then some { s with phase := .held }
      else some { s with phase := .copying p rows }
    | .error _ => some { s with phase := .thawing s.own }
  | .lockCheck p k =>
    match handshake s.group p k with
    | none => none
    | some true =>
      match (s.machine p).scan s.job.start s.job.stop none with
      | .ok _ => s.makes cfg (.act (.beginRead p)) (.rowRead p s.group.reads.length)
      | .error _ => some { s with phase := .held }
    | some false => s.makes cfg (.act (.beginRead p)) (.rowRead p s.group.reads.length)
  | .rowRead p k =>
    match handshake s.group p k with
    | none => none
    | some true =>
      match s.job.rowsThrough (s.machine p) with
      | .ok rows => some { s with phase := .copying p rows }
      | .error _ => some { s with phase := .held }
    | some false => some { s with phase := .held }
  | .thawing (q :: left) => s.makes cfg (.act (.resumeWrites q)) (.thawing left)
  | .thawing [] => some { s with phase := .idle }
  | .closing (q :: left) => s.makes cfg (.act (.shutdown q)) (.closing left)
  | .idle | .held | .copying _ _ | .closing [] => none

def step (cfg : Settings n) (s : Source n) : Step n → Option (Source n)
  | .group e => if Foreign s.own e then s.makes cfg e s.phase else none
  | .begin job =>
    if s.phase = .idle ∧ job.Allowed then
      (shardLeader s.group).map fun p =>
        { s with job := job, own := List.finRange n, phase := .freezing (some p) (List.finRange n) }
    else none
  | .resume job own =>
    if s.phase = .idle then
      some { s with job := job, own := own, phase := .freezing none own }
    else none
  | .find p =>
    if s.phase = .held then
      s.makes cfg (.act (.beginRead p)) (.lockCheck p s.group.reads.length)
    else none
  | .proceed => s.proceed cfg
  | .giveUp =>
    match s.phase with
    | .draining _ _ => some { s with phase := .thawing s.own }
    -- a refusal that is not about a lock: the read that follows meets it again
    | .lockCheck p _ => s.makes cfg (.act (.beginRead p)) (.rowRead p s.group.reads.length)
    | .rowRead _ _ => some { s with phase := .held }
    | _ => none
  | .finish =>
    match s.phase, s.job.splitKey with
    | .copying _ _, some _ => some { s with phase := .thawing s.own }
    | .copying _ _, none => some { s with phase := .closing s.own }
    | _, _ => none
  | .abort =>
    match s.phase, s.job.splitKey with
    | .copying _ _, none => some { s with phase := .thawing s.own }
    | _, _ => none
  | .die => some { s with phase := .idle }

abbrev run (cfg : Settings n) : Source n → List (Step n) → Option (Source n) :=
  Transition.run (step cfg)

abbrev Along (P : Source n → Step n → Prop) (cfg : Settings n) : Source n → List (Step n) → Prop :=
  Transition.Along (step cfg) P

/-! ## What a step can do -/

/-- The events the flow makes happen. -/
def Made : Raft.Event n → Prop
  | .act (.freezeWrites _ _) | .act (.resumeWrites _) | .act (.shutdown _)
  | .act (.beginRead _) => True
  | _ => False

/-- Everything a step can do. -/
inductive Moves (cfg : Settings n) (s : Source n) : Step n → Source n → Prop
  | group {e : Raft.Event n} {g : Group n} (hg : s.group.step cfg e = some g) :
      Moves cfg s (.group e) { s with group := g }
  | began {x : Step n} {job : Job} {own : List (Fin n)} {leader : Option (Fin n)} :
      Moves cfg s x { s with job := job, own := own, phase := .freezing leader own }
  | froze {x : Step n} {leader : Option (Fin n)} {q : Fin n} {left : List (Fin n)} {g : Group n}
      (hphase : s.phase = .freezing leader (q :: left))
      (hg : s.group.step cfg (.act (.freezeWrites q s.job.reason)) = some g) :
      Moves cfg s x { s with group := g, phase := .freezing leader left }
  | asked {x : Step n} {p : Fin n} {phase : Phase n} {g : Group n} (hfull : s.phase.Full)
      (hphase : phase.Full ∧ ¬ phase.HasRows)
      (hg : s.group.step cfg (.act (.beginRead p)) = some g) :
      Moves cfg s x { s with group := g, phase := phase }
  /-- The flow goes on; with the side's replicas frozen, only if they were. -/
  | turned {x : Step n} {phase : Phase n} (hphase : ¬ phase.Holds ∨ phase.Full ∧ ¬ phase.HasRows ∧
      (s.phase.Full ∨ ∃ leader, s.phase = .freezing leader [])) :
      Moves cfg s x { s with phase := phase }
  | read {p : Fin n} {rows : List (Bytes × Bytes)} (hsource : s.phase.source = some p)
      (hrows : s.job.rows (s.machine p) = .ok rows ∨
        s.job.rowsThrough (s.machine p) = .ok rows) :
      Moves cfg s .proceed { s with phase := .copying p rows }
  | thawed {q : Fin n} {left : List (Fin n)} {g : Group n}
      (hphase : s.phase = .thawing (q :: left))
      (hg : s.group.step cfg (.act (.resumeWrites q)) = some g) :
      Moves cfg s .proceed { s with group := g, phase := .thawing left }
  | closed {q : Fin n} {left : List (Fin n)} {g : Group n}
      (hg : s.group.step cfg (.act (.shutdown q)) = some g) :
      Moves cfg s .proceed { s with group := g, phase := .closing left }

theorem makes_eq {e : Raft.Event n} {phase : Phase n} (h : s.makes cfg e phase = some s') :
    ∃ g, s.group.step cfg e = some g ∧ s' = { s with group := g, phase := phase } := by
  obtain ⟨g, hg, rfl⟩ := map_eq_some_iff.1 h
  exact ⟨g, hg, rfl⟩

theorem proceed_moves (hs : s.proceed cfg = some s') : Moves cfg s .proceed s' := by
  have hasks : ∀ {p : Fin n} {k j : ℕ}, s.phase = .lockCheck p k →
      s.makes cfg (.act (.beginRead p)) (.rowRead p j) = some s' → Moves cfg s .proceed s' := by
    intro p k j hphase h
    obtain ⟨g, hg, rfl⟩ := makes_eq h
    exact .asked (by rw [hphase]; trivial) ⟨trivial, id⟩ hg
  have hreleases : Moves cfg s .proceed { s with phase := .thawing s.own } :=
    .turned (.inl id)
  unfold proceed at hs
  split at hs
  · rename_i leader q left hphase
    obtain ⟨g, hg, rfl⟩ := makes_eq hs
    exact .froze hphase hg
  · rename_i p hphase
    cases hs
    exact .turned (.inr ⟨trivial, id, .inr ⟨_, hphase⟩⟩)
  · rename_i hphase
    cases hs
    exact .turned (.inr ⟨trivial, id, .inr ⟨_, hphase⟩⟩)
  · rename_i p q left hphase
    split at hs
    · cases hs
    · cases hs
      exact .turned (.inr ⟨trivial, id, .inl (by rw [hphase]; trivial)⟩)
  · rename_i p hphase
    cases hs
    exact .turned (.inr ⟨trivial, id, .inl (by rw [hphase]; trivial)⟩)
  · rename_i p hphase
    split at hs
    · cases hs
      exact .turned (.inr ⟨trivial, id, .inl (by rw [hphase]; trivial)⟩)
    · cases hs
      exact hreleases
  · rename_i p hphase
    split at hs
    · rename_i rows hrows
      split at hs
      · cases hs
        exact .turned (.inr ⟨trivial, id, .inl (by rw [hphase]; trivial)⟩)
      · cases hs
        exact .read (by rw [hphase]; rfl) (.inl hrows)
    · cases hs
      exact hreleases
  · rename_i p k hphase
    split at hs
    · cases hs
    · split at hs
      · exact hasks hphase hs
      · cases hs
        exact .turned (.inr ⟨trivial, id, .inl (by rw [hphase]; trivial)⟩)
    · exact hasks hphase hs
  · rename_i p k hphase
    have hheld : Moves cfg s .proceed { s with phase := .held } :=
      .turned (.inr ⟨trivial, id, .inl (by rw [hphase]; trivial)⟩)
    split at hs
    · cases hs
    · split at hs
      · rename_i rows hrows
        cases hs
        exact .read (by rw [hphase]; rfl) (.inr hrows)
      · cases hs
        exact hheld
    · cases hs
      exact hheld
  · rename_i q left hphase
    obtain ⟨g, hg, rfl⟩ := makes_eq hs
    exact .thawed hphase hg
  · cases hs
    exact .turned (.inl id)
  · obtain ⟨g, hg, rfl⟩ := makes_eq hs
    exact .closed hg
  · cases hs
  · cases hs
  · cases hs
  · cases hs

variable (hs : s.step cfg x = some s')
include hs

/-- **Nothing else can happen.** -/
theorem moves : Moves cfg s x s' := by
  cases x with
  | group e =>
    obtain ⟨-, hs⟩ := ite_none_right_eq_some.1 hs
    obtain ⟨g, hg, rfl⟩ := makes_eq hs
    exact .group hg
  | begin job =>
    obtain ⟨-, hs⟩ := ite_none_right_eq_some.1 hs
    obtain ⟨p, -, rfl⟩ := map_eq_some_iff.1 hs
    exact .began
  | resume job own =>
    obtain ⟨-, hs⟩ := ite_none_right_eq_some.1 hs
    cases hs
    exact .began
  | find p =>
    obtain ⟨hphase, hs⟩ := ite_none_right_eq_some.1 hs
    obtain ⟨g, hg, rfl⟩ := makes_eq hs
    exact .asked (by rw [hphase]; trivial) ⟨trivial, id⟩ hg
  | proceed => exact proceed_moves hs
  | giveUp =>
    simp only [step] at hs
    split at hs
    · cases hs
      exact .turned (.inl id)
    · rename_i p k hphase
      obtain ⟨g, hg, rfl⟩ := makes_eq hs
      exact .asked (by rw [hphase]; trivial) ⟨trivial, id⟩ hg
    · rename_i p k hphase
      cases hs
      exact .turned (.inr ⟨trivial, id, .inl (by rw [hphase]; trivial)⟩)
    · cases hs
  | finish =>
    simp only [step] at hs
    split at hs
    · cases hs
      exact .turned (.inl id)
    · cases hs
      exact .turned (.inl id)
    · cases hs
  | abort =>
    simp only [step] at hs
    split at hs
    · cases hs
      exact .turned (.inl id)
    · cases hs
  | die =>
    cases hs
    exact .turned (.inl id)

/-- **What the group makes of a step**: nothing, or a step of its own. -/
theorem step_group : s'.group = s.group ∨
    ∃ e, s.group.step cfg e = some s'.group ∧ (x = .group e ∨ Made e) := by
  cases moves hs with
  | group hg => exact .inr ⟨_, hg, .inl rfl⟩
  | froze _ hg => exact .inr ⟨_, hg, .inr trivial⟩
  | asked _ _ hg => exact .inr ⟨_, hg, .inr trivial⟩
  | thawed _ hg | closed hg => exact .inr ⟨_, hg, .inr trivial⟩
  | began | turned _ | read _ _ => exact .inl rfl

/-- **How rows are read**: of one node's machine, by the flow's next step. -/
theorem step_copying (hnot : ¬ s.phase.HasRows) {p : Fin n} {rows : List (Bytes × Bytes)}
    (hcopy : s'.phase = .copying p rows) :
    x = .proceed ∧ s.phase.source = some p ∧ s' = { s with phase := .copying p rows } ∧
      (s.job.rows (s.machine p) = .ok rows ∨ s.job.rowsThrough (s.machine p) = .ok rows) := by
  cases moves hs with
  | group _ => exact absurd (show s.phase.HasRows by rw [show s.phase = _ from hcopy]; trivial) hnot
  | began | froze _ _ | thawed _ _ | closed _ => cases hcopy
  | asked _ hphase _ =>
    obtain rfl := hcopy
    exact absurd trivial hphase.2
  | turned hphase =>
    obtain rfl := hcopy
    rcases hphase with hphase | ⟨-, hphase, -⟩
    · exact absurd trivial hphase
    · exact absurd trivial hphase
  | read hsource hrows =>
    cases hcopy
    exact ⟨rfl, hsource, rfl, hrows⟩

end Source
end OxideDB.Shard
