import OxideDB.Raft.Life
import OxideDB.Raft.Quiet

/-!
# What a step of a node is made of

A step takes up a term or a role, saves the term and the vote, puts an entry on the log, commits,
absorbs what a leader sends or gives its state up for a snapshot.  A property that each of these
pieces keeps, every step keeps, and every life.
-/

namespace OxideDB.Raft

open Node

variable {n : ℕ} {σ δ : Type} {cfg : Config n σ δ} {P : LogEntry → Prop}

/-- Every entry of a snapshot meets `P`. -/
def Snapshot.Holds (P : LogEntry → Prop) (s : Snapshot δ) : Prop := ∀ e ∈ s.history, P e

/-- What a node may be asked without an entry coming in that does not meet `P`. -/
def Input.Holds (P : LogEntry → Prop) : Input n δ → Prop
  | .appendEntries r => ∀ e ∈ r.entries, P e
  | .installSnapshot r => r.snapshot.Holds P
  | .proposeCommand command => ∀ t i, P ⟨t, i, command⟩
  | _ => True

theorem Input.holds_of_forall (h : ∀ e, P e) (input : Input n δ) : input.Holds P := by
  cases input with
  | appendEntries r => exact fun e _ => h e
  | installSnapshot r => exact fun e _ => h e
  | proposeCommand command => exact fun t i => h _
  | _ => trivial

/-- The input is about the freeze of writes. -/
def Input.Freezes : Input n δ → Prop
  | .freezeWrites _ | .resumeWrites => True
  | _ => False

/-- The input is a leader's, with a part of its log. -/
def Input.Feeds : Input n δ → Prop
  | .appendEntries _ | .installSnapshot _ => True
  | _ => False

variable {input : Input n δ} {r : InstallSnapshotRequest n δ}

namespace Node

variable {I : Node n σ δ → Prop} {nd nd' : Node n σ δ}

/-- Nothing moves but the role, the term and the vote, and what goes with them: to a later term,
or in the same one from no vote to a vote. -/
structure Turns (nd nd' : Node n σ δ) : Prop where
  log : nd'.log = nd.log := by rfl
  machine : nd'.machine = nd.machine := by rfl
  commitIndex : nd'.commitIndex = nd.commitIndex := by rfl
  lastApplied : nd'.lastApplied = nd.lastApplied := by rfl
  lastIncludedIndex : nd'.lastIncludedIndex = nd.lastIncludedIndex := by rfl
  lastIncludedTerm : nd'.lastIncludedTerm = nd.lastIncludedTerm := by rfl
  applyResults : nd'.applyResults = nd.applyResults := by rfl
  writesFrozen : nd'.writesFrozen = nd.writesFrozen := by rfl
  storage : nd'.storage = nd.storage := by rfl
  checkpoints : nd'.checkpoints = nd.checkpoints := by rfl
  ballot : nd.currentTerm < nd'.currentTerm ∨ nd.currentTerm = nd'.currentTerm ∧
    (nd.votedFor = none ∨ nd.votedFor = nd'.votedFor) := by exact .inr ⟨rfl, .inr rfl⟩

/-- What elections, and the proposals of a leader, are made of keeps `I`, as long as the new
entries meet `P`. -/
structure Keeps (cfg : Config n σ δ) (P : LogEntry → Prop) (I : Node n σ δ → Prop) : Prop where
  turns {nd nd' : Node n σ δ} (h : I nd) (ht : nd.Turns nd') : I nd'
  saveMeta {nd : Node n σ δ} (h : I nd) : I nd.saveMeta
  append {nd : Node n σ δ} (h : I nd) {command : Bytes}
    (hp : P ⟨nd.currentTerm, nd.lastLogIndex + 1, command⟩) :
    I (nd.append ⟨nd.currentTerm, nd.lastLogIndex + 1, command⟩)
  commitTo {nd : Node n σ δ} (h : I nd) {i : ℕ} {e : LogEntry} (hlt : nd.commitIndex < i)
    (he : nd.entryAt i = some e) : I (nd.commitTo cfg i)

namespace Keeps

variable (K : Keeps cfg P I)
include K

section

variable (h : I nd)
include h

theorem updateCommitIndex : I (nd.updateCommitIndex cfg) := by
  rcases updateCommitIndex_moves cfg nd with heq | ⟨-, i, e, -, hlt, he, -, heq⟩ <;> rw [heq]
  · exact h
  · exact K.commitTo h hlt he

theorem checkVoteCount (hnoop : ∀ t i, P ⟨t, i, noopCommand⟩) (me : Fin n) :
    I (nd.checkVoteCount cfg me) := by
  unfold Node.checkVoteCount
  split
  · exact h
  split
  · refine K.updateCommitIndex (K.append (K.turns h ?_) (hnoop _ _))
    exact { }
  · exact h

theorem startElection (hnoop : ∀ t i, P ⟨t, i, noopCommand⟩) (me : Fin n) :
    I (nd.startElection cfg me) := by
  unfold Node.startElection
  split
  · exact h
  split
  · exact h
  · refine K.checkVoteCount (K.saveMeta (K.turns h ?_)) hnoop me
    exact { ballot := .inl (Nat.lt_succ_self _) }

theorem requestVote (r : RequestVoteRequest n) : I (nd.requestVote r).1 := by
  have hraised : I (nd.raiseTerm r.term) := by
    unfold raiseTerm
    split
    · rename_i hlt
      exact K.saveMeta (K.turns h { ballot := .inl hlt })
    · exact h
  rcases nd.requestVote_cases r with heq | ⟨-, hvote, -, heq⟩
  · rw [heq]; exact hraised
  · rw [heq]
    exact K.saveMeta (K.turns hraised { ballot := .inr ⟨rfl, hvote⟩ })

theorem requestVoteReply (hnoop : ∀ t i, P ⟨t, i, noopCommand⟩) (me peer : Fin n)
    (r : RequestVoteResponse) : I (nd.requestVoteReply cfg me peer r) := by
  unfold Node.requestVoteReply
  split
  · rename_i hlt
    exact K.turns h { ballot := .inl hlt }
  split
  · exact h
  split
  · exact K.checkVoteCount (K.turns h { }) hnoop me
  · exact h

theorem replicateReply (peer : Fin n) (term index : ℕ) (success : Bool) :
    I (nd.replicateReply cfg peer term success index).1 := by
  unfold Node.replicateReply
  split
  · rename_i hlt
    exact K.turns h { ballot := .inl hlt }
  split
  · exact h
  split
  · exact K.updateCommitIndex (K.turns h { })
  · exact K.turns h { }

theorem saveMetaIf (changed : Bool) : I (nd.saveMetaIf changed) := by
  unfold Node.saveMetaIf
  split
  · exact K.saveMeta h
  · exact h

theorem adoptTerm (term : ℕ) : I (nd.adoptTerm term) := by
  unfold Node.adoptTerm
  split
  · rename_i hlt
    exact K.turns h { ballot := .inl hlt }
  · exact h

theorem followLeader (leader : Fin n) : I (nd.followLeader leader) := by
  unfold Node.followLeader
  dsimp only
  split <;> exact K.turns h { }

/-- A follower's step, if what it absorbs and the commits it follows keep `I`. -/
theorem appendEntries_of {r : AppendEntriesRequest n}
    (habsorb : ∀ nd, I nd → nd.prevMatches r.prevLogIndex r.prevLogTerm = true →
      I (r.entries.foldl absorbEntry nd))
    (hfollow : ∀ nd i, I nd → nd.commitIndex < i → I (nd.commitTo cfg (min i nd.lastLogIndex))) :
    I (nd.appendEntries cfg r).1 := by
  have hadopted := K.adoptTerm h r.term
  have hfollows := K.followLeader hadopted r.leaderId
  unfold appendEntries
  dsimp only
  split
  · exact K.saveMetaIf hadopted _
  split
  · rename_i hprev
    have habsorbed := K.saveMetaIf (habsorb _ hfollows hprev) (decide (nd.currentTerm < r.term))
    simp only [followCommit]
    split
    · rename_i hlt
      exact hfollow _ _ habsorbed hlt
    · exact habsorbed
  · exact K.saveMetaIf hfollows _

theorem installSnapshot_of (hreplace : ∀ nd, I nd → nd.lastApplied < r.snapshot.index →
    I (nd.replaceState cfg r.snapshot)) : I (nd.installSnapshot cfg r).1 := by
  have hadopted := K.adoptTerm h r.term
  have hfollows := K.saveMetaIf (K.followLeader hadopted r.leaderId)
    (decide (nd.currentTerm < r.term))
  unfold installSnapshot
  dsimp only
  split
  · exact K.saveMetaIf hadopted _
  split
  · exact hfollows
  · rename_i hnew
    exact hreplace _ hfollows (not_le.1 hnew)

end

/-- **The steps that are not a leader's to its follower** keep `I`, if those that freeze do. -/
theorem handle_own (hb : I nd.begin) (hnoop : ∀ t i, P ⟨t, i, noopCommand⟩) (me : Fin n)
    (hin : input.Holds P) (hfreeze : input.Freezes → I (nd.handle cfg me input).1)
    (hfeed : ¬input.Feeds) : I (nd.handle cfg me input).1 := by
  cases input with
  | startElection => exact K.startElection hb hnoop me
  | requestVote r => exact K.requestVote hb r
  | requestVoteReply peer r => exact K.requestVoteReply hb hnoop me peer r
  | appendEntriesReply peer r => exact K.replicateReply hb peer _ _ _
  | installSnapshotReply peer index r => exact K.replicateReply hb peer _ _ _
  | proposeCommand command =>
    simp only [handle, proposeCommand]
    split
    · exact hb
    · exact K.updateCommitIndex (K.append hb (hin _ _))
  | confirmRead term acks =>
    simp only [handle, confirmRead]
    split
    · exact hb
    split
    · exact hb
    · exact K.updateCommitIndex hb
  | shutdown => exact K.turns hb { }
  | freezeWrites _ | resumeWrites => exact hfreeze trivial
  | appendEntries _ | installSnapshot _ => exact absurd trivial hfeed

end Keeps

/-- What following a leader is made of keeps `I` as well, if the leader's entries meet `P`. -/
structure KeepsAll (cfg : Config n σ δ) (P : LogEntry → Prop) (I : Node n σ δ → Prop) : Prop extends
    Keeps cfg P I where
  absorbEntry {nd : Node n σ δ} (h : I nd) {e : LogEntry} (he : P e) : I (nd.absorbEntry e)
  follow {nd : Node n σ δ} (h : I nd) (i : ℕ) : I (nd.commitTo cfg i)
  replaceState {nd : Node n σ δ} (h : I nd) {s : Snapshot δ} (hs : s.Holds P)
    (hnew : nd.lastApplied < s.index) : I (nd.replaceState cfg s)

namespace KeepsAll

variable (K : KeepsAll cfg P I)
include K

theorem absorbEntries (h : I nd) {es : List LogEntry} (hes : ∀ e ∈ es, P e) :
    I (es.foldl Node.absorbEntry nd) := by
  induction es generalizing nd with
  | nil => exact h
  | cons e es ih =>
    exact ih (K.absorbEntry h (hes e List.mem_cons_self)) fun x hx =>
      hes x (List.mem_cons_of_mem _ hx)

theorem appendEntries (h : I nd) {r : AppendEntriesRequest n} (hr : ∀ e ∈ r.entries, P e) :
    I (nd.appendEntries cfg r).1 :=
  K.appendEntries_of h (fun _ h _ => K.absorbEntries h hr) fun _ _ h _ => K.follow h _

theorem installSnapshot (h : I nd) (hr : r.snapshot.Holds P) : I (nd.installSnapshot cfg r).1 :=
  K.installSnapshot_of h fun _ h hnew => K.replaceState h hr hnew

/-- **Every step keeps `I`**, if those that freeze do. -/
theorem handle (hb : I nd.begin) (hnoop : ∀ t i, P ⟨t, i, noopCommand⟩) (me : Fin n)
    (hin : input.Holds P) (hfreeze : input.Freezes → I (nd.handle cfg me input).1) :
    I (nd.handle cfg me input).1 := by
  by_cases hfeed : input.Feeds
  · cases input with
    | appendEntries r => exact K.appendEntries hb hin
    | installSnapshot r => exact K.installSnapshot hb hin
    | _ => exact hfeed.elim
  · exact K.handle_own hb hnoop me hin hfreeze hfeed

end KeepsAll
end Node

end OxideDB.Raft
