import OxideDB.Raft.Runs
import OxideDB.Raft.Quiet
import OxideDB.Raft.Absorb
import OxideDB.Consensus.Locality

/-!
# A group as a replicated log

How a group of nodes, with its disks and its wire, stands for a `Ledger`.  A node's
log is its whole log, a leader's log is the log of its term, and every packet on the
wire reports something that happened: a candidacy, a ballot, a prefix of a leader's
log, an acknowledgement.
-/

namespace OxideDB.Raft

open Node

open Consensus (Ledger Chosen Sound Moves lastTerm)

variable {n : ℕ} {σ δ : Type} {cfg : Config n σ δ}

/-- The ledger of a group. -/
abbrev Log (n : ℕ) := Ledger (Fin n) LogEntry

/-- Whom a node has voted for in a term. -/
def votedIn (a : Log n) (p : Fin n) (T : ℕ) : Option (Fin n) := (a.ballot p T).map Prod.fst

theorem votedIn_grows {a b : Log n} (hg : a.Grows b) {p c : Fin n} {T : ℕ}
    (h : votedIn a p T = some c) : votedIn b p T = some c := by
  obtain ⟨x, hx, rfl⟩ := Option.map_eq_some_iff.1 h
  rw [votedIn, hg.ballot p T x hx]
  rfl

/-! ## Nodes -/

/-- A candidate: it stood with the log it has, every vote it counts is a ballot of its
term, and the term is not its own yet. -/
structure Standing (a : Log n) (p : Fin n) (nd : Node n σ δ) : Prop where
  cand : a.cand p nd.currentTerm = some nd.fullLog
  votes : ∀ v ∈ nd.votesReceived, votedIn a v nd.currentTerm = some p
  ahead : ∀ el, a.won nd.currentTerm = some el → el.leader ≠ p

/-- A leader: its log is its term's log and goes beyond the one it was elected with,
and what it believes its peers to hold, they have acknowledged. -/
structure Leading (a : Log n) (p : Fin n) (nd : Node n σ δ) : Prop where
  won : ∃ el, a.won nd.currentTerm = some el ∧ el.leader = p ∧
    el.log.length < nd.fullLog.length
  reign : a.reign nd.currentTerm = nd.fullLog
  acks : ∀ q k, nd.matchIndex q = some k → k ≤ a.ack q nd.currentTerm
  next : ∀ q k, q ≠ p → nd.nextIndex q = some k → k ≤ nd.fullLog.length + 1
  commit : a.commit nd.currentTerm ≤ nd.commitIndex

/-- A node's share of the ledger. -/
structure NodeRel (cfg : Config n σ δ) (a : Log n) (p : Fin n) (nd : Node n σ δ) : Prop where
  steady : nd.Steady cfg
  term : a.term p = nd.currentTerm
  log : a.log p = nd.fullLog
  chosen : Chosen a nd.currentTerm (nd.fullLog.take nd.commitIndex)
  vote : votedIn a p nd.currentTerm = nd.votedFor
  diskTerm : nd.storage.currentTerm ≤ nd.currentTerm
  diskVote : nd.storage.currentTerm = nd.currentTerm → nd.storage.votedFor = nd.votedFor
  candidate : nd.state = .candidate → Standing a p nd
  leader : nd.state = .leader → Leading a p nd
  self : nd.matchIndex p = none

/-- A disk that stands for the same share. -/
structure DiskRel (cfg : Config n σ δ) (a : Log n) (p : Fin n) (st : EngineRaftStorage n δ) : Prop where
  sane : st.Sane cfg
  term : a.term p = st.currentTerm
  log : a.log p = st.fullLog
  chosen : Chosen a st.currentTerm (st.fullLog.take st.reloaded)
  vote : votedIn a p st.currentTerm = st.votedFor

namespace NodeRel

variable {a b : Log n} {p q : Fin n} {nd : Node n σ δ}

/-- A step of another node does not disturb a node's share. -/
theorem other (h : NodeRel cfg a q nd) (hm : Moves LogEntry.term p a b) (hq : q ≠ p) :
    NodeRel cfg b q nd where
  steady := h.steady
  term := (hm.own.term q hq).trans h.term
  log := (hm.own.log q hq).trans h.log
  chosen := h.chosen.grows hm.grows
  vote := by rw [votedIn, hm.own.ballot q hq]; exact h.vote
  diskTerm := h.diskTerm
  diskVote := h.diskVote
  candidate hs := by
    obtain ⟨hc, hv, ha⟩ := h.candidate hs
    refine ⟨hm.grows.cand q _ _ hc, fun v hvr => votedIn_grows hm.grows (hv v hvr), ?_⟩
    intro el hel
    rcases hm.own.won _ el hel with hel | hl
    · exact ha el hel
    · exact fun h => hq (h.symm.trans hl)
  leader hs := by
    obtain ⟨⟨el, hw, hl, hlen⟩, hr, hk, hn, hc⟩ := h.leader hs
    have hne : el.leader ≠ p := fun h => hq (hl.symm.trans h)
    refine ⟨⟨el, hm.grows.won _ el hw, hl, hlen⟩, ?_, ?_, hn, ?_⟩
    · rw [hm.own.reign _ el hw hne]; exact hr
    · exact fun r k hr => le_trans (hk r k hr) (hm.grows.ack r _)
    · rw [hm.own.commit _ el hw hne]; exact hc
  self := h.self

/-- The disk of a node whose term is saved stands for the node's share. -/
theorem disk (h : NodeRel cfg a p nd) (hsaved : nd.storage.currentTerm = nd.currentTerm) :
    DiskRel cfg a p nd.storage where
  sane := h.steady.disk_sane
  term := h.term.trans hsaved.symm
  log := h.log.trans h.steady.disk_fullLog.symm
  chosen := by
    rw [hsaved, h.steady.disk_fullLog]
    refine h.chosen.of_prefix (List.take_prefix_take_left ?_)
    exact max_le h.steady.diskCommit
      (h.steady.diskBase.trans_le (le_trans h.steady.base_le h.steady.applied_le))
  vote := by rw [hsaved, h.diskVote hsaved]; exact h.vote

end NodeRel

/-- A restart from such a disk is a node with that share. -/
theorem DiskRel.load {a : Log n} {p : Fin n} {st : EngineRaftStorage n δ}
    (h : DiskRel cfg a p st) : NodeRel cfg a p (loadFromStorage cfg p st) := by
  obtain ⟨hsteady, hfull, hcommit, -, -⟩ := loadFromStorage_steady cfg p h.sane
  obtain ⟨hstate, hterm, hvote, hdisk, hmatch⟩ := loadFromStorage_quiet cfg p st
  have hdt : (loadFromStorage cfg p st).storage.currentTerm = st.currentTerm :=
    congrArg Prod.fst hdisk
  have hdv : (loadFromStorage cfg p st).storage.votedFor = st.votedFor :=
    congrArg Prod.snd hdisk
  have hterm : (loadFromStorage cfg p st).currentTerm = st.currentTerm := hterm
  have hvote : (loadFromStorage cfg p st).votedFor = st.votedFor := hvote
  refine ⟨hsteady, ?_, ?_, ?_, ?_, ?_, ?_, ?_, ?_, ?_⟩
  · rw [hterm]; exact h.term
  · rw [hfull]; exact h.log
  · rw [hterm, hfull, hcommit]; exact h.chosen
  · rw [hterm, hvote]; exact h.vote
  · rw [hterm, hdt]
  · intro _; rw [hdv, hvote]
  · intro hs; rw [hstate] at hs; cases hs
  · intro hs; rw [hstate] at hs; cases hs
  · rw [hmatch]

/-! ## Packets -/

/-- A replication request, and the log `m` its leader had when it was sent. -/
structure Sent (a : Log n) (r : AppendEntriesRequest n) (m : List LogEntry) : Prop where
  reign : m <+: a.reign r.term
  numbered : Numbered 0 m
  prev_le : r.prevLogIndex ≤ m.length
  entries : r.entries = m.drop r.prevLogIndex
  prevTerm : r.prevLogTerm = lastTerm LogEntry.term (m.take r.prevLogIndex)
  commit_le : r.leaderCommit ≤ m.length
  chosen : Chosen a r.term (m.take r.leaderCommit)
  /-- A leader has an entry of its own term before it sends anything. -/
  ownTerm : ∃ e ∈ m, e.term = r.term

/-- A snapshot on its way: a chosen prefix of its leader's log. -/
structure Shipped (cfg : Config n σ δ) (a : Log n) (r : InstallSnapshotRequest n δ) : Prop where
  sane : r.snapshot.Sane cfg
  reign : r.snapshot.history <+: a.reign r.term
  chosen : Chosen a r.term r.snapshot.history

/-- What a packet reports. -/
def BodyRel (cfg : Config n σ δ) (a : Log n) (src dst : Fin n) : Body n δ → Prop
  | .voteRequest r => r.candidateId = src ∧ ∃ l, a.cand src r.term = some l ∧
      r.lastLogIndex = l.length ∧ r.lastLogTerm = lastTerm LogEntry.term l
  | .voteResponse r => r.voteGranted = true → votedIn a src r.term = some dst
  | .appendRequest _ r => ∃ m, Sent a r m
  | .appendResponse _ r => r.success = true → r.matchIndex ≤ a.ack src r.term ∧
      ∃ el, a.won r.term = some el ∧ el.log.length < r.matchIndex
  | .snapshotRequest _ r => Shipped cfg a r
  | .snapshotResponse _ index r => r.success = true → index ≤ a.ack src r.term

structure PacketRel (cfg : Config n σ δ) (a : Log n) (x : Packet n δ) : Prop where
  ne : x.src ≠ x.dst
  body : BodyRel cfg a x.src x.dst x.body

section

variable {a b : Log n} (hg : a.Grows b)
include hg

theorem Sent.grows {r : AppendEntriesRequest n} {m : List LogEntry} (h : Sent a r m) : Sent b r m :=
  { h with
    reign := h.reign.trans (hg.reign r.term)
    chosen := h.chosen.grows hg }

theorem Shipped.grows {r : InstallSnapshotRequest n δ} (h : Shipped cfg a r) : Shipped cfg b r :=
  ⟨h.sane, h.reign.trans (hg.reign r.term), h.chosen.grows hg⟩

/-- What a packet reports goes on being true. -/
theorem PacketRel.grows {x : Packet n δ} (h : PacketRel cfg a x) : PacketRel cfg b x := by
  refine ⟨h.ne, ?_⟩
  have hb := h.body
  rcases x with ⟨src, dst, body⟩
  cases body with
  | voteRequest r =>
    obtain ⟨hid, l, hl, hlen, hterm⟩ := hb
    exact ⟨hid, l, hg.cand src r.term l hl, hlen, hterm⟩
  | voteResponse r => exact fun hr => votedIn_grows hg (hb hr)
  | appendRequest read r =>
    obtain ⟨m, hm⟩ := hb
    exact ⟨m, hm.grows hg⟩
  | appendResponse read r =>
    intro hr
    obtain ⟨hack, el, hel, hlen⟩ := hb hr
    exact ⟨le_trans hack (hg.ack src r.term), el, hg.won r.term el hel, hlen⟩
  | snapshotRequest read r => exact Shipped.grows hg hb
  | snapshotResponse read index r => exact fun hr => le_trans (hb hr) (hg.ack src r.term)

end

/-- A group stands for a ledger. -/
structure Rel (cfg : Config n σ δ) (a : Log n) (g : RaftCluster n σ δ) : Prop where
  sound : Sound LogEntry.term a
  nodes : ∀ p, NodeRel cfg a p (g.nodes p)
  wire : ∀ x ∈ g.wire, PacketRel cfg a x
  jobs : ∀ job ∈ g.jobs, job.peer ≠ job.node

/-! ## A step in progress -/

/-- A crash here comes back as a node with a share of some later ledger, provided the
disk has the term memory had. -/
def Crashable (cfg : Config n σ δ) (a₀ : Log n) (p : Fin n) (cp : Checkpoint n δ) : Prop :=
  cp.storage.currentTerm = cp.currentTerm →
    ∃ b, Moves LogEntry.term p a₀ b ∧ DiskRel cfg b p cp.storage

/-- `p` is in the middle of a step that began at `a₀` and stands at `a` now. -/
structure Progress (cfg : Config n σ δ) (a₀ : Log n) (p : Fin n) (a : Log n)
    (nd : Node n σ δ) : Prop where
  moves : Moves LogEntry.term p a₀ a
  node : NodeRel cfg a p nd
  crash : ∀ cp ∈ nd.checkpoints, Crashable cfg a₀ p cp

/-- `p` may come to hold the log `l`, with the first `c` entries committed, without
leaving its term. -/
def CanHold (a : Log n) (p : Fin n) (l : List LogEntry) (c : ℕ) : Prop :=
  ∃ b, Moves LogEntry.term p a b ∧ b.term p = a.term p ∧
    votedIn b p (a.term p) = votedIn a p (a.term p) ∧ b.log p = l ∧
    Chosen b (a.term p) (l.take c)

namespace Progress

variable {a₀ a : Log n} {p : Fin n} {nd nd' : Node n σ δ}

theorem begin (hs : Sound LogEntry.term a) (h : NodeRel cfg a p nd) :
    Progress cfg a p a nd.begin where
  moves := .refl hs p
  node := { h with
    steady := h.steady.sameLog (.begin nd)
    candidate := fun hs => { h.candidate hs with }
    leader := fun hs => { h.leader hs with } }
  crash cp hcp hsaved := by
    rw [List.mem_singleton.1 hcp] at hsaved ⊢
    exact ⟨a, .refl hs p, h.disk hsaved⟩

variable {S : List LogEntry → ℕ → Prop} (h : Progress cfg a₀ p a nd)
include h

/-- The checkpoints of a block of the log's half. -/
theorem crashable (hS : ∀ l c, S l c → CanHold a p l c) {cp : Checkpoint n δ}
    (hq : cp ∈ nd.checkpoints ∨
      (cp.storage.loadMeta = nd.storage.loadMeta ∧ cp.currentTerm = nd.currentTerm))
    (hl : cp ∈ nd.checkpoints ∨ ∃ l c, S l c ∧ Saves cfg cp l c) : Crashable cfg a₀ p cp := by
  rcases hl with hcp | ⟨l, c, hlc, hsave⟩
  · exact h.crash cp hcp
  rcases hq with hcp | ⟨hdisk, hterm⟩
  · exact h.crash cp hcp
  intro hsaved
  obtain ⟨b, hm, hbt, hbv, hbl, hbc⟩ := hS l c hlc
  have hdt : cp.storage.currentTerm = nd.storage.currentTerm := congrArg Prod.fst hdisk
  have hdv : cp.storage.votedFor = nd.storage.votedFor := congrArg Prod.snd hdisk
  have heq : nd.storage.currentTerm = nd.currentTerm := by rw [← hdt, hsaved, hterm]
  have hat : cp.storage.currentTerm = a.term p := by rw [hsaved, hterm, h.node.term]
  refine ⟨b, h.moves.trans hm, hsave.sane, ?_, ?_, ?_, ?_⟩
  · rw [hbt, hat]
  · rw [hbl, hsave.fullLog]
  · rw [hat, hsave.fullLog]
    exact hbc.of_prefix (List.take_prefix_take_left (max_le hsave.commit_le hsave.base_le))
  · rw [hat, hbv, hdv, h.node.diskVote heq, ← h.node.vote, h.node.term]

/-- A follower that goes through a block of the log's half. -/
theorem follow (hf : nd.state = .follower) (hq : nd.Quiet nd') (hl : Node.Leads cfg S nd nd')
    (hS : ∀ l c, S l c → CanHold a p l c) :
    ∃ b, Moves LogEntry.term p a b ∧ Progress cfg a₀ p b nd' := by
  obtain ⟨b, hm, hbt, hbv, hbl, hbc⟩ := hS _ _ hl.holds
  have hdt : nd'.storage.currentTerm = nd.storage.currentTerm := congrArg Prod.fst hq.disk
  have hdv : nd'.storage.votedFor = nd.storage.votedFor := congrArg Prod.snd hq.disk
  rw [h.node.term] at hbt hbv hbc
  refine ⟨b, hm, h.moves.trans hm, ⟨hl.steady, ?_, hbl, ?_, ?_, ?_, ?_, ?_, ?_, ?_⟩,
    fun cp hcp => h.crashable hS (hq.checkpoints cp hcp) (hl.onTheWay cp hcp)⟩
  · rw [hbt, hq.currentTerm]
  · rw [hq.currentTerm]; exact hbc
  · rw [hq.currentTerm, hq.votedFor, hbv]; exact h.node.vote
  · rw [hdt, hq.currentTerm]; exact h.node.diskTerm
  · rw [hdt, hdv, hq.currentTerm, hq.votedFor]; exact h.node.diskVote
  · intro hs; rw [hq.state, hf] at hs; cases hs
  · intro hs; rw [hq.state, hf] at hs; cases hs
  · rw [hq.matchIndex]; exact h.node.self

end Progress

end OxideDB.Raft
