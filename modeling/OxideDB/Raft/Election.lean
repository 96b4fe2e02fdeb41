import OxideDB.Raft.Runs
import OxideDB.Raft.Quiet
import OxideDB.Consensus.Quorum

/-!
# Election safety

A node that granted a vote in a term has that vote on disk before it answers, so it
never grants a second one there, whatever crashes in between.  The ghost `Votes`
keeps every vote that was ever granted; `NodeOk` ties a node to it.  A leader is
backed by a majority of votes of its own term as long as every vote it counts is of
that term, and that is the one thing `_request_vote` does not look at: a vote that
arrives late is counted for whatever term the candidate has reached by then.
-/

namespace OxideDB.Raft.Election

open List RaftCluster Option Function Node

variable {r : RequestVoteResponse} {T : ℕ}
variable {n : ℕ} {σ δ : Type} {cfg : Config n σ δ}

/-! ## Votes -/

/-- Whom each node has voted for in each term, ever. -/
abbrev Votes (n : ℕ) := Fin n → ℕ → Option (Fin n)

/-- Nothing that was granted is forgotten. -/
def Extends (votes votes' : Votes n) : Prop :=
  ∀ v T c, votes v T = some c → votes' v T = some c

def grant (votes : Votes n) (p : Fin n) (T : ℕ) (c : Fin n) : Votes n :=
  Function.update votes p (Function.update (votes p) T (some c))

theorem grant_self (votes : Votes n) (p : Fin n) (T : ℕ) (c : Fin n) :
    grant votes p T c p T = some c := by
  simp [grant]

variable {a : Action n} {st : EngineRaftStorage n δ} {p c peer : Fin n} {es : List (Event n)}
  {x : Packet n δ} {votes votes' : Votes n}

theorem grant_cases {v d : Fin n} {U : ℕ} (h : grant votes p T c v U = some d) :
    (v = p ∧ U = T ∧ d = c) ∨ votes v U = some d := by
  unfold grant at h
  by_cases hv : v = p
  · subst hv
    rw [update_self] at h
    by_cases hU : U = T
    · subst hU
      rw [update_self] at h
      exact .inl ⟨rfl, rfl, (some.inj h).symm⟩
    · rw [update_of_ne hU] at h
      exact .inr h
  · rw [update_of_ne hv] at h
    exact .inr h

theorem grant_extends (h : ∀ d, votes p T = some d → d = c) :
    Extends votes (grant votes p T c) := by
  intro v U d hd
  unfold grant
  by_cases hv : v = p
  · subst hv
    rw [update_self]
    by_cases hU : U = T
    · subst hU
      rw [update_self, h d hd]
    · rwa [update_of_ne hU]
  · rwa [update_of_ne hv]

/-- A majority voted for `p` in term `T`. -/
def Elected (votes : Votes n) (T : ℕ) (p : Fin n) : Prop :=
  ∃ Q : Finset (Fin n), Consensus.Majority Q ∧ ∀ v ∈ Q, votes v T = some p

theorem Elected.mono (he : Extends votes votes') (h : Elected votes T p) : Elected votes' T p := by
  obtain ⟨Q, hQ, hv⟩ := h
  exact ⟨Q, hQ, fun v hvQ => he v T p (hv v hvQ)⟩

/-- Two nodes elected in one term have a voter in common, so they are one node. -/
theorem Elected.unique {q : Fin n} (hp : Elected votes T p) (hq : Elected votes T q) : p = q := by
  obtain ⟨Q, hQ, hvp⟩ := hp
  obtain ⟨R, hR, hvq⟩ := hq
  obtain ⟨v, hvQ, hvR⟩ := hQ.inter hR
  exact some.inj ((hvp v hvQ).symm.trans (hvq v hvR))

/-! ## A node and its votes -/

/-- A disk with this term and vote remembers every vote `p` has granted: an older
term's cannot be granted again, and this term's is the one stored. -/
def Backed (votes : Votes n) (p : Fin n) (saved : ℕ × Option (Fin n)) : Prop :=
  ∀ T c, votes p T = some c → T < saved.1 ∨ (T = saved.1 ∧ saved.2 = some c)

theorem Backed.later {saved : ℕ × Option (Fin n)} (h : Backed votes p saved) (hT : saved.1 < T)
    (v : Option (Fin n)) : Backed votes p (T, v) := by
  intro U c hc
  rcases h U c hc with hlt | ⟨rfl, -⟩
  · exact .inl (lt_trans hlt hT)
  · exact .inl hT

/-- What the votes say about one node. -/
structure NodeOk (votes : Votes n) (p : Fin n) (nd : Node n σ δ) : Prop where
  disk : Backed votes p nd.storage.loadMeta
  /-- Memory is as the disk has it, or in a later term with no vote cast yet. -/
  memory : nd.storage.loadMeta = (nd.currentTerm, nd.votedFor) ∨
    (nd.storage.loadMeta.1 < nd.currentTerm ∧ nd.votedFor = none)
  candidate : nd.state = .candidate → ∀ v ∈ nd.votesReceived, votes v nd.currentTerm = some p
  leader : nd.state = .leader → Elected votes nd.currentTerm p

namespace NodeOk

variable {votes votes' : Votes n} {p : Fin n} {nd nd' : Node n σ δ}

section

variable (h : NodeOk votes p nd)
include h

theorem le_currentTerm : nd.storage.loadMeta.1 ≤ nd.currentTerm := by
  rcases h.memory with hm | ⟨hm, -⟩
  · rw [hm]
  · exact hm.le

/-- Votes of other nodes may come; a node's own may not change behind its back. -/
theorem mono (he : Extends votes votes') (hp : votes' p = votes p) :
    NodeOk votes' p nd where
  disk T c hc := h.disk T c (hp ▸ hc)
  memory := h.memory
  candidate hs v hv := he v _ p (h.candidate hs v hv)
  leader hs := (h.leader hs).mono he

theorem quiet (hq : nd.Quiet nd') : NodeOk votes p nd' where
  disk := by rw [hq.disk]; exact h.disk
  memory := by rw [hq.disk, hq.currentTerm, hq.votedFor]; exact h.memory
  candidate hs v hv := by
    rw [hq.state] at hs
    rw [hq.votesReceived] at hv
    rw [hq.currentTerm]
    exact h.candidate hs v hv
  leader hs := by
    rw [hq.state] at hs
    rw [hq.currentTerm]
    exact h.leader hs

theorem follows (hT : nd.currentTerm ≤ T) (hf : nd.Follows T nd') : NodeOk votes p nd' where
  disk := by
    rw [hf.disk]
    split
    · rename_i hlt
      exact h.disk.later (lt_of_le_of_lt h.le_currentTerm hlt) none
    · exact h.disk
  memory := by
    rw [hf.disk, hf.currentTerm, hf.votedFor]
    split
    · exact .inl rfl
    · have : nd.currentTerm = T := by omega
      rw [← this]
      exact h.memory
  candidate hs := by rw [hf.state] at hs; cases hs
  leader hs := by rw [hf.state] at hs; cases hs

theorem learns (hst : nd'.storage = nd.storage) (hlt : nd.currentTerm < nd'.currentTerm)
    (hv : nd'.votedFor = none) (hs : nd'.state = .follower) : NodeOk votes p nd' where
  disk := by rw [hst]; exact h.disk
  memory := .inr ⟨by rw [hst]; exact lt_of_le_of_lt h.le_currentTerm hlt, hv⟩
  candidate hc := by rw [hs] at hc; cases hc
  leader hc := by rw [hs] at hc; cases hc

end

theorem load (cfg : Config n σ δ) (h : Backed votes p st.loadMeta) :
    NodeOk votes p (loadFromStorage cfg p st) := by
  obtain ⟨hs, ht, hv, hst, -⟩ := loadFromStorage_quiet cfg p st
  refine ⟨by rw [hst]; exact h, .inl (by rw [hst, ht, hv]), fun hc => ?_, fun hc => ?_⟩
  · rw [hs] at hc; cases hc
  · rw [hs] at hc; cases hc

/-- The vote of this term is the one in memory. -/
theorem vote_eq (h : NodeOk votes p nd) (hc : votes p nd.currentTerm = some c) :
    nd.votedFor = some c := by
  rcases h.memory with hm | ⟨hm, -⟩
  · have := h.disk _ c hc
    rw [hm] at this
    rcases this with hlt | ⟨-, hv⟩
    · exact absurd hlt (lt_irrefl _)
    · exact hv
  · rcases h.disk _ c hc with hlt | ⟨heq, -⟩ <;> omega

end NodeOk

/-! ## The handlers -/

/-- How a step of `p` moves the votes: some of `p`'s own may be new, and a crash at
any of its writes finds a disk that backs the old ones. -/
structure Kept (votes : Votes n) (p : Fin n) (nd : Node n σ δ) (votes' : Votes n) : Prop where
  grows : Extends votes votes'
  others : ∀ q, q ≠ p → votes' q = votes q
  node : NodeOk votes' p nd
  checkpoints : ∀ cp ∈ nd.checkpoints, Backed votes p cp.storage.loadMeta

namespace Kept

variable {votes votes' : Votes n} {p : Fin n} {nd nd' : Node n σ δ}

theorem begin (h : NodeOk votes p nd) : Kept votes p nd.begin votes where
  grows _ _ _ h := h
  others _ _ := rfl
  node := h.quiet (.begin nd)
  checkpoints cp hcp := by rw [mem_singleton.1 hcp]; exact h.disk

/-- As long as no vote is granted, what the disk backs it goes on backing. -/
theorem quiet (h : Kept votes p nd votes') (hq : nd.Quiet nd') : Kept votes p nd' votes' where
  grows := h.grows
  others := h.others
  node := h.node.quiet hq
  checkpoints cp hcp := by
    rcases hq.checkpoints cp hcp with hcp | ⟨hm, -⟩
    · exact h.checkpoints cp hcp
    · rw [hm]
      exact fun T c hc => h.node.disk T c (h.grows p T c hc)

theorem follows (h : Kept votes p nd votes) (hT : nd.currentTerm ≤ T) (hf : nd.Follows T nd') :
    Kept votes p nd' votes where
  grows := h.grows
  others := h.others
  node := h.node.follows hT hf
  checkpoints cp hcp := by
    rcases hf.checkpoints cp hcp with hcp | hm | ⟨hlt, hm⟩
    · exact h.checkpoints cp hcp
    · rw [hm]; exact h.node.disk
    · rw [hm]; exact h.node.disk.later (lt_of_le_of_lt h.node.le_currentTerm hlt) none

theorem learns (h : Kept votes p nd votes) (hst : nd'.storage = nd.storage)
    (hlt : nd.currentTerm < nd'.currentTerm) (hv : nd'.votedFor = none)
    (hs : nd'.state = .follower) (hc : nd'.checkpoints = nd.checkpoints) :
    Kept votes p nd' votes where
  grows := h.grows
  others := h.others
  node := h.node.learns hst hlt hv hs
  checkpoints cp hcp := h.checkpoints cp (hc ▸ hcp)

/-- The count of a candidate whose votes are all of its own term. -/
theorem checkVoteCount (h : Kept votes p nd votes') :
    Kept votes p (nd.checkVoteCount cfg p) votes' := by
  unfold Node.checkVoteCount
  split
  · exact h
  rename_i hcand
  rw [not_not] at hcand
  split
  swap
  · exact h
  rename_i hmaj
  refine Kept.quiet ?_ (.appendNoopEntry _)
  refine ⟨h.grows, h.others, ⟨h.node.disk, h.node.memory, fun hs => ?_, fun _ => ?_⟩,
    h.checkpoints⟩
  · cases hs
  · refine ⟨nd.votesReceived, ?_, h.node.candidate hcand⟩
    rw [Consensus.Majority, Fintype.card_fin]
    exact hmaj

/-- A vote for itself, saved before anything is asked of the others. -/
theorem startElection (cfg : Config n σ δ) (h : Kept votes p nd votes) :
    ∃ votes', Kept votes p (nd.startElection cfg p) votes' := by
  unfold Node.startElection
  split
  · exact ⟨votes, h⟩
  split
  · exact ⟨votes, h⟩
  have hlt : nd.storage.loadMeta.1 < nd.currentTerm + 1 :=
    lt_of_le_of_lt h.node.le_currentTerm (Nat.lt_succ_self _)
  have hnone : ∀ d, votes p (nd.currentTerm + 1) = some d → d = p := by
    intro d hd
    rcases h.node.disk _ d hd with hlt' | ⟨heq, -⟩ <;> omega
  refine ⟨grant votes p (nd.currentTerm + 1) p, Kept.checkVoteCount ?_⟩
  refine ⟨grant_extends hnone, fun q hq => update_of_ne hq .., ⟨?_, ?_, ?_, ?_⟩, ?_⟩
  · intro T c hc
    rcases grant_cases hc with ⟨-, rfl, rfl⟩ | hc
    · exact .inr ⟨rfl, rfl⟩
    · exact h.node.disk.later hlt _ T c hc
  · exact .inl rfl
  · intro _ v hv
    rw [Finset.mem_singleton.1 hv]
    exact grant_self votes p _ p
  · intro hs; cases hs
  · intro cp hcp
    rcases mem_append.1 hcp with hcp | hcp
    · exact h.checkpoints cp hcp
    · rw [mem_singleton.1 hcp]
      exact h.node.disk.later hlt _

section

variable (h : Kept votes p nd votes)
include h

theorem raiseTerm (T : ℕ) : Kept votes p (nd.raiseTerm T) votes := by
  unfold Node.raiseTerm
  split
  swap
  · exact h
  rename_i hlt
  have hback : Backed votes p (T, none) :=
    h.node.disk.later (lt_of_le_of_lt h.node.le_currentTerm hlt) none
  refine ⟨h.grows, h.others, ⟨hback, .inl rfl, fun hs => ?_, fun hs => ?_⟩, fun cp hcp => ?_⟩
  · cases hs
  · cases hs
  rcases mem_append.1 hcp with hcp | hcp
  · exact h.checkpoints cp hcp
  · rw [mem_singleton.1 hcp]
    exact hback

/-- A vote, saved before it is answered.  The one already cast in this term, if there
is one, is for the same candidate. -/
theorem castVote (hc : nd.votedFor = none ∨ nd.votedFor = some c) :
    Kept votes p (saveMeta { nd with votedFor := some c })
      (grant votes p nd.currentTerm c) := by
  have hone : ∀ d, votes p nd.currentTerm = some d → d = c := by
    intro d hd
    have hv := h.node.vote_eq hd
    rcases hc with hc | hc
    · rw [hc] at hv; cases hv
    · rw [hc] at hv; exact (some.inj hv).symm
  have hback : Backed votes p (nd.currentTerm, some c) := by
    intro T d hd
    rcases h.node.disk T d hd with hlt | ⟨hT, -⟩
    · exact .inl (lt_of_lt_of_le hlt h.node.le_currentTerm)
    rcases Nat.eq_or_lt_of_le h.node.le_currentTerm with heq | hlt
    · have hT : T = nd.currentTerm := hT.trans heq
      subst hT
      exact .inr ⟨rfl, by rw [hone d hd]⟩
    · exact .inl (hT ▸ hlt)
  have hext := grant_extends hone
  refine ⟨hext, fun q hq => update_of_ne hq .., ⟨?_, .inl rfl, ?_, ?_⟩, ?_⟩
  · intro T d hd
    rcases grant_cases hd with ⟨-, rfl, rfl⟩ | hd
    · exact .inr ⟨rfl, rfl⟩
    · exact hback T d hd
  · exact fun hs v hv => hext v _ p (h.node.candidate hs v hv)
  · exact fun hs => (h.node.leader hs).mono hext
  · intro cp hcp
    rcases mem_append.1 hcp with hcp | hcp
    · exact h.checkpoints cp hcp
    · rw [mem_singleton.1 hcp]
      exact hback

theorem requestVote (r : RequestVoteRequest n) :
    ∃ votes', Kept votes p (nd.requestVote r).1 votes' ∧
      ((nd.requestVote r).2.voteGranted = true →
        votes' p (nd.requestVote r).2.term = some r.candidateId) := by
  have hr := h.raiseTerm r.term
  rcases nd.requestVote_cases r with heq | ⟨hterm, hvote, -, heq⟩
  · rw [heq]
    exact ⟨votes, hr, fun hf => absurd hf (by simp)⟩
  rw [heq]
  refine ⟨_, hr.castVote hvote, fun _ => ?_⟩
  rw [hterm]
  exact grant_self votes p r.term r.candidateId

/-- A candidate counts a vote of its own term. -/
theorem requestVoteReply (hr : r.voteGranted = true → votes peer r.term = some p)
    (htimely : nd.state = .candidate → r.voteGranted = true → r.term ≤ nd.currentTerm →
      r.term = nd.currentTerm) : Kept votes p (nd.requestVoteReply cfg p peer r) votes := by
  unfold Node.requestVoteReply
  split
  · rename_i hlt
    exact h.learns rfl hlt rfl rfl rfl
  rename_i hle
  split
  · exact h
  rename_i hcand
  rw [not_not] at hcand
  split
  swap
  · exact h
  rename_i hgrant
  have hterm := htimely hcand hgrant (by omega)
  refine Kept.checkVoteCount ⟨h.grows, h.others, ⟨h.node.disk, h.node.memory, ?_, ?_⟩,
    h.checkpoints⟩
  · intro _ v hv
    rcases Finset.mem_insert.1 hv with rfl | hv
    · rw [← hterm]; exact hr hgrant
    · exact h.node.candidate hcand v hv
  · intro hs
    rw [hcand] at hs
    cases hs

theorem appendEntries (r : AppendEntriesRequest n) :
    Kept votes p (nd.appendEntries cfg r).1 votes := by
  rcases Nat.lt_or_ge r.term nd.currentTerm with hlt | hge
  · rw [nd.appendEntries_stale r hlt]; exact h
  · exact h.follows hge (nd.appendEntries_follows r hge)

theorem installSnapshot (r : InstallSnapshotRequest n δ) :
    Kept votes p (nd.installSnapshot cfg r).1 votes := by
  rcases Nat.lt_or_ge r.term nd.currentTerm with hlt | hge
  · rw [nd.installSnapshot_stale r hlt]; exact h
  · exact h.follows hge (nd.installSnapshot_follows r hge)

theorem replicateReply (peer : Fin n) (term : ℕ) (success : Bool) (index : ℕ) :
    Kept votes p (nd.replicateReply cfg peer term success index).1 votes := by
  unfold Node.replicateReply
  split
  · rename_i hlt
    exact h.learns rfl hlt rfl rfl rfl
  split
  · exact h
  split
  · refine Kept.quiet ?_ (.updateCommitIndex _)
    exact ⟨h.grows, h.others, ⟨h.node.disk, h.node.memory, h.node.candidate, h.node.leader⟩,
      h.checkpoints⟩
  · exact ⟨h.grows, h.others, ⟨h.node.disk, h.node.memory, h.node.candidate, h.node.leader⟩,
      h.checkpoints⟩

end

/-- **A step of one node.**  Only `requestVoteReply` needs to know anything about its
input. -/
theorem handle (cfg : Config n σ δ) {input : Input n δ} (h : NodeOk votes p nd)
    (hin : ∀ peer r, input = .requestVoteReply peer r → r.voteGranted = true →
      votes peer r.term = some p)
    (htimely : ∀ peer r, input = .requestVoteReply peer r → nd.state = .candidate →
      r.voteGranted = true → r.term ≤ nd.currentTerm → r.term = nd.currentTerm) :
    ∃ votes', Kept votes p (nd.handle cfg p input).1 votes' ∧
      ∀ r response, input = .requestVote r → (nd.handle cfg p input).2 = .vote response →
        response.voteGranted = true → votes' p response.term = some r.candidateId := by
  have hb := Kept.begin h
  cases input with
  | startElection =>
    obtain ⟨votes', hk⟩ := hb.startElection cfg
    exact ⟨votes', hk, nofun⟩
  | requestVote r =>
    obtain ⟨votes', hk, hv⟩ := hb.requestVote r
    refine ⟨votes', hk, fun r' response hr hout => ?_⟩
    cases hr
    cases hout
    exact hv
  | requestVoteReply peer r =>
    exact ⟨votes, hb.requestVoteReply (hin peer r rfl) (htimely peer r rfl),
      nofun⟩
  | appendEntries r => exact ⟨votes, hb.appendEntries r, nofun⟩
  | appendEntriesReply peer r =>
    exact ⟨votes, hb.replicateReply peer _ _ _, nofun⟩
  | installSnapshot r => exact ⟨votes, hb.installSnapshot r, nofun⟩
  | installSnapshotReply peer index r =>
    exact ⟨votes, hb.replicateReply peer _ _ _, nofun⟩
  | proposeCommand command =>
    exact ⟨votes, hb.quiet (.proposeCommand _ _), nofun⟩
  | confirmRead term acks =>
    exact ⟨votes, hb.quiet (.confirmRead _ _ _), nofun⟩
  | freezeWrites reason =>
    exact ⟨votes, hb.quiet (.of_eq rfl rfl rfl rfl rfl rfl rfl rfl), nofun⟩
  | resumeWrites =>
    exact ⟨votes, hb.quiet (.of_eq rfl rfl rfl rfl rfl rfl rfl rfl), nofun⟩
  | shutdown =>
    refine ⟨votes, ⟨hb.grows, hb.others, ⟨hb.node.disk, hb.node.memory, ?_, ?_⟩,
      hb.checkpoints⟩, nofun⟩
    · intro hs; cases hs
    · intro hs; cases hs

end Kept

/-! ## The group -/

/-- A vote request names its sender; a vote on its way was granted. -/
def PacketOk (votes : Votes n) (x : Packet n δ) : Prop :=
  match x.body with
  | .voteRequest r => r.candidateId = x.src
  | .voteResponse r => r.voteGranted = true → votes x.src r.term = some x.dst
  | _ => True

theorem PacketOk.mono (he : Extends votes votes') (h : PacketOk votes x) : PacketOk votes' x := by
  unfold PacketOk at h ⊢
  split
  · rename_i r hr; rw [hr] at h; exact h
  · rename_i r hr; rw [hr] at h; exact fun hg => he _ _ _ (h hg)
  · trivial

/-- The group and the votes agree. -/
structure Accord (votes : Votes n) (g : RaftCluster n σ δ) : Prop where
  nodes : ∀ p, NodeOk votes p (g.nodes p)
  wire : ∀ x ∈ g.wire, PacketOk votes x

/-- A candidate that processes a granted vote is still in the term the vote was
granted in. -/
def TimelyVote (nd : Node n σ δ) : Input n δ → Prop
  | .requestVoteReply _ r => nd.state = .candidate → r.voteGranted = true →
      r.term ≤ nd.currentTerm → r.term = nd.currentTerm
  | _ => True

instance (nd : Node n σ δ) (input : Input n δ) : Decidable (TimelyVote nd input) := by
  induction input using Input.casesOn <;> dsimp only [TimelyVote] <;> infer_instance

/-- Every vote of the run is processed in its own term, or too late to count. -/
abbrev TimelyVotes : RaftCluster n σ δ → Event n → Prop := RaftCluster.OnInput TimelyVote

namespace Accord

variable {votes : Votes n} {g g' : RaftCluster n σ δ}

theorem init (cfg : Config n σ δ) : Accord (fun _ _ => none) (init cfg) where
  nodes p := NodeOk.load cfg nofun
  wire x hx := by cases hx

/-- A packet as the input it is: a vote that arrives was granted. -/
theorem packet_vote (h : Accord votes g) (hx : x ∈ g.wire)
    (hin : packetInput x = .requestVoteReply peer r) (hr : r.voteGranted = true) :
    votes peer r.term = some x.dst := by
  have hok := h.wire x hx
  rcases x with ⟨src, dst, body⟩
  cases body with
  | voteResponse r' => cases hin; exact hok hr
  | _ => cases hin

/-- An answer that is put on the wire is a vote just granted, or no vote. -/
theorem reply_ok {y : Packet n δ} (hy : PacketOk votes y) {out : Output}
    (hreply : packetReply y out = some x)
    (hv : ∀ r response, packetInput y = .requestVote r → out = .vote response →
      response.voteGranted = true → votes' y.dst response.term = some r.candidateId) :
    PacketOk votes' x := by
  rcases packetReply_cases hreply with
    ⟨r, response, hb, rfl, rfl⟩ | ⟨read, r, response, hb, rfl, rfl⟩ |
    ⟨read, r, response, hb, rfl, rfl⟩
  · have hsrc : r.candidateId = y.src := by rw [PacketOk, hb] at hy; exact hy
    intro hg
    rw [← hsrc]
    exact hv r response (by simp [packetInput, hb]) rfl hg
  · trivial
  · trivial

/-- A packet a node sends by itself carries no vote. -/
theorem emitted_ok (hx : RaftCluster.Emitted g a x) : PacketOk votes x := by
  cases hx with
  | vote hne hr =>
    unfold voteRequest at hr
    split at hr
    · cases hr
    split at hr
    · cases hr
    · cases hr; rfl
  | append _ _ _ _ _ => trivial
  | snapshot _ _ => trivial

section

variable {a : Action n} {p : Fin n} {input : Input n δ} (h : Accord votes g)
  (hin : g.inputOf a = some (p, input))
include h hin

theorem input_vote (peer : Fin n) (r : RequestVoteResponse) (hi : input = .requestVoteReply peer r)
    (hr : r.voteGranted = true) : votes peer r.term = some p := by
  rcases inputOf_origin hin with ⟨i, x, rfl, hx, rfl, rfl⟩ | ⟨-, hown⟩
  · exact h.packet_vote (mem_of_getElem? hx) hi hr
  · rw [hi] at hown; cases hown

theorem handled (ht : TimelyVote (g.nodes p) input) :
    ∃ votes', Extends votes votes' ∧
      Accord votes' ((g.settle a ((g.nodes p).handle cfg p input).2).setNode p
        ((g.nodes p).handle cfg p input).1) := by
  obtain ⟨votes', hk, hout⟩ := Kept.handle cfg (h.nodes p) (h.input_vote hin)
    fun peer r hi => by rw [hi] at ht; exact ht
  refine ⟨votes', hk.grows, fun q => ?_, fun x hx => ?_⟩
  · by_cases hq : q = p
    · subst hq
      simp only [setNode, update_self]
      exact hk.node
    · simp only [setNode, update_of_ne hq, settle_nodes]
      exact (h.nodes q).mono hk.grows (hk.others q hq)
  · rcases mem_handled_wire hin hx with hx | ⟨i, y, rfl, hy, hreply⟩
    · exact (h.wire x hx).mono hk.grows
    simp only [inputOf, hy, map_some, some.injEq,
      Prod.mk.injEq] at hin
    obtain ⟨rfl, rfl⟩ := hin
    exact reply_ok (h.wire y (mem_of_getElem? hy)) hreply hout

end

/-- A node comes back from a disk that backs its votes. -/
theorem restarted (h : Accord votes g) (hst : Backed votes p st.loadMeta) :
    Accord votes ((g.consume a).restart cfg p st) where
  nodes q := by
    by_cases hq : q = p
    · subst hq
      simp only [restart, update_self]
      exact NodeOk.load cfg hst
    · simp only [restart, update_of_ne hq, consume_nodes]
      exact h.nodes q
  wire x hx := h.wire x (mem_restart_wire hx)

/-- **Every step with timely votes keeps the group and the votes in accord.** -/
theorem step (h : Accord votes g) {e : Event n} (ht : TimelyVotes g e)
    (hs : g.step cfg e = some g') : ∃ votes', Extends votes votes' ∧ Accord votes' g' := by
  cases happens hs with
  | handled hin => exact h.handled hin (ht _ hin)
  | stood hb =>
    have hst := bystand_stands hb
    refine ⟨votes, fun _ _ _ h => h, fun p => by rw [hst.nodes]; exact h.nodes p,
      fun x hx => ?_⟩
    rcases hst.wire x hx with hx | hx
    · exact h.wire x hx
    · exact emitted_ok hx
  | crashed p =>
    exact ⟨votes, fun _ _ _ h => h, h.restarted (a := .startElection p) (h.nodes p).disk⟩
  | @crashedIn a j p input cp hin hcp =>
    have htv : TimelyVote (g.nodes p) input := ht _ hin
    obtain ⟨votes', hk, -⟩ := Kept.handle cfg (h.nodes p) (h.input_vote hin)
      fun peer r hi => by rw [hi] at htv; exact htv
    exact ⟨votes, fun _ _ _ h => h,
      h.restarted (hk.checkpoints cp (mem_of_getElem? hcp))⟩

/-- The votes and the group are in accord after every run with timely votes, and no
vote granted on the way is forgotten. -/
theorem run (h : Accord votes g) (ht : Along TimelyVotes cfg g es)
    (hr : run cfg g es = some g') : ∃ votes', Extends votes votes' ∧ Accord votes' g' := by
  refine ht.invariant (I := fun g' => ∃ votes', Extends votes votes' ∧ Accord votes' g') ?_
    ⟨votes, fun _ _ _ h => h, h⟩ hr
  rintro g₁ e g₂ hP ⟨votes₁, he, h₁⟩ hs
  obtain ⟨votes₂, he', h₂⟩ := h₁.step hP hs
  exact ⟨votes₂, fun v T c hc => he' v T c (he v T c hc), h₂⟩

end Accord

/-! ## Election safety -/

/-- In every part of the run, the leaders a term has at any two moments are the same
node. -/
def OneLeaderPerTerm (cfg : Config n σ δ) (es : List (Event n)) : Prop :=
  ∀ es₁ es₂ es₃ g₁ g₂, es₁ ++ es₂ ++ es₃ = es →
    run cfg (init cfg) es₁ = some g₁ →
    run cfg g₁ es₂ = some g₂ →
    ∀ p q, (g₁.nodes p).state = .leader → (g₂.nodes q).state = .leader →
      (g₁.nodes p).currentTerm = (g₂.nodes q).currentTerm → p = q

theorem oneLeaderPerTerm (ht : Along TimelyVotes cfg (init cfg) es) :
    OneLeaderPerTerm cfg es := by
  rintro es₁ es₂ es₃ g₁ g₂ rfl h₁ h₂ p q hp hq hterm
  have ht₁₂ := ht.left
  obtain ⟨votes₁, -, ha₁⟩ := (Accord.init cfg).run ht₁₂.left h₁
  obtain ⟨votes₂, he, ha₂⟩ := ha₁.run (ht₁₂.right h₁) h₂
  have hep := ((ha₁.nodes p).leader hp).mono he
  have heq := (ha₂.nodes q).leader hq
  rw [hterm] at hep
  exact hep.unique heq

/-- **Election safety.**  In a run with timely votes, whatever crashes it has, the
leaders a term has at any two moments are the same node. -/
theorem election_safety (cfg : Config n σ δ) (es₁ es₂ : List (Event n))
    (g₁ g₂ : RaftCluster n σ δ)
    (ht : Along TimelyVotes cfg (init cfg) (es₁ ++ es₂))
    (h₁ : run cfg (init cfg) es₁ = some g₁)
    (h₂ : run cfg g₁ es₂ = some g₂) (p q : Fin n)
    (hp : (g₁.nodes p).state = .leader) (hq : (g₂.nodes q).state = .leader)
    (hterm : (g₁.nodes p).currentTerm = (g₂.nodes q).currentTerm) : p = q := by
  exact oneLeaderPerTerm ht es₁ es₂ [] g₁ g₂ (append_nil _) h₁ h₂ p q hp hq hterm

/-- Node 1 votes for node 0 in term 1, but node 0 has started a second election by the
time the vote arrives; node 2 has won term 2 with node 1's vote meanwhile. -/
def lateVote : List (Event 3) :=
  [.act (.startElection 0), .act (.askVote 0 1), .act (.deliver 0), .act (.startElection 0),
    .act (.startElection 2), .act (.startElection 2), .act (.askVote 2 1), .act (.deliver 1),
    .act (.deliver 1), .act (.deliver 0)]

/-- The vote that node 1 granted in term 1 makes node 0 the leader of term 2, which
node 2 leads already. -/
theorem late_vote_elects_two :
    ∃ g, run (tapes 3 0) (init (tapes 3 0)) lateVote = some g ∧
      (g.nodes 0).state = .leader ∧ (g.nodes 2).state = .leader ∧
      (g.nodes 0).currentTerm = (g.nodes 2).currentTerm :=
  Transition.exists_of_any (by decide)

/-- Node 0 wins term 1 with node 1's vote. -/
def timelyVote : List (Event 3) :=
  [.act (.startElection 0), .act (.askVote 0 1), .act (.deliver 0), .act (.deliver 0)]

/-- Node 1 crashes, and is asked for its vote in term 1 again when it is back. -/
def secondAsk : List (Event 3) :=
  [.crash 1, .act (.startElection 2), .act (.askVote 2 1), .act (.deliver 0), .act (.deliver 0)]

theorem election_safety_timelyVote :
    ∃ g₁ g₂ p q, run (tapes 3 0) (init (tapes 3 0)) timelyVote = some g₁ ∧
      run (tapes 3 0) g₁ secondAsk = some g₂ ∧ (g₁.nodes p).state = .leader ∧
      (g₂.nodes q).state = .leader ∧ (g₁.nodes p).currentTerm = (g₂.nodes q).currentTerm ∧
      p = q := by
  obtain ⟨g₁, h₁, hp, h⟩ : ∃ g₁,
      run (tapes 3 0) (init (tapes 3 0)) timelyVote = some g₁ ∧
      (g₁.nodes 0).state = .leader ∧
      (run (tapes 3 0) g₁ secondAsk).any (fun g₂ => (g₂.nodes 0).state = .leader ∧
        (g₁.nodes 0).currentTerm = (g₂.nodes 0).currentTerm) = true :=
    Transition.exists_of_any (by decide)
  obtain ⟨g₂, h₂, hq, hterm⟩ := Transition.exists_of_any h
  exact ⟨g₁, g₂, 0, 0, h₁, h₂, hp, hq, hterm,
    election_safety (tapes 3 0) timelyVote secondAsk g₁ g₂ (by decide) h₁ h₂ 0 0 hp hq hterm⟩

end OxideDB.Raft.Election
