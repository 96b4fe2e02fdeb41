import OxideDB.Raft.Relation
import OxideDB.Raft.CommitRule

/-!
# The handlers as moves of the ledger

Each thing a node does, matched with what it is in the ledger: taking up a term is
an observation, granting a vote casts a ballot, winning an election crowns a leader
and extends its log with the no-op, a proposal extends it again, absorbing a leader's
entries or its snapshot accepts a prefix, and answering acknowledges it.  The match
holds at every write inside the step as well.
-/

namespace OxideDB.Raft

open Consensus (Ledger Election Chosen Sound Moves Majority UpToDate lastTerm Committed)

variable {l : List LogEntry} {T : ℕ}
variable {n : ℕ} {σ δ : Type} {cfg : Config n σ δ}
variable {peer : Fin n} {b : Log n}

namespace Progress

open List Option Function Node LogEntry

variable {a₀ a : Log n} {p : Fin n} {nd nd' : Node n σ δ}

/-! ## Terms -/

section

variable (h : Progress cfg a₀ p a nd)
include h

/-- `save_meta`, after which memory and disk agree on the term and the vote. -/
theorem saved (hm : Moves term p a b) (hnode : NodeRel cfg b p nd')
    (hterm : nd'.storage.currentTerm = nd'.currentTerm)
    (hcp : nd'.checkpoints = nd.checkpoints ++ [⟨nd'.storage, nd'.currentTerm, nd'.commitIndex⟩]) :
    Progress cfg a₀ p b nd' := by
  refine ⟨h.moves.trans hm, hnode, fun cp hmem => ?_⟩
  rw [hcp] at hmem
  rcases mem_append.1 hmem with hmem | hmem
  · exact h.crash cp hmem
  · rw [mem_singleton.1 hmem]
    exact fun _ => ⟨b, h.moves.trans hm, hnode.disk hterm⟩

theorem saveMeta : Progress cfg a₀ p a nd.saveMeta := by
  refine h.saved (.refl h.moves.sound p) ?_ rfl rfl
  exact { h.node with
    steady := h.node.steady.sameLog (.saveMeta nd)
    diskTerm := le_rfl
    diskVote := fun _ => rfl
    candidate := fun hs => { h.node.candidate hs with }
    leader := fun hs => { h.node.leader hs with } }

theorem observe (hT : nd.currentTerm ≤ T) : Moves term p a (a.enter p T) :=
  .step h.moves.sound (.observe p T (h.node.term.trans_le hT)) (.enter p T)

/-- A later term, learnt from a message: the node follows, and has no vote in it. -/
theorem learn (hlt : nd.currentTerm < T) (hsame : nd.SameLog nd') (hst : nd'.storage = nd.storage)
    (hcp : nd'.checkpoints = nd.checkpoints) (ht : nd'.currentTerm = T) (hv : nd'.votedFor = none)
    (hs : nd'.state = .follower) (hm : nd'.matchIndex = nd.matchIndex) :
    Progress cfg a₀ p (a.enter p T) nd' := by
  have hmove := h.observe hlt.le
  refine ⟨h.moves.trans hmove, ⟨h.node.steady.sameLog hsame, ?_, ?_, ?_, ?_, ?_, ?_, ?_,
    ?_, ?_⟩, fun cp hmem => h.crash cp (hcp ▸ hmem)⟩
  · rw [ht]; exact update_self ..
  · rw [hsame.fullLog_eq]; exact h.node.log
  · rw [ht, hsame.fullLog_eq, hsame.commitIndex]
    exact (h.node.chosen.grows hmove.grows).mono hlt.le
  · rw [ht, hv]
    show (a.ballot p T).map Prod.fst = none
    rw [h.moves.sound.shape.ballot_none (by rw [h.node.term]; exact hlt)]
    rfl
  · rw [hst, ht]; exact le_trans h.node.diskTerm hlt.le
  · intro heq
    have := h.node.diskTerm
    rw [hst, ht] at heq
    omega
  · intro hc; rw [hs] at hc; cases hc
  · intro hc; rw [hs] at hc; cases hc
  · rw [hm]; exact h.node.self

/-- A node that gives up whatever it was in this term. -/
theorem retire (hsame : nd.SameLog nd') (hst : nd'.storage = nd.storage)
    (hcp : nd'.checkpoints = nd.checkpoints) (ht : nd'.currentTerm = nd.currentTerm)
    (hv : nd'.votedFor = nd.votedFor) (hs : nd'.state = .follower)
    (hm : nd'.matchIndex = nd.matchIndex) : Progress cfg a₀ p a nd' := by
  refine ⟨h.moves, ⟨h.node.steady.sameLog hsame, ?_, ?_, ?_, ?_, ?_, ?_, ?_, ?_, ?_⟩,
    fun cp hmem => h.crash cp (hcp ▸ hmem)⟩
  · rw [ht]; exact h.node.term
  · rw [hsame.fullLog_eq]; exact h.node.log
  · rw [ht, hsame.fullLog_eq, hsame.commitIndex]; exact h.node.chosen
  · rw [ht, hv]; exact h.node.vote
  · rw [hst, ht]; exact h.node.diskTerm
  · rw [hst, ht, hv]; exact h.node.diskVote
  · intro hc; rw [hs] at hc; cases hc
  · intro hc; rw [hs] at hc; cases hc
  · rw [hm]; exact h.node.self

/-- How a replication request is taken up, in memory. -/
theorem adopt (hT : nd.currentTerm ≤ T) (leader : Fin n) :
    ∃ b, Moves term p a b ∧
      Progress cfg a₀ p b ((nd.adoptTerm T).followLeader leader) ∧
      nd.SameLog ((nd.adoptTerm T).followLeader leader) := by
  obtain ⟨hs, ht, hv, hst, hcp⟩ := adoptTerm_follows nd hT leader
  have hrest : nd.SameLog ((nd.adoptTerm T).followLeader leader) ∧
      ((nd.adoptTerm T).followLeader leader).matchIndex = nd.matchIndex := by
    unfold adoptTerm followLeader
    dsimp only
    split <;> split <;> exact ⟨by constructor <;> rfl, rfl⟩
  rcases Nat.eq_or_lt_of_le hT with heq | hlt
  · rw [if_neg (by omega)] at hv
    exact ⟨a, .refl h.moves.sound p, h.retire hrest.1 hst hcp (by rw [ht, heq]) hv hs hrest.2,
      hrest.1⟩
  · rw [if_pos hlt] at hv
    exact ⟨_, h.observe hlt.le, h.learn hlt hrest.1 hst hcp ht hv hs hrest.2, hrest.1⟩

theorem saveMetaIf (changed : Bool) : Progress cfg a₀ p a (nd.saveMetaIf changed) := by
  unfold Node.saveMetaIf
  split
  · exact h.saveMeta
  · exact h

/-! ## Votes -/

theorem raiseTerm (T : ℕ) :
    ∃ b, Moves term p a b ∧ Progress cfg a₀ p b (nd.raiseTerm T) ∧
      nd.SameLog (nd.raiseTerm T) := by
  unfold Node.raiseTerm
  split
  · rename_i hlt
    refine ⟨_, h.observe hlt.le, Progress.saveMeta ?_,
      by constructor <;> rfl⟩
    exact h.learn hlt (by constructor <;> rfl) rfl rfl rfl rfl rfl rfl
  · exact ⟨a, .refl h.moves.sound p, h, by constructor <;> rfl⟩

/-- A vote for a candidate whose log is up to date. -/
theorem castVote {c : Fin n} (hc : nd.votedFor = none ∨ nd.votedFor = some c)
    (hcand : a.cand c nd.currentTerm = some l) (hup : UpToDate term l nd.fullLog) :
    ∃ b, Moves term p a b ∧
      Progress cfg a₀ p b (Node.saveMeta { nd with votedFor := some c }) ∧
      votedIn b p nd.currentTerm = some c := by
  have hsteady : (Node.saveMeta { nd with votedFor := some c }).Steady cfg :=
    h.node.steady.sameLog (by constructor <;> rfl)
  rcases hc with hc | hc
  · -- a new ballot
    have hnone : a.ballot p nd.currentTerm = none := by
      have := h.node.vote
      rw [hc] at this
      exact map_eq_none_iff.1 this
    have hlog := h.node.log
    have hm : Moves term p a (a.cast p c nd.currentTerm) :=
      .step h.moves.sound (.vote p c nd.currentTerm l h.node.term.le hnone hcand (hlog ▸ hup))
        (.cast p c _)
    have hvote : votedIn (a.cast p c nd.currentTerm) p nd.currentTerm = some c := by
      simp [votedIn, Ledger.cast]
    refine ⟨_, hm, h.saved hm ?_ rfl rfl, hvote⟩
    exact { h.node with
      steady := hsteady
      term := update_self ..
      chosen := h.node.chosen.grows hm.grows
      vote := hvote
      diskTerm := le_rfl
      diskVote := fun _ => rfl
      candidate := fun hs => { h.node.candidate hs with
        votes := fun v hv => votedIn_grows hm.grows ((h.node.candidate hs).votes v hv) }
      leader := fun hs => { h.node.leader hs with } }
  · -- the same candidate asks again
    have hm : Moves term p a a := .refl h.moves.sound p
    have hvote : votedIn a p nd.currentTerm = some c := by rw [h.node.vote, hc]
    refine ⟨a, hm, h.saved hm ?_ rfl rfl, hvote⟩
    exact { h.node with
      steady := hsteady
      vote := hvote
      diskTerm := le_rfl
      diskVote := fun _ => rfl
      candidate := fun hs => { h.node.candidate hs with }
      leader := fun hs => { h.node.leader hs with } }

/-- `request_vote`: a ballot for the candidate whose request it is, or none. -/
theorem requestVote {r : RequestVoteRequest n} (hcand : a.cand r.candidateId r.term = some l)
    (hlen : r.lastLogIndex = l.length) (hlast : r.lastLogTerm = lastTerm term l) :
    ∃ b, Progress cfg a₀ p b (nd.requestVote r).1 ∧
      ((nd.requestVote r).2.voteGranted = true →
        votedIn b p (nd.requestVote r).2.term = some r.candidateId) := by
  obtain ⟨b, hm, hp, hsame⟩ := h.raiseTerm r.term
  rcases nd.requestVote_cases r with heq | ⟨hterm, hvote, hok, heq⟩
  · rw [heq]
    exact ⟨b, hp, fun hf => absurd hf (by simp)⟩
  have hup : UpToDate term l (nd.raiseTerm r.term).fullLog := by
    rw [hsame.fullLog_eq]
    unfold logOk at hok
    rw [h.node.steady.lastLogTerm_eq, h.node.steady.lastLogIndex_eq, hlen, hlast] at hok
    exact hok
  obtain ⟨b', hm', hp', hv⟩ := hp.castVote hvote
    (by rw [hterm]; exact hm.grows.cand _ _ _ hcand) hup
  rw [heq]
  refine ⟨b', hp', fun _ => ?_⟩
  rw [hterm] at hv
  exact hv

/-! ## Leading -/

/-- An entry goes on the end of the log of the term `p` leads.  `nd₁` is the node as
it was or, on the day of its election, with the office taken up. -/
theorem extend (hm : Moves term p a b) (nd₁ : Node n σ δ) (el : Election (Fin n) LogEntry)
    (hbterm : b.term p = a.term p) (hbvote : b.ballot p = a.ballot p) (hblog : b.log p = a.log p)
    (hsame : nd.SameLog nd₁) (hst : nd₁.storage = nd.storage)
    (hcp : nd₁.checkpoints = nd.checkpoints) (ht : nd₁.currentTerm = nd.currentTerm)
    (hv : nd₁.votedFor = nd.votedFor) (hlead : nd₁.state = .leader)
    (hself : nd₁.matchIndex p = none) (hel : b.won nd.currentTerm = some el) (help : el.leader = p)
    (hreign : b.reign nd.currentTerm = nd.fullLog)
    (hacks : ∀ q k, nd₁.matchIndex q = some k → k ≤ b.ack q nd.currentTerm)
    (hnext : ∀ q k, q ≠ p → nd₁.nextIndex q = some k → k ≤ nd.fullLog.length + 1)
    (hcommit : b.commit nd.currentTerm ≤ nd.commitIndex) {e : LogEntry}
    (he : e.term = nd.currentTerm) (hidx : e.index = nd.fullLog.length + 1) :
    ∃ b', Moves term p a b' ∧ Progress cfg a₀ p b' (nd₁.append e) := by
  subst help
  have hbt : b.term el.leader = nd.currentTerm := hbterm.trans h.node.term
  have hm' : Moves term el.leader a (b.extend el.leader nd.currentTerm e) :=
    hm.trans (.step hm.sound (.extend nd.currentTerm el e hel hbt
      (by rw [hreign, hblog]; exact h.node.log) he) (.extend e hel))
  have hlog' : (b.extend el.leader nd.currentTerm e).log el.leader = nd.fullLog ++ [e] := by
    simp [Ledger.extend, hreign]
  have hreign' : (b.extend el.leader nd.currentTerm e).reign nd.currentTerm =
      nd.fullLog ++ [e] := by
    simp [Ledger.extend, hreign]
  have htake : (nd.fullLog ++ [e]).take nd.commitIndex = nd.fullLog.take nd.commitIndex :=
    take_append_of_le_length h.node.steady.commit_le
  have hvote' : votedIn (b.extend el.leader nd.currentTerm e) el.leader nd.currentTerm =
      votedIn a el.leader nd.currentTerm := by
    show (b.ballot el.leader nd.currentTerm).map Prod.fst = _
    rw [hbvote]
    rfl
  have hleads := append_leads (h.node.steady.sameLog hsame) (e := e)
    (by rw [hsame.fullLog_eq]; exact hidx)
  rw [hsame.fullLog_eq, hsame.commitIndex] at hleads
  have hq := Node.Quiet.append nd₁ e
  have hcan : ∀ l c, l = nd.fullLog ++ [e] ∧ c = nd.commitIndex →
      CanHold a el.leader l c := by
    rintro l c ⟨rfl, rfl⟩
    refine ⟨_, hm', hbterm, ?_, hlog', ?_⟩
    · rw [h.node.term]; exact hvote'
    · rw [htake, h.node.term]; exact h.node.chosen.grows hm'.grows
  have hdt : (nd₁.append e).storage.currentTerm = nd.storage.currentTerm := by
    rw [← hst]; exact congrArg Prod.fst hq.disk
  have hdv : (nd₁.append e).storage.votedFor = nd.storage.votedFor := by
    rw [← hst]; exact congrArg Prod.snd hq.disk
  have hterm' : (nd₁.append e).currentTerm = nd.currentTerm := ht
  refine ⟨_, hm', h.moves.trans hm', ⟨hleads.steady, ?_, ?_, ?_, ?_, ?_, ?_, ?_, ?_, ?_⟩,
    fun cp hmem => h.crashable hcan ?_ ?_⟩
  · rw [hterm']; exact hbt
  · rw [hlog', hleads.holds.1]
  · rw [hterm', hleads.holds.1, hleads.holds.2, htake]; exact h.node.chosen.grows hm'.grows
  · rw [hterm', hvote', h.node.vote]; exact hv.symm
  · rw [hdt, hterm']; exact h.node.diskTerm
  · rw [hdt, hdv, hterm']
    exact fun heq => (h.node.diskVote heq).trans hv.symm
  · intro hs; exact absurd (hlead.symm.trans hs) (by decide)
  · intro _
    refine ⟨⟨el, ?_, rfl, ?_⟩, ?_, ?_, ?_, ?_⟩
    · rw [hterm']; exact hel
    · have hlen := (hm.sound.shape.wonLog _ el hel).length_le
      rw [hreign] at hlen
      rw [hleads.holds.1, length_append, length_singleton]
      omega
    · rw [hterm', hreign', hleads.holds.1]
    · rw [hterm']; exact hacks
    · intro q k hqp hk
      rw [hleads.holds.1, length_append, length_singleton]
      exact Nat.le_succ_of_le (hnext q k hqp hk)
    · rw [hterm', hleads.holds.2]; exact hcommit
  · exact hself
  · rcases hq.checkpoints cp hmem with hmem | ⟨hd, ht'⟩
    · exact .inl (hcp ▸ hmem)
    · exact .inr ⟨by rw [hd, hst], by rw [ht', ht]⟩
  · rcases hleads.onTheWay cp hmem with hmem | hsave
    · exact .inl (hcp ▸ hmem)
    · exact .inr hsave

end

/-- No peer is believed to be ahead of its leader. -/
theorem matchIndex_le (h : NodeRel cfg a p nd) (hs : Sound term a)
    (hl : nd.state = .leader) (q : Fin n) (k : ℕ) (hk : nd.matchIndex q = some k) :
    k ≤ nd.lastLogIndex := by
  rw [h.steady.lastLogIndex_eq, ← (h.leader hl).reign]
  exact le_trans ((h.leader hl).acks q k hk) (hs.shape.ackLe q _)

section

variable (cfg : Config n σ δ) (h : Progress cfg a₀ p a nd) (hlead : nd.state = .leader)
include h hlead

/-- `_update_commit_index`: what a majority has acknowledged is committed. -/
theorem updateCommitIndex :
    ∃ b, Moves term p a b ∧ Progress cfg a₀ p b (nd.updateCommitIndex cfg) := by
  rcases updateCommitIndex_cases cfg h.node.self
    (matchIndex_le h.node h.moves.sound hlead) with heq | ⟨i, e, hlt, he, hterm, hmaj, heq⟩
  · rw [heq]
    exact ⟨a, .refl h.moves.sound p, h⟩
  obtain ⟨⟨el, hel, help, hlen⟩, hreign, hacks, hnext, hcommit⟩ := h.node.leader hlead
  subst help
  have hbase : nd.lastIncludedIndex < i := by
    by_contra hge
    rw [Node.Steady.entryAt_none nd (by omega)] at he
    cases he
  rw [h.node.steady.entryAt_eq hbase] at he
  have hilen : i ≤ nd.fullLog.length := by
    have := (List.getElem?_eq_some_iff.1 he).1
    omega
  -- the leader acknowledges its own log, and then the majority is complete
  set b₁ := a.acknowledge el.leader nd.currentTerm nd.fullLog.length with hb₁
  have hm₁ : Moves term el.leader a b₁ := by
    refine .step h.moves.sound (.ack el.leader nd.currentTerm _ h.node.term.le ?_ ?_)
      (.acknowledge _ _ _)
    · rw [hreign]
    · rw [hreign, h.node.log]; exact take_prefix _ _
  have hcommitted : Committed term b₁ nd.currentTerm i := by
    refine ⟨⟨nd.holders el.leader i, hmaj, fun q hq => ?_⟩, ⟨e, ?_, hterm⟩, by omega⟩
    · rcases mem_holders.1 hq with rfl | ⟨k, hk, hik⟩
      · rw [hb₁, Consensus.Shape.acknowledge_ack, if_pos ⟨rfl, rfl⟩]
        exact le_trans hilen (le_max_right _ _)
      · exact le_trans (le_trans hik (hacks q k hk)) (hm₁.grows.ack q _)
    · show (a.reign nd.currentTerm)[i - 1]? = some e
      rw [hreign]; exact he
  have hm : Moves term el.leader a (b₁.commitTo nd.currentTerm i) :=
    hm₁.trans (.step hm₁.sound (.commit _ i hcommitted) (.commitTo i hel))
  have hbc : (b₁.commitTo nd.currentTerm i).commit nd.currentTerm =
      max (a.commit nd.currentTerm) i := update_self ..
  have hbt : (b₁.commitTo nd.currentTerm i).term el.leader = nd.currentTerm :=
    update_self ..
  have hchosen : Chosen (b₁.commitTo nd.currentTerm i) nd.currentTerm (nd.fullLog.take i) := by
    refine ⟨nd.currentTerm, le_rfl, ?_⟩
    rw [hbc]
    show _ <+: (a.reign nd.currentTerm).take _
    rw [hreign]
    exact take_prefix_take_left (le_max_right _ _)
  have hcan : ∀ l c, l = nd.fullLog ∧ c = i → CanHold a el.leader l c := by
    rintro l c ⟨rfl, rfl⟩
    refine ⟨_, hm, hbt.trans h.node.term.symm, rfl, h.node.log, ?_⟩
    rw [h.node.term]; exact hchosen
  obtain ⟨hleads, -⟩ := commitTo_leads cfg h.node.steady hlt.le hilen
  have hq := Node.Quiet.commitTo cfg nd i
  have hdt : (nd.commitTo cfg i).storage.currentTerm = nd.storage.currentTerm :=
    congrArg Prod.fst hq.disk
  have hdv : (nd.commitTo cfg i).storage.votedFor = nd.storage.votedFor :=
    congrArg Prod.snd hq.disk
  rw [heq]
  refine ⟨_, hm, h.moves.trans hm, ⟨hleads.steady, ?_, ?_, ?_, ?_, ?_, ?_, ?_, ?_, ?_⟩,
    fun cp hcp => h.crashable hcan (hq.checkpoints cp hcp) (hleads.onTheWay cp hcp)⟩
  · rw [hq.currentTerm]; exact hbt
  · rw [hleads.holds.1]; exact h.node.log
  · rw [hq.currentTerm, hleads.holds.1, hleads.holds.2]; exact hchosen
  · rw [hq.currentTerm, hq.votedFor]; exact h.node.vote
  · rw [hdt, hq.currentTerm]; exact h.node.diskTerm
  · rw [hdt, hdv, hq.currentTerm, hq.votedFor]; exact h.node.diskVote
  · intro hs; rw [hq.state, hlead] at hs; cases hs
  · intro _
    refine ⟨⟨el, ?_, rfl, ?_⟩, ?_, ?_, ?_, ?_⟩
    · rw [hq.currentTerm]; exact hel
    · rw [hleads.holds.1]; exact hlen
    · rw [hq.currentTerm, hleads.holds.1]; exact hreign
    · rw [hq.currentTerm, hq.matchIndex]
      exact fun q k hk => le_trans (hacks q k hk) (hm.grows.ack q _)
    · rw [hq.nextIndex, hleads.holds.1]; exact hnext
    · rw [hq.currentTerm, hbc, hleads.holds.2]; omega
  · rw [hq.matchIndex]; exact h.node.self

/-- A proposal, or the no-op of a leader in office. -/
theorem appendOwn (command : Bytes) :
    ∃ b, Progress cfg a₀ p b
      ((nd.append ⟨nd.currentTerm, nd.lastLogIndex + 1, command⟩).updateCommitIndex cfg) := by
  obtain ⟨⟨el, hel, help, -⟩, hreign, hacks, hnext, hcommit⟩ := h.node.leader hlead
  obtain ⟨b, -, hb⟩ := h.extend (.refl h.moves.sound p) nd el rfl rfl rfl
    (by constructor <;> rfl) rfl rfl rfl rfl hlead h.node.self hel help hreign
    hacks hnext hcommit (e := ⟨nd.currentTerm, nd.lastLogIndex + 1, command⟩) rfl
    (by rw [h.node.steady.lastLogIndex_eq])
  obtain ⟨b', -, hb'⟩ := hb.updateCommitIndex cfg hlead
  exact ⟨b', hb'⟩

end

/-! ## Elections -/

/-- A candidate with a majority of ballots is the first to win its term. -/
theorem won_none (h : NodeRel cfg a p nd) (hs : Sound term a)
    (hcand : nd.state = .candidate) (hmaj : majority n ≤ nd.votesReceived.card) :
    a.won nd.currentTerm = none := by
  obtain ⟨-, hvotes, hahead⟩ := h.candidate hcand
  rcases hw : a.won nd.currentTerm with _ | el
  · rfl
  have hQ : Majority nd.votesReceived := by rw [Majority, Fintype.card_fin]; exact hmaj
  obtain ⟨v, hv, hve⟩ := hQ.inter (hs.shape.wonMajority _ el hw)
  obtain ⟨l, hl⟩ := hs.shape.wonBallot _ el hw v hve
  have hvote := hvotes v hv
  rw [votedIn, hl] at hvote
  exact absurd (some.inj hvote) (hahead el hw)

/-- Nothing has been committed in a term nobody has won. -/
theorem commit_zero (hs : Sound term a) (hw : a.won T = none) : a.commit T = 0 := by
  rcases Nat.eq_zero_or_pos (a.commit T) with h0 | hpos
  · exact h0
  · obtain ⟨el, hel⟩ := (hs.committed T hpos).won hs.shape
    rw [hw] at hel
    cases hel

variable (cfg : Config n σ δ) (h : Progress cfg a₀ p a nd)
include h

/-- `_check_vote_count`: with a majority of ballots the candidate is crowned, and its
no-op goes on the end of its log. -/
theorem checkVoteCount : ∃ b, Progress cfg a₀ p b (nd.checkVoteCount cfg p) := by
  unfold Node.checkVoteCount
  split
  · exact ⟨a, h⟩
  rename_i hcand
  rw [not_not] at hcand
  split
  swap
  · exact ⟨a, h⟩
  rename_i hmaj
  obtain ⟨hstood, hvotes, -⟩ := h.node.candidate hcand
  have hnone := won_none h.node h.moves.sound hcand hmaj
  let el : Election (Fin n) LogEntry := ⟨p, nd.votesReceived, nd.fullLog⟩
  have hm : Moves term p a (a.crown nd.currentTerm el) := by
    refine .step h.moves.sound (.win _ el hnone hstood ?_ fun v hv => ?_) (.crown el hnone)
    · rw [Majority, Fintype.card_fin]; exact hmaj
    · obtain ⟨⟨c, l⟩, hx, hc⟩ := map_eq_some_iff.1 (hvotes v hv)
      exact ⟨l, by rw [hx]; exact congrArg (fun c => some (c, l)) hc⟩
  set nd₁ : Node n σ δ := { nd with
    state := .leader
    leaderId := some p
    votesReceived := ∅
    nextIndex := fun q => if q = p then nd.nextIndex q else some (nd.lastLogIndex + 1)
    matchIndex := fun q => if q = p then nd.matchIndex q else some 0 } with hnd₁
  obtain ⟨b, -, hb⟩ := h.extend hm nd₁ el rfl rfl rfl
    (by constructor <;> rfl) rfl rfl rfl rfl rfl
    (by simp [hnd₁, h.node.self])
    (update_self ..) rfl (update_self ..)
    (by
      intro q k hk
      simp only [hnd₁] at hk
      split at hk
      · rename_i hq; rw [hq, h.node.self] at hk; cases hk
      · cases hk; exact Nat.zero_le _)
    (by
      intro q k hq hk
      simp only [hnd₁, if_neg hq, some.injEq] at hk
      rw [← hk, h.node.steady.lastLogIndex_eq])
    (by
      show a.commit nd.currentTerm ≤ _
      rw [commit_zero h.moves.sound hnone]
      exact Nat.zero_le _)
    (e := ⟨nd.currentTerm, nd.lastLogIndex + 1, noopCommand⟩) rfl
    (by rw [h.node.steady.lastLogIndex_eq])
  obtain ⟨b', -, hb'⟩ := hb.updateCommitIndex cfg rfl
  exact ⟨b', hb'⟩

/-- `_start_election`. -/
theorem startElection : ∃ b, Progress cfg a₀ p b (nd.startElection cfg p) := by
  unfold Node.startElection
  split
  · exact ⟨a, h⟩
  split
  · exact ⟨a, h⟩
  have hlt : a.term p < nd.currentTerm + 1 := by rw [h.node.term]; exact Nat.lt_succ_self _
  have hm : Moves term p a (a.stand p (nd.currentTerm + 1)) :=
    .step h.moves.sound (.stand p _ hlt) (.stand p _)
  have hvote : votedIn (a.stand p (nd.currentTerm + 1)) p (nd.currentTerm + 1) = some p := by
    simp [votedIn, Ledger.stand, Ledger.cast, Ledger.nominate]
  refine Progress.checkVoteCount cfg (a := a.stand p (nd.currentTerm + 1)) (h.saved hm ?_ rfl rfl)
  refine ⟨h.node.steady.sameLog (by constructor <;> rfl),
    update_self .., h.node.log, ?_, hvote, le_rfl, fun _ => rfl, fun _ => ⟨?_, ?_, ?_⟩,
    fun hs => ?_, h.node.self⟩
  · exact (h.node.chosen.grows hm.grows).mono (Nat.le_succ _)
  · show (a.stand p (nd.currentTerm + 1)).cand p (nd.currentTerm + 1) = some nd.fullLog
    simp [Ledger.stand, Ledger.cast, Ledger.nominate, h.node.log]
  · intro v hv
    rw [Finset.mem_singleton.1 hv]
    exact hvote
  · rintro el hel rfl
    -- it would have stood in this term already
    have hcand := h.moves.sound.shape.wonCand _ el hel
    have : nd.currentTerm + 1 ≤ a.term el.leader :=
      (h.moves.sound.shape.candTerm _ _ _ hcand).2.1
    omega
  · cases hs

/-- What a candidate does with an answer to its request. -/
theorem requestVoteReply {r : RequestVoteResponse}
    (hr : r.voteGranted = true → votedIn a peer r.term = some p)
    (htimely : nd.state = .candidate → r.voteGranted = true → r.term ≤ nd.currentTerm →
      r.term = nd.currentTerm) :
    ∃ b, Progress cfg a₀ p b (nd.requestVoteReply cfg p peer r) := by
  unfold Node.requestVoteReply
  split
  · rename_i hlt
    exact ⟨_, h.learn hlt (by constructor <;> rfl) rfl rfl rfl rfl rfl rfl⟩
  rename_i hle
  split
  · exact ⟨a, h⟩
  rename_i hcand
  rw [not_not] at hcand
  split
  swap
  · exact ⟨a, h⟩
  rename_i hgrant
  have hterm := htimely hcand hgrant (by omega)
  refine Progress.checkVoteCount cfg (a := a) ⟨h.moves, ?_, h.crash⟩
  exact { h.node with
    steady := h.node.steady.sameLog (by constructor <;> rfl)
    candidate := fun _ => ⟨(h.node.candidate hcand).cand, by
      intro v hv
      rcases Finset.mem_insert.1 hv with rfl | hv
      · exact hterm ▸ hr hgrant
      · exact (h.node.candidate hcand).votes v hv, (h.node.candidate hcand).ahead⟩
    leader := fun hs => absurd (hcand.symm.trans hs) (by decide) }

/-! ## Answers to replication -/

/-- What a leader does with an answer: on a success it has the peer's acknowledgement,
of its own term, for the index it goes by. -/
theorem replicateReply (hne : peer ≠ p) {term index : ℕ} {success : Bool}
    (hack : success = true → index ≤ a.ack peer term)
    (htimely : nd.state = .leader → success = true → term ≤ nd.currentTerm →
      term = nd.currentTerm) :
    ∃ b, Progress cfg a₀ p b (nd.replicateReply cfg peer term success index).1 := by
  unfold Node.replicateReply
  split
  · rename_i hlt
    exact ⟨_, h.learn hlt (by constructor <;> rfl) rfl rfl rfl rfl rfl rfl⟩
  rename_i hle
  split
  · exact ⟨a, h⟩
  rename_i hlead
  rw [not_not] at hlead
  obtain ⟨hwon, hreign, hacks, hnext, hcommit⟩ := h.node.leader hlead
  split
  · rename_i hsucc
    have hterm := htimely hlead hsucc (by omega)
    have hack := hack hsucc
    rw [hterm] at hack
    have hlen : index ≤ nd.fullLog.length := by
      rw [← hreign]
      exact le_trans hack (h.moves.sound.shape.ackLe peer _)
    have hacks' : ∀ q k, update nd.matchIndex peer (some index) q = some k →
        k ≤ a.ack q nd.currentTerm := by
      intro q k hk
      by_cases hq : q = peer
      · subst hq
        rw [update_self, some.injEq] at hk
        rw [← hk]
        exact hack
      · rw [update_of_ne hq] at hk
        exact hacks q k hk
    have hnext' : ∀ q k, q ≠ p → update nd.nextIndex peer (some (index + 1)) q = some k →
        k ≤ nd.fullLog.length + 1 := by
      intro q k hqp hk
      by_cases hq : q = peer
      · subst hq
        rw [update_self, some.injEq] at hk
        omega
      · rw [update_of_ne hq] at hk
        exact hnext q k hqp hk
    have hp : Progress cfg a₀ p a { nd with
        nextIndex := update nd.nextIndex peer (some (index + 1))
        matchIndex := update nd.matchIndex peer (some index) } :=
      ⟨h.moves, { h.node with
        steady := h.node.steady.sameLog (by constructor <;> rfl)
        candidate := fun hc => absurd (hlead.symm.trans hc) (by decide)
        leader := fun _ => ⟨hwon, hreign, hacks', hnext', hcommit⟩
        self := (update_of_ne hne.symm ..).trans h.node.self }, h.crash⟩
    obtain ⟨b, -, hb⟩ := hp.updateCommitIndex cfg hlead
    exact ⟨b, hb⟩
  · refine ⟨a, h.moves, { h.node with
      steady := h.node.steady.sameLog (by constructor <;> rfl)
      candidate := fun hc => absurd (hlead.symm.trans hc) (by decide)
      leader := fun _ => ⟨hwon, hreign, hacks, ?_, hcommit⟩ }, h.crash⟩
    intro q k hqp hk
    by_cases hq : q = peer
    · subst hq
      simp only [backUp, update_self, some.injEq] at hk
      rw [← hk]
      rcases hn : nd.nextIndex q with _ | j
      · simp
      · have := hnext q j hqp hn
        show max 1 (j - 1) ≤ nd.fullLog.length + 1
        omega
    · simp only [backUp, update_of_ne hq] at hk
      exact hnext q k hqp hk

end Progress
end OxideDB.Raft
