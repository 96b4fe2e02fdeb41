import OxideDB.Raft.Safety

/-!
# ReadIndex

A read asks every peer for an acknowledgement and is served at the commit index the
leader has once a majority has answered.  Two things have to come of a quorum of
acknowledgements: that no later leader had committed anything when the read began, and
that the leader's commit index has passed the log it was elected with.  The first is a
quorum argument over the terms the peers were in; the second is up to what moves
`match_index`, and there the two kinds of acknowledgement differ: an answer to
`AppendEntries` reports an index beyond the election, an answer to `InstallSnapshot`
only the snapshot's.
-/

namespace OxideDB.Raft.ReadIndex

open List RaftCluster Option Function Transition Node LogEntry
open Consensus (Election Chosen Sound Majority lastTerm)
open RaftCluster (packetInput packetReply)

variable {l : List LogEntry} {i U : ℕ}
variable {n : ℕ} {σ δ : Type} {cfg : Config n σ δ}

/-! ## What a step makes of a leader -/

/-- The input tells a leader that `q` holds its log up to `i`. -/
def Acks (q : Fin n) (i : ℕ) : Input n δ → Prop
  | .appendEntriesReply peer r => r.success = true ∧ peer = q ∧ r.matchIndex = i
  | .installSnapshotReply peer index r => r.success = true ∧ peer = q ∧ index = i
  | _ => False

theorem checkVoteCount_currentTerm (nd : Node n σ δ) (me : Fin n) :
    (nd.checkVoteCount cfg me).currentTerm = nd.currentTerm := by
  unfold checkVoteCount
  split
  · rfl
  split
  · exact (Node.Quiet.appendNoopEntry _).currentTerm
  · rfl

variable {nd : Node n σ δ}

theorem replicateReply_leader {peer : Fin n} {term index : ℕ} {success : Bool}
    (hl : (nd.replicateReply cfg peer term success index).1.state = .leader) :
    (nd.replicateReply cfg peer term success index).1.currentTerm = nd.currentTerm ∧
      nd.state = .leader ∧
      ((nd.replicateReply cfg peer term success index).1.matchIndex = nd.matchIndex ∨
        (success = true ∧ (nd.replicateReply cfg peer term success index).1.matchIndex =
          update nd.matchIndex peer (some index))) := by
  unfold replicateReply at hl ⊢
  split at hl
  · cases hl
  rename_i hterm
  rw [if_neg hterm]
  split at hl
  · rename_i hs; exact absurd hl hs
  rename_i hs
  rw [if_neg hs]
  rw [not_not] at hs
  split
  · rename_i hsucc
    have hq : Node.Quiet { nd with
        nextIndex := update nd.nextIndex peer (some (index + 1))
        matchIndex := update nd.matchIndex peer (some index) }
        (nd.advance cfg peer index) := .updateCommitIndex _
    exact ⟨hq.currentTerm, hs, .inr ⟨hsucc, hq.matchIndex⟩⟩
  · exact ⟨rfl, hs, .inl rfl⟩

/-- **A leader after a step** led this term before it, with the match indices it had or
one acknowledgement more; or the step made it one. -/
theorem handle_leader (me : Fin n) (nd : Node n σ δ) (input : Input n δ)
    (hl : (nd.handle cfg me input).1.state = .leader) :
    ((nd.handle cfg me input).1.currentTerm = nd.currentTerm ∧ nd.state = .leader ∧
      ((nd.handle cfg me input).1.matchIndex = nd.matchIndex ∨
        ∃ q i, Acks q i input ∧
          (nd.handle cfg me input).1.matchIndex = update nd.matchIndex q (some i))) ∨
    ((nd.handle cfg me input).1.currentTerm = nd.currentTerm ∧ nd.state = .candidate) ∨
    nd.currentTerm < (nd.handle cfg me input).1.currentTerm := by
  have quiet : ∀ {nd' : Node n σ δ}, nd.begin.Quiet nd' → nd'.state = .leader →
      nd'.currentTerm = nd.currentTerm ∧ nd.state = .leader ∧
        (nd'.matchIndex = nd.matchIndex ∨ ∃ q i, Acks q i input ∧
          nd'.matchIndex = update nd.matchIndex q (some i)) :=
    fun hq hs => ⟨hq.currentTerm, hq.state.symm.trans hs, .inl hq.matchIndex⟩
  cases input with
  | startElection =>
    simp only [handle, startElection] at hl ⊢
    split at hl
    · rename_i hsd; rw [if_pos hsd]; exact .inl (quiet (.refl _) hl)
    rename_i hsd
    rw [if_neg hsd]
    split at hl
    · rename_i hs; rw [if_pos hs]; exact .inl (quiet (.refl _) hl)
    rename_i hs
    rw [if_neg hs]
    refine .inr (.inr ?_)
    rw [checkVoteCount_currentTerm]
    exact Nat.lt_succ_self _
  | requestVote r =>
    have hraise : (nd.begin.raiseTerm r.term).state = .leader →
        nd.begin.raiseTerm r.term = nd.begin := by
      unfold raiseTerm
      split
      · intro hs; cases hs
      · exact fun _ => rfl
    simp only [handle] at hl ⊢
    rcases nd.begin.requestVote_cases r with heq | ⟨-, -, -, heq⟩
    · rw [heq] at hl ⊢
      have hnd := hraise hl
      exact .inl (quiet (by rw [hnd]; exact .refl _) hl)
    · rw [heq] at hl ⊢
      have hnd := hraise hl
      rw [hnd] at hl ⊢
      exact .inl ⟨rfl, hl, .inl rfl⟩
  | requestVoteReply peer r =>
    simp only [handle, requestVoteReply] at hl ⊢
    split at hl
    · cases hl
    rename_i ht
    rw [if_neg ht]
    split at hl
    · rename_i hs; rw [if_pos hs]; exact .inl (quiet (.refl _) hl)
    rename_i hs
    rw [if_neg hs]
    rw [not_not] at hs
    split
    · exact .inr (.inl ⟨checkVoteCount_currentTerm _ _, hs⟩)
    · exact .inr (.inl ⟨rfl, hs⟩)
  | appendEntries r =>
    simp only [handle] at hl ⊢
    rcases Nat.lt_or_ge r.term nd.begin.currentTerm with hlt | hge
    · rw [nd.begin.appendEntries_stale r hlt] at hl ⊢
      exact .inl (quiet (.refl _) hl)
    · rw [(nd.begin.appendEntries_follows r hge).state] at hl
      cases hl
  | appendEntriesReply peer r =>
    obtain ⟨ht, hs, hm⟩ := replicateReply_leader hl
    refine .inl ⟨ht, hs, ?_⟩
    rcases hm with hm | ⟨hsucc, hm⟩
    · exact .inl hm
    · exact .inr ⟨peer, r.matchIndex, ⟨hsucc, rfl, rfl⟩, hm⟩
  | installSnapshot r =>
    simp only [handle] at hl ⊢
    rcases Nat.lt_or_ge r.term nd.begin.currentTerm with hlt | hge
    · rw [nd.begin.installSnapshot_stale r hlt] at hl ⊢
      exact .inl (quiet (.refl _) hl)
    · rw [(nd.begin.installSnapshot_follows r hge).state] at hl
      cases hl
  | installSnapshotReply peer index r =>
    obtain ⟨ht, hs, hm⟩ := replicateReply_leader hl
    refine .inl ⟨ht, hs, ?_⟩
    rcases hm with hm | ⟨hsucc, hm⟩
    · exact .inl hm
    · exact .inr ⟨peer, index, ⟨hsucc, rfl, rfl⟩, hm⟩
  | proposeCommand command => exact .inl (quiet (.proposeCommand _ _) hl)
  | confirmRead term acks => exact .inl (quiet (.confirmRead _ _ _) hl)
  | freezeWrites reason => exact .inl (quiet (.of_eq rfl rfl rfl rfl rfl rfl rfl rfl) hl)
  | resumeWrites => exact .inl (quiet (.of_eq rfl rfl rfl rfl rfl rfl rfl rfl) hl)
  | shutdown => cases hl

/-! ## What a step makes of a read -/

/-- The read a replication message was sent for. -/
def tag : Body n δ → Option ℕ
  | .appendRequest read _ | .appendResponse read _ | .snapshotRequest read _
  | .snapshotResponse read _ _ => read
  | .voteRequest _ | .voteResponse _ => none

/-- The term a replication message was answered in. -/
def answerTerm : Body n δ → Option ℕ
  | .appendResponse _ r => some r.term
  | .snapshotResponse _ _ r => some r.term
  | _ => none

/-- The answer is a success. -/
def accepted : Body n δ → Bool
  | .appendResponse _ r => r.success
  | .snapshotResponse _ _ r => r.success
  | _ => false

/-- What a step can do to the read at place `k`. -/
inductive ReadMoves (cfg : Config n σ δ) (g : RaftCluster n σ δ) (k : ℕ) (call : ReadCall n) :
    Event n → ReadCall n → Prop
  | same {e : Event n} : ReadMoves cfg g k call e call
  | counted {i : ℕ} {x : Packet n δ} (hx : g.wire[i]? = some x) (htag : tag x.body = some k)
      (hok : accepted x.body = true) (hterm : answerTerm x.body = some call.term)
      (hask : call.status = .asking)
      (hout : ((g.nodes x.dst).handle cfg x.dst (packetInput x)).2 = .replied true) :
      ReadMoves cfg g k call (.act (.deliver i)) { call with acked := insert x.src call.acked }
  | finished {r : Option ℕ} (hask : call.status = .asking)
      (hout : ((g.nodes call.node).handle cfg call.node
        (.confirmRead call.term (1 + call.acked.card))).2 = .readIndex r) :
      ReadMoves cfg g k call (.act (.finishRead k)) { call with status := .done r }
  | lost {e : Event n} (hask : call.status = .asking) :
      ReadMoves cfg g k call e { call with status := .lost }

variable {k : ℕ} {e : Event n}
variable {a a₁ : Log n} {g g' : RaftCluster n σ δ}

theorem ReadMoves.node {call call' : ReadCall n} (h : ReadMoves cfg g k call e call') :
    call'.node = call.node ∧ call'.term = call.term := by
  cases h <;> exact ⟨rfl, rfl⟩

variable {call : ReadCall n}

/-- The counting of an acknowledgement, seen from one read. -/
theorem countAck_get {reads : List (ReadCall n)} (hk : reads[k]? = some call) (peer : Fin n)
    (read : Option ℕ) (success : Bool) (term : ℕ) (out : Output) :
    (countAck reads peer read success term out)[k]? = some call ∨
      (read = some k ∧ out = .replied true ∧ success = true ∧ term = call.term ∧
        call.status = .asking ∧
        (countAck reads peer read success term out)[k]? =
          some { call with acked := insert peer call.acked }) := by
  unfold countAck
  split
  swap
  · exact .inl hk
  rename_i j
  split
  swap
  · exact .inl hk
  rename_i c hc
  split
  swap
  · exact .inl hk
  rename_i hcond
  simp only [Bool.and_eq_true, decide_eq_true_eq] at hcond
  by_cases hjk : j = k
  · subst hjk
    obtain rfl : c = call := some.inj (hc.symm.trans hk)
    have hlt := (List.getElem?_eq_some_iff.1 hk).1
    exact .inr ⟨rfl, rfl, hcond.1.1, hcond.1.2, hcond.2, getElem?_set_self hlt⟩
  · exact .inl (by rw [getElem?_set_ne hjk]; exact hk)

variable {x : Packet n δ}

/-- What the delivery of a packet does to one read. -/
theorem packetAck_moves {k : ℕ} (hk : g.reads[k]? = some call) (hx : g.wire[i]? = some x) :
    ∃ call', (packetAck g.reads x
        ((g.nodes x.dst).handle cfg x.dst (packetInput x)).2)[k]? = some call' ∧
      ReadMoves cfg g k call (.act (.deliver i)) call' := by
  rcases x with ⟨src, dst, body⟩
  cases body with
  | appendResponse read r =>
    rcases countAck_get hk src read r.success r.term
      ((g.nodes dst).handle cfg dst (.appendEntriesReply src r)).2 with
      hsame | ⟨rfl, hout, hs, ht, ha, hnew⟩
    · exact ⟨call, hsame, .same⟩
    · exact ⟨_, hnew, .counted hx rfl hs (congrArg some ht) ha hout⟩
  | snapshotResponse read index r =>
    rcases countAck_get hk src read r.success r.term
      ((g.nodes dst).handle cfg dst (.installSnapshotReply src index r)).2 with
      hsame | ⟨rfl, hout, hs, ht, ha, hnew⟩
    · exact ⟨call, hsame, .same⟩
    · exact ⟨_, hnew, .counted hx rfl hs (congrArg some ht) ha hout⟩
  | _ => exact ⟨call, hk, .same⟩

variable {p : Fin n} {input : Input n δ}

theorem settle_moves {a : Action n} (hk : g.reads[k]? = some call)
    (hin : g.inputOf a = some (p, input)) :
    ∃ call', (g.settle a ((g.nodes p).handle cfg p input).2).reads[k]? = some call' ∧
      ReadMoves cfg g k call (.act a) call' := by
  cases a with
  | deliver i =>
    simp only [inputOf, map_eq_some_iff, Prod.mk.injEq] at hin
    obtain ⟨x, hx, rfl, rfl⟩ := hin
    simp only [settle, hx]
    exact packetAck_moves hk hx
  | proposeCommand j =>
    refine ⟨call, ?_, .same⟩
    simp only [settle]
    split <;> exact hk
  | finishRead j =>
    simp only [inputOf] at hin
    split at hin
    swap
    · cases hin
    rename_i p' term acked hj
    cases hin
    simp only [settle, hj]
    split
    swap
    · exact ⟨call, hk, .same⟩
    rename_i c r hc hout
    cases hc
    by_cases hjk : j = k
    · subst hjk
      cases hj.symm.trans hk
      have hlt := (List.getElem?_eq_some_iff.1 hk).1
      exact ⟨_, getElem?_set_self hlt, .finished rfl hout⟩
    · exact ⟨call, by rw [getElem?_set_ne hjk]; exact hk, .same⟩
  | _ => exact ⟨call, hk, .same⟩

/-- A read begins: at the end of the list, asking if it is a leader's with peers to
ask. -/
theorem beginRead_reads (hb : g.bystand cfg (.beginRead p) = some g') :
    ∃ status, g'.reads = g.reads ++ [⟨p, (g.nodes p).currentTerm, ∅, status⟩] ∧
      ((status = .asking ∧ (g.nodes p).state = .leader) ∨ status = .done none ∨
        (peers p).isEmpty = true) := by
  simp only [bystand] at hb
  split at hb
  · cases hb
    exact ⟨_, rfl, .inr (.inl rfl)⟩
  rename_i hlead
  split at hb
  · rename_i hempty
    cases hb
    exact ⟨_, rfl, .inr (.inr hempty)⟩
  · cases hb
    obtain ⟨-, hr, -, -, -⟩ := foldl_replicate p (some g.reads.length)
      (fun peer => (g.nodes p).replicateArgs (some (((g.nodes p).nextIndex peer).getD 1)))
      (peers p) { g with reads := g.reads ++ [⟨p, (g.nodes p).currentTerm, ∅, .asking⟩] }
    exact ⟨.asking, hr, .inl ⟨rfl, not_not.1 hlead⟩⟩

section

variable {g g' : RaftCluster n σ δ} {a : Action n} (hb : g.bystand cfg a = some g')
include hb

/-- No other step that only looks at nodes touches the reads. -/
theorem bystand_reads (ha : ∀ p, a ≠ .beginRead p) : g'.reads = g.reads := by
  cases a with
  | askVote p peer =>
    simp only [bystand] at hb
    split at hb
    · cases hb
    · obtain ⟨r, -, rfl⟩ := map_eq_some_iff.1 hb
      rfl
  | heartbeat p peer =>
    simp only [bystand] at hb
    split at hb
    · cases hb
    · cases hb
      exact replicate_reads ..
  | shipSnapshot i =>
    simp only [bystand] at hb
    split at hb
    swap
    · cases hb
    split at hb
    · cases hb; rfl
    split at hb <;> (cases hb; rfl)
  | propose p command =>
    simp only [bystand] at hb
    split at hb <;> (cases hb; rfl)
  | awaitCommit j =>
    simp only [bystand] at hb
    split at hb
    · split at hb <;> (cases hb; rfl)
    · cases hb
  | expire j =>
    simp only [bystand] at hb
    split at hb
    · split at hb
      · cases hb; rfl
      · cases hb
    · cases hb
  | answer j =>
    simp only [bystand] at hb
    split at hb
    · cases hb; rfl
    · cases hb
  | beginRead p => exact absurd rfl (ha p)
  | _ => cases hb

theorem bystand_get (hk : g.reads[k]? = some call) : g'.reads[k]? = some call := by
  by_cases ha : ∃ p, a = .beginRead p
  · obtain ⟨p, rfl⟩ := ha
    obtain ⟨status, hr, -⟩ := beginRead_reads hb
    rw [hr, getElem?_append_left (List.getElem?_eq_some_iff.1 hk).1]
    exact hk
  · rw [bystand_reads hb (fun p hp => ha ⟨p, hp⟩)]
    exact hk

end

theorem restart_reads (p : Fin n) (st : EngineRaftStorage n δ) (hk : g.reads[k]? = some call) :
    ∃ call', (g.restart cfg p st).reads[k]? = some call' ∧
      (call' = call ∨ (call.status = .asking ∧ call' = { call with status := .lost })) := by
  simp only [restart, getElem?_map, hk, map_some, some.injEq,
    exists_eq_left']
  split
  · rename_i h; exact .inr ⟨h.2, rfl⟩
  · exact .inl rfl

theorem consume_reads (g : RaftCluster n σ δ) (a : Action n) :
    (g.consume a).reads = g.reads := by
  unfold consume
  split <;> rfl

/-- **What a step can do to a read.** -/
theorem read_step (hs : g.step cfg e = some g') (hk : g.reads[k]? = some call) :
    ∃ call', g'.reads[k]? = some call' ∧ ReadMoves cfg g k call e call' := by
  have restarted : ∀ (h : RaftCluster n σ δ) (p : Fin n) (st : EngineRaftStorage n δ),
      h.reads = g.reads → ∃ call', (h.restart cfg p st).reads[k]? = some call' ∧
        ReadMoves cfg g k call e call' := by
    intro h p st hr
    obtain ⟨call', hk', hc⟩ : ∃ call', (h.restart cfg p st).reads[k]? = some call' ∧ _ :=
      restart_reads p st (hr ▸ hk)
    rcases hc with rfl | ⟨hask, rfl⟩
    · exact ⟨_, hk', .same⟩
    · exact ⟨_, hk', .lost hask⟩
  cases happens hs with
  | handled hin => exact settle_moves hk hin
  | stood hb => exact ⟨call, bystand_get hb hk, .same⟩
  | crashed p => exact restarted g p _ rfl
  | crashedIn hin hcp => exact restarted _ _ _ (consume_reads g _)

/-! ## Whose read a message belongs to -/

/-- The node that waits for a message's answer, or waited for this one. -/
def owner (x : Packet n δ) : Fin n := if x.body.isResponse then x.dst else x.src

/-- The read at place `k` is one of `p`'s. -/
def ReadOf (g : RaftCluster n σ δ) (k : ℕ) (p : Fin n) : Prop :=
  ∃ call, g.reads[k]? = some call ∧ call.node = p

/-- Whatever is tagged with a read belongs to the node that reads. -/
structure Tags (g : RaftCluster n σ δ) : Prop where
  wire : ∀ x ∈ g.wire, ∀ k, tag x.body = some k → ReadOf g k (owner x)
  jobs : ∀ job ∈ g.jobs, ∀ k, job.read = some k → ReadOf g k job.node

namespace Tags

variable {g g' : RaftCluster n σ δ}

theorem init (cfg : Config n σ δ) : Tags (init cfg) where
  wire x hx := by cases hx
  jobs job hj := by cases hj

theorem readOf_step (hs : g.step cfg e = some g') (h : ReadOf g k p) : ReadOf g' k p := by
  obtain ⟨call, hk, rfl⟩ := h
  obtain ⟨call', hk', hm⟩ := read_step hs hk
  exact ⟨call', hk', hm.node.1⟩

/-- An answer goes back with the tag its request came with. -/
theorem reply {x y : Packet n δ} {out : Output} (hr : packetReply y out = some x) :
    tag x.body = tag y.body ∧ owner x = owner y := by
  rcases packetReply_cases hr with
    ⟨r, response, hb, -, rfl⟩ | ⟨read, r, response, hb, -, rfl⟩ | ⟨read, r, response, hb, -, rfl⟩
  · exact ⟨by rw [hb]; rfl, by simp [owner, hb, Body.isResponse]⟩
  · exact ⟨by rw [hb]; rfl, by simp [owner, hb, Body.isResponse]⟩
  · exact ⟨by rw [hb]; rfl, by simp [owner, hb, Body.isResponse]⟩

/-- A new tag is the read that has just begun. -/
theorem tagged {a : Action n} (hb : g.bystand cfg a = some g') {read : Option ℕ}
    (ht : RaftCluster.Tagged g a p read) (hk : read = some k) : ReadOf g' k p := by
  rcases ht with rfl | ⟨rfl, rfl⟩
  · cases hk
  · cases hk
    obtain ⟨status, hr, -⟩ := beginRead_reads hb
    exact ⟨_, by rw [hr]; exact getElem?_concat_length, rfl⟩

theorem emitted (h : Tags g) {a : Action n} (hb : g.bystand cfg a = some g')
    (hx : RaftCluster.Emitted g a x) (hk : tag x.body = some k) : ReadOf g' k (owner x) := by
  cases hx with
  | vote hne hr => cases hk
  | append hne hlead htag hnext hr => exact tagged hb htag hk
  | snapshot hjob hs =>
    obtain ⟨call, hc, hn⟩ := h.jobs _ (mem_of_getElem? hjob) k hk
    exact ⟨call, bystand_get hb hc, hn⟩

/-- **Every step keeps the tags right.** -/
theorem step (h : Tags g) (hs : g.step cfg e = some g') : Tags g' := by
  have old : ∀ x ∈ g.wire, ∀ k, tag x.body = some k → ReadOf g' k (owner x) :=
    fun x hx k hk => readOf_step hs (h.wire x hx k hk)
  have oldJob : ∀ job ∈ g.jobs, ∀ k, job.read = some k → ReadOf g' k job.node :=
    fun job hj k hk => readOf_step hs (h.jobs job hj k hk)
  cases happens hs with
  | handled hin =>
    refine ⟨fun x hx k hk => ?_, fun job hj => ?_⟩
    · rcases mem_handled_wire hin hx with hx | ⟨i, y, -, hy, hr⟩
      · exact old x hx k hk
      · obtain ⟨htag, howner⟩ := reply hr
        rw [howner]
        exact old y (mem_of_getElem? hy) k (htag ▸ hk)
    · simp only [setNode, settle_jobs] at hj
      exact oldJob job hj
  | stood hb =>
    have hst := bystand_stands hb
    refine ⟨fun x hx k hk => ?_, fun job hj k hk => ?_⟩
    · rcases hst.wire x hx with hx | hx
      · exact old x hx k hk
      · exact h.emitted hb hx hk
    · rcases hst.jobs job hj with hj | hj
      · exact oldJob job hj k hk
      · exact tagged hb hj.tag hk
  | crashed p =>
    exact ⟨fun x hx => old x (mem_filter.1 hx).1,
      fun job hj => oldJob job (mem_filter.1 hj).1⟩
  | crashedIn hin hcp =>
    refine ⟨fun x hx => old x (mem_restart_wire hx), fun job hj => ?_⟩
    have hj := (mem_filter.1 hj).1
    rw [consume_jobs] at hj
    exact oldJob job hj

theorem run (h : Tags g) {es : List (Event n)} (hr : run cfg g es = some g') :
    Tags g' :=
  run_invariant (fun _ _ _ h hs => step h hs) h hr

end Tags

/-! ## What a quorum of acknowledgements is worth -/

/-- The count of `_update_commit_index` falls on an index the leader has. -/
theorem newCommitIndex_le (hle : ∀ q k, nd.matchIndex q = some k → k ≤ nd.lastLogIndex)
    (hlen : majority n ≤ nd.matchIndices.length) :
    nd.matchIndices.getD (nd.matchIndices.length - majority n) 0 ≤ nd.lastLogIndex := by
  have hmem := mem_of_getElem? (newCommitIndex_get hlen)
  rw [matchIndices, mem_append, (perm_insertionSort _ _).mem_iff,
    mem_filterMap, mem_singleton] at hmem
  rcases hmem with ⟨q, -, hq⟩ | hlast
  · exact hle q _ hq
  · exact hlast.le

/-- What a majority holds is committed, if everything from there on is of the leader's
own term. -/
theorem le_updateCommitIndex (cfg : Config n σ δ) {me : Fin n} (h : nd.Steady cfg)
    (hself : nd.matchIndex me = none) (hle : ∀ q k, nd.matchIndex q = some k → k ≤ nd.lastLogIndex)
    (hi : i ≤ nd.lastLogIndex) (hmaj : Majority (nd.holders me i))
    (hown : ∀ j e, i ≤ j → nd.fullLog[j - 1]? = some e → e.term = nd.currentTerm) :
    i ≤ (nd.updateCommitIndex cfg).commitIndex := by
  obtain ⟨hlen, hge⟩ := le_newCommitIndex hself hle hi hmaj
  have hnew := newCommitIndex_le hle hlen
  unfold updateCommitIndex
  rw [if_pos hlen]
  dsimp only
  set j := nd.matchIndices.getD (nd.matchIndices.length - majority n) 0 with hj
  rw [h.lastLogIndex_eq] at hnew
  split
  · rename_i hlt
    have hbase := le_trans h.base_le h.applied_le
    obtain ⟨e, he⟩ : ∃ e, nd.fullLog[j - 1]? = some e :=
      ⟨_, getElem?_eq_getElem (by omega)⟩
    have hat : nd.entryAt j = some e := by rw [h.entryAt_eq (by omega), he]
    simp only [hat, hown j e hge he, if_true]
    rw [(commitTo_leads cfg h hlt.le hnew).1.holds.2]
    exact hge
  · omega

theorem commitIndex_le_update (cfg : Config n σ δ) (h : NodeRel cfg a p nd)
    (hs : Sound term a) (hlead : nd.state = .leader) :
    nd.commitIndex ≤ (nd.updateCommitIndex cfg).commitIndex := by
  rcases updateCommitIndex_cases cfg h.self (Progress.matchIndex_le h hs hlead) with
    heq | ⟨i, e, hlt, he, -, -, heq⟩
  · rw [heq]
  have hbase : nd.lastIncludedIndex < i := by
    by_contra hge
    rw [Node.Steady.entryAt_none nd (by omega)] at he
    cases he
  rw [h.steady.entryAt_eq hbase] at he
  have := (List.getElem?_eq_some_iff.1 he).1
  rw [heq, (commitTo_leads cfg h.steady hlt.le (by omega)).1.holds.2]
  exact hlt.le

/-- The leader knows of `v` that it holds an entry made since the election, or has
committed one already. -/
def Counted (a : Log n) (T : ℕ) (el : Election (Fin n) LogEntry) (nd : Node n σ δ)
    (v : Fin n) : Prop :=
  el.log.length < a.commit T ∨ ∃ k, nd.matchIndex v = some k ∧ el.log.length < k

variable {el : Election (Fin n) LogEntry} {acked : Finset (Fin n)}

/-- A leader that counts a majority commits beyond the log it was elected with. -/
theorem election_lt_commit (cfg : Config n σ δ) (h : NodeRel cfg a p nd)
    (hs : Sound term a) (hlead : nd.state = .leader) (hel : a.won nd.currentTerm = some el)
    (hp : p ∉ acked) (hmaj : majority n ≤ 1 + acked.card)
    (hcount : ∀ v ∈ acked, Counted a nd.currentTerm el nd v) :
    el.log.length < (nd.updateCommitIndex cfg).commitIndex := by
  obtain ⟨⟨el', hel', -, hlen⟩, hreign, -, -, hcommit⟩ := h.leader hlead
  cases hel.symm.trans hel'
  have hmono := commitIndex_le_update cfg h hs hlead
  by_cases hdone : el.log.length < a.commit nd.currentTerm
  · omega
  -- nothing of this term is committed yet, so the count rests on the match indices
  refine le_updateCommitIndex cfg (i := el.log.length + 1) h.steady h.self
    (Progress.matchIndex_le h hs hlead) (by rw [h.steady.lastLogIndex_eq]; omega) ?_ ?_
  · have hsub : insert p acked ⊆ nd.holders p (el.log.length + 1) := by
      intro v hv
      rw [mem_holders]
      rcases Finset.mem_insert.1 hv with rfl | hv
      · exact .inl rfl
      · obtain ⟨k, hk, hlt⟩ := (hcount v hv).resolve_left hdone
        exact .inr ⟨k, hk, hlt⟩
    have hcard := Finset.card_le_card hsub
    rw [Finset.card_insert_of_notMem hp] at hcard
    rw [Majority, Fintype.card_fin]
    have hm : majority n = n / 2 + 1 := rfl
    omega
  · intro j e hj he
    refine hs.shape.wonTail _ el hel e ?_
    rw [hreign]
    refine mem_of_getElem? (i := j - 1 - el.log.length) ?_
    rw [getElem?_drop, Nat.add_sub_cancel' (by omega)]
    exact he

/-- **What a confirmed read covers.**  The acknowledgements are of nodes that were in no
later term when the read began, so whatever was chosen then was chosen by this leader or
before its election. -/
theorem confirmed_covers (cfg : Config n σ δ) (hg : a₁.Grows a) (hs₁ : Sound term a₁)
    (hs : Sound term a) (h : NodeRel cfg a p nd) (hlead : nd.state = .leader)
    (hel : a.won nd.currentTerm = some el) (hp : p ∉ acked) (hmaj : majority n ≤ 1 + acked.card)
    (hcount : ∀ v ∈ acked, Counted a nd.currentTerm el nd v)
    (hterm : ∀ v ∈ acked, a₁.term v ≤ nd.currentTerm) (hpterm : a₁.term p ≤ nd.currentTerm)
    (hl : Chosen a₁ U l) : l.length ≤ (nd.updateCommitIndex cfg).commitIndex := by
  obtain ⟨T₀, -, hpre⟩ := hl
  have hlen := hpre.length_le
  rw [length_take] at hlen
  rcases Nat.eq_zero_or_pos (a₁.commit T₀) with h0 | hpos
  · omega
  have hc := hs₁.committed T₀ hpos
  rcases Nat.lt_trichotomy T₀ nd.currentTerm with hlt | heq | hgt
  · -- committed before the election: the leader was elected with it
    have hsafe := (hc.grows hg).safe hs.shape hs.retention nd.currentTerm nd.currentTerm el hlt
      le_rfl hel
    rw [hg.take_reign hc.length_le] at hsafe
    have := (hpre.trans hsafe).length_le
    have := election_lt_commit cfg h hs hlead hel hp hmaj hcount
    omega
  · -- committed by this leader
    have h1 := hg.commit T₀
    have h2 := (h.leader hlead).commit
    have h3 := commitIndex_le_update cfg h hs hlead
    rw [heq] at h1 hlen
    omega
  · -- a majority had acknowledged a later term: one of them acknowledged this read
    exfalso
    obtain ⟨Q, hQ, hack⟩ := hc.quorum
    have hR : Majority (insert p acked) := by
      rw [Majority, Fintype.card_fin, Finset.card_insert_of_notMem hp]
      have hm : majority n = n / 2 + 1 := rfl
      omega
    obtain ⟨v, hvQ, hv⟩ := hQ.inter hR
    have hle : T₀ ≤ a₁.term v := hs₁.shape.ackTerm v T₀ (lt_of_lt_of_le hpos (hack v hvQ))
    rcases Finset.mem_insert.1 hv with rfl | hv
    · omega
    · have := hterm v hv
      omega

/-! ## The condition on snapshots -/

/-- A leader that takes a snapshot's acknowledgement has committed an entry of its own
term by then. -/
def Earned (nd : Node n σ δ) : Input n δ → Prop
  | .installSnapshotReply _ _ r => nd.state = .leader → r.success = true →
      r.term ≤ nd.currentTerm → Safety.termAt nd nd.commitIndex = some nd.currentTerm
  | _ => True

instance (nd : Node n σ δ) (input : Input n δ) : Decidable (Earned nd input) := by
  induction input using Input.casesOn <;> dsimp only [Earned] <;> infer_instance

/-- A node of which a read is under way takes no other acknowledgement of a snapshot: it would
replace what the node knows of the peer, whether the read waits for it or not. -/
def EarnedInRead (g : RaftCluster n σ δ) : Event n → Prop
  | .act (.deliver i) => ∀ x ∈ g.wire[i]?,
      (∃ call ∈ g.reads, call.node = x.dst ∧ call.status = .asking) →
        Earned (g.nodes x.dst) (packetInput x)
  | _ => True

instance (g : RaftCluster n σ δ) (e : Event n) : Decidable (EarnedInRead g e) := by
  induction e using Event.casesOn with
  | act a => induction a using Action.casesOn <;> dsimp only [EarnedInRead] <;> infer_instance
  | crash _ | crashIn _ _ => exact inferInstanceAs (Decidable True)

/-- A step that keeps the rules, this one included. -/
def Attentive (cfg : Config n σ δ) (g : RaftCluster n σ δ) (e : Event n) : Prop :=
  Orderly cfg g e ∧ EarnedInRead g e

instance (cfg : Config n σ δ) (g : RaftCluster n σ δ) (e : Event n) :
    Decidable (Attentive cfg g e) :=
  inferInstanceAs (Decidable (_ ∧ _))

/-- While a read of it is under way, whatever a node is asked meets the condition. -/
theorem earned_of_input {act : Action n} {q : Fin n} (h : EarnedInRead g (.act act))
    (hin : g.inputOf act = some (q, input))
    (hread : ∃ call ∈ g.reads, call.node = q ∧ call.status = .asking) :
    Earned (g.nodes q) input := by
  cases act with
  | deliver i =>
    obtain ⟨x, hx, heq⟩ := map_eq_some_iff.1 hin
    cases heq
    exact h x hx hread
  | proposeCommand k | finishRead k =>
    simp only [inputOf] at hin
    split at hin <;> cases hin
    trivial
  | startElection q | freezeWrites q reason | resumeWrites q | shutdown q =>
    cases hin
    trivial
  | _ => cases hin

/-- What a commit in its own term tells a leader about its election. -/
theorem earned_commit (h : NodeRel cfg a p nd) (hs : Sound term a)
    (hel : a.won nd.currentTerm = some el)
    (ht : Safety.termAt nd nd.commitIndex = some nd.currentTerm) :
    el.log.length < a.commit nd.currentTerm := by
  obtain ⟨-, hlast⟩ := Safety.termAt_eq h.steady ht
  have hpos : 0 < nd.currentTerm :=
    (hs.shape.candTerm _ _ _ (hs.shape.wonCand _ el hel)).1
  rcases he : (nd.fullLog.take nd.commitIndex).getLast? with _ | e
  · have h0 : lastTerm term (nd.fullLog.take nd.commitIndex) = 0 := by
      rw [lastTerm, he]
    omega
  have hmem := mem_of_getLast? he
  have heterm : e.term = nd.currentTerm := by rw [hlast, lastTerm, he]
  obtain ⟨U, hU, hpre⟩ := h.chosen
  -- a log with an entry of this term in it is this term's
  have hUT : nd.currentTerm ≤ U := by
    rw [← heterm]
    exact hs.shape.reignTerm U e (mem_of_mem_take (hpre.subset hmem))
  obtain rfl : U = nd.currentTerm := le_antisymm hU hUT
  have hlt := hs.election_length_lt (hpre.trans (List.take_prefix _ _)) hmem heterm hel
  exact lt_of_lt_of_le hlt (le_trans hpre.length_le (length_take_le _ _))

/-! ## A read under way -/

/-- What is known while a read of `p` in term `T` is collecting acknowledgements; `a₁`
is the ledger when it began. -/
def Asking (a₁ a : Log n) (p : Fin n) (T : ℕ) (acked : Finset (Fin n)) (nd : Node n σ δ) :
    Prop :=
  ∃ el, a.won T = some el ∧ el.leader = p ∧ p ∉ acked ∧ a₁.term p ≤ T ∧
    (∀ v ∈ acked, a₁.term v ≤ T) ∧
    (nd.state = .leader → nd.currentTerm = T → ∀ v ∈ acked, Counted a T el nd v)

/-- What is known of the read at place `k`. -/
structure Reading (a₁ : Log n) (k : ℕ) (p : Fin n) (T : ℕ) (a : Log n)
    (g : RaftCluster n σ δ) : Prop where
  call : ∃ call, g.reads[k]? = some call ∧ call.node = p ∧ call.term = T ∧
    (call.status = .asking → Asking a₁ a p T call.acked (g.nodes p)) ∧
    ∀ r, call.status = .done (some r) → ∀ U l, Chosen a₁ U l → l.length ≤ r
  wire : ∀ x ∈ g.wire, tag x.body = some k → ∀ t, answerTerm x.body = some t →
    a₁.term x.src ≤ t

theorem appendEntries_term (nd : Node n σ δ) (r : AppendEntriesRequest n) :
    nd.currentTerm ≤ (nd.appendEntries cfg r).2.term := by
  rcases Nat.lt_or_ge r.term nd.currentTerm with hlt | hge
  · rw [nd.appendEntries_stale r hlt]
  have hadopt := adoptTerm_currentTerm nd hge
  obtain ⟨-, ht, -, -, -⟩ := adoptTerm_follows nd hge r.leaderId
  unfold appendEntries
  dsimp only
  rw [if_neg (by omega)]
  split
  · have hq := Node.Quiet.absorbEntries r.entries ((nd.adoptTerm r.term).followLeader r.leaderId)
    show _ ≤ (saveMetaIf _ _).currentTerm
    unfold saveMetaIf
    split <;> exact hge.trans_eq (hq.currentTerm.trans ht).symm
  · exact hge.trans_eq ht.symm

theorem installSnapshot_term (nd : Node n σ δ) (r : InstallSnapshotRequest n δ) :
    nd.currentTerm ≤ (nd.installSnapshot cfg r).2.term := by
  rcases Nat.lt_or_ge r.term nd.currentTerm with hlt | hge
  · rw [nd.installSnapshot_stale r hlt]
  have hadopt := adoptTerm_currentTerm nd hge
  obtain ⟨-, ht, -, -, -⟩ := adoptTerm_follows nd hge r.leaderId
  have hsave : (((nd.adoptTerm r.term).followLeader r.leaderId).saveMetaIf
      (nd.currentTerm < r.term)).currentTerm = r.term := by
    unfold saveMetaIf
    split <;> exact ht
  unfold installSnapshot
  dsimp only
  rw [if_neg (by omega)]
  split <;> exact hge.trans_eq hsave.symm

/-- What an acknowledgement that reaches a leader of `T` is worth. -/
theorem acks_counted {p q : Fin n} (h : NodeRel cfg a p nd) (hs : Sound term a)
    (hlead : nd.state = .leader) (hin : InputRel cfg a p input) (ht : Timely nd input)
    (hearn : Earned nd input) (hacks : Acks q i input)
    (hnot : (nd.handle cfg p input).1.state = .leader) (hel : a.won nd.currentTerm = some el) :
    el.log.length < a.commit nd.currentTerm ∨ el.log.length < i := by
  -- the leader stayed one, so the answer is of no later term
  have stays : ∀ {peer : Fin n} {term index : ℕ} {success : Bool},
      (nd.begin.replicateReply cfg peer term success index).1.state = .leader →
      term ≤ nd.currentTerm := by
    intro peer term index success hst
    unfold replicateReply at hst
    split at hst
    · cases hst
    · rename_i hlt; exact not_lt.1 hlt
  cases input with
  | appendEntriesReply peer r =>
    obtain ⟨hsucc, -, rfl⟩ := hacks
    have hterm := ht hlead hsucc (stays hnot)
    obtain ⟨-, el', hel', hlt⟩ := hin.2 hsucc
    rw [hterm, hel] at hel'
    cases hel'
    exact .inr hlt
  | installSnapshotReply peer index r =>
    obtain ⟨hsucc, -, rfl⟩ := hacks
    exact .inl (earned_commit h hs hel (hearn hlead hsucc (stays hnot)))
  | _ => cases hacks

variable {a₁ a b : Log n} {T : ℕ}

/-- A step of the reading node keeps what is known. -/
theorem Asking.handled (h : Asking a₁ a p T acked nd) (hg : a.Grows b) (hn : NodeRel cfg a p nd)
    (hs : Sound term a) (hin : InputRel cfg a p input) (ht : Timely nd input)
    (hearn : Earned nd input) : Asking a₁ b p T acked (nd.handle cfg p input).1 := by
  obtain ⟨el, hel, help, hp, hpt, hterm, hcount⟩ := h
  refine ⟨el, hg.won T el hel, help, hp, hpt, hterm, fun hlead hT v hv => ?_⟩
  rcases handle_leader p nd input hlead with ⟨hcur, hst, hm⟩ | ⟨hcur, hst⟩ | hlt
  · have hT' : nd.currentTerm = T := hcur.symm.trans hT
    have hold := hcount hst hT' v hv
    have hmono := hg.commit T
    rcases hold with hold | ⟨k, hk, hlt⟩
    · exact .inl (lt_of_lt_of_le hold hmono)
    rcases hm with hm | ⟨q, i, hacks, hm⟩
    · exact .inr ⟨k, by rw [hm]; exact hk, hlt⟩
    by_cases hvq : v = q
    · subst hvq
      rcases acks_counted hn hs hst hin ht hearn hacks hlead (hT' ▸ hel) with hc | hc
      · rw [hT'] at hc
        exact .inl (lt_of_lt_of_le hc hmono)
      · exact .inr ⟨i, by rw [hm, update_self], hc⟩
    · exact .inr ⟨k, by rw [hm, update_of_ne hvq]; exact hk, hlt⟩
  · -- it cannot win a term it has won already
    exact absurd help ((hn.candidate hst).ahead el (by rw [← hcur, hT]; exact hel))
  · exfalso
    have := (hs.shape.candTerm _ _ _ (hs.shape.wonCand T el hel)).2.1
    rw [help, hn.term] at this
    omega

theorem Asking.grows (h : Asking a₁ a p T acked nd) (hg : a.Grows b) :
    Asking a₁ b p T acked nd := by
  obtain ⟨el, hel, help, hp, hpt, hterm, hcount⟩ := h
  refine ⟨el, hg.won T el hel, help, hp, hpt, hterm, fun hlead hT v hv => ?_⟩
  rcases hcount hlead hT v hv with hc | hc
  · exact .inl (lt_of_lt_of_le hc (hg.commit T))
  · exact .inr hc

/-- A node that follows knows of no acknowledgements. -/
theorem Asking.follower {nd nd' : Node n σ δ} (h : Asking a₁ a p T acked nd) (hg : a.Grows b)
    (hf : nd'.state = .follower) : Asking a₁ b p T acked nd' := by
  obtain ⟨el, hel, help, hp, hpt, hterm, -⟩ := h
  exact ⟨el, hg.won T el hel, help, hp, hpt, hterm, fun hlead => by rw [hf] at hlead; cases hlead⟩

/-- What is known of a read that is still asking, through any step. -/
theorem Asking.step (h : Asking a₁ a p T acked (g.nodes p)) (hr : Rel cfg a g) (hg : a.Grows b)
    (hread : ∃ call ∈ g.reads, call.node = p ∧ call.status = .asking) (ha : Attentive cfg g e)
    (hs : g.step cfg e = some g') : Asking a₁ b p T acked (g'.nodes p) := by
  have hti := ha.1.timely
  cases happens hs with
  | @handled act q input hin =>
    by_cases hq : p = q
    · subst hq
      simp only [setNode, update_self]
      exact h.handled hg (hr.nodes p) hr.sound (hr.input hin) (hti _ hin)
        (earned_of_input ha.2 hin hread)
    · simp only [setNode, update_of_ne hq, settle_nodes]
      exact h.grows hg
  | stood hb =>
    rw [(bystand_stands hb).nodes]
    exact h.grows hg
  | crashed q =>
    by_cases hq : p = q
    · subst hq
      simp only [restart, update_self]
      exact h.follower hg (loadFromStorage_quiet cfg p _).1
    · simp only [restart, update_of_ne hq]
      exact h.grows hg
  | @crashedIn act j q input cp hin hcp =>
    by_cases hq : p = q
    · subst hq
      simp only [restart, update_self]
      exact h.follower hg (loadFromStorage_quiet cfg p _).1
    · simp only [restart, update_of_ne hq, consume_nodes]
      exact h.grows hg

/-- An acknowledgement that is handed on to the reader has moved its match index. -/
theorem replied_true (hok : accepted x.body = true)
    (hout : (nd.handle cfg p (packetInput x)).2 = .replied true) :
    nd.state = .leader ∧ (nd.handle cfg p (packetInput x)).1.state = .leader ∧
      ∃ i, Acks x.src i (packetInput x) ∧ (nd.handle cfg p (packetInput x)).1.matchIndex =
        update nd.matchIndex x.src (some i) := by
  have key : ∀ {peer : Fin n} {term index : ℕ},
      (nd.begin.replicateReply cfg peer term true index).2 = true →
      nd.state = .leader ∧ (nd.begin.replicateReply cfg peer term true index).1.state = .leader ∧
      (nd.begin.replicateReply cfg peer term true index).1.matchIndex =
        update nd.matchIndex peer (some index) := by
    intro peer term index h
    unfold replicateReply at h ⊢
    split at h
    · cases h
    rename_i ht
    split at h
    · cases h
    rename_i hl
    rw [if_neg ht, if_neg hl, if_pos rfl]
    rw [not_not] at hl
    have hq : Node.Quiet { nd.begin with
        nextIndex := update nd.nextIndex peer (some (index + 1))
        matchIndex := update nd.matchIndex peer (some index) }
        (nd.begin.advance cfg peer index) := .updateCommitIndex _
    exact ⟨hl, hq.state.trans hl, hq.matchIndex⟩
  rcases x with ⟨src, dst, body⟩
  cases body with
  | appendResponse read response =>
    obtain ⟨term, success, index⟩ := response
    obtain rfl : success = true := hok
    obtain ⟨hl, hl', hm⟩ := key (Output.replied.inj hout)
    exact ⟨hl, hl', index, ⟨rfl, rfl, rfl⟩, hm⟩
  | snapshotResponse read index response =>
    obtain ⟨term, success⟩ := response
    obtain rfl : success = true := hok
    obtain ⟨hl, hl', hm⟩ := key (Output.replied.inj hout)
    exact ⟨hl, hl', index, ⟨rfl, rfl, rfl⟩, hm⟩
  | _ => cases hok

theorem Asking.counted (h : Asking a₁ a p T acked nd)
    (hstep : Asking a₁ b p T acked (nd.handle cfg p (packetInput x)).1) (hg : a.Grows b)
    (hn : NodeRel cfg a p nd) (hs : Sound term a) (hsrc : x.src ≠ p)
    (hin : InputRel cfg a p (packetInput x)) (ht : Timely nd (packetInput x))
    (hearn : Earned nd (packetInput x)) (hok : accepted x.body = true)
    (hout : (nd.handle cfg p (packetInput x)).2 = .replied true) (hterm : a₁.term x.src ≤ T) :
    Asking a₁ b p T (insert x.src acked) (nd.handle cfg p (packetInput x)).1 := by
  obtain ⟨el, hel, -⟩ := h
  obtain ⟨el', hel', help, hp, hpt, hterms, hcount⟩ := hstep
  cases (hg.won T el hel).symm.trans hel'
  obtain ⟨hlead, hlead', i, hacks, hm⟩ := replied_true hok hout
  refine ⟨el, hel', help, ?_, hpt, ?_, fun hl hT v hv => ?_⟩
  · rw [Finset.mem_insert, not_or]
    exact ⟨hsrc.symm, hp⟩
  · intro v hv
    rcases Finset.mem_insert.1 hv with rfl | hv
    · exact hterm
    · exact hterms v hv
  · rcases Finset.mem_insert.1 hv with rfl | hv
    · have hcur : nd.currentTerm = T := by
        rcases handle_leader p nd _ hlead' with ⟨hcur, -, -⟩ | ⟨-, hst⟩ | hlt
        · exact hcur.symm.trans hT
        · exact absurd (hlead.symm.trans hst) (by decide)
        exfalso
        have := (hs.shape.candTerm _ _ _ (hs.shape.wonCand T el hel)).2.1
        rw [help, hn.term] at this
        omega
      rcases acks_counted hn hs hlead hin ht hearn hacks hlead' (hcur ▸ hel) with hc | hc
      · rw [hcur] at hc
        exact .inl (lt_of_lt_of_le hc (hg.commit T))
      · exact .inr ⟨i, by rw [hm, update_self], hc⟩
    · exact hcount hl hT v hv

/-- A read that is served covers what was chosen when it began. -/
theorem Asking.served (h : Asking a₁ a p T acked nd) (hg : a₁.Grows a)
    (hs₁ : Sound term a₁) (hs : Sound term a) (hn : NodeRel cfg a p nd) {r : ℕ}
    (hout : (nd.handle cfg p (.confirmRead T (1 + acked.card))).2 = .readIndex (some r))
    (hl : Chosen a₁ U l) : l.length ≤ r := by
  obtain ⟨el, hel, -, hp, hpt, hterms, hcount⟩ := h
  simp only [handle, confirmRead] at hout
  split at hout
  · cases hout
  rename_i hlead
  rw [not_or, not_not, not_not] at hlead
  obtain ⟨hlead, rfl⟩ := hlead
  split at hout
  · cases hout
  rename_i hmaj
  cases Output.readIndex.inj hout
  exact confirmed_covers cfg hg hs₁ hs (Progress.begin hs hn).node hlead hel hp (not_lt.1 hmaj)
    (hcount hlead rfl) hterms hpt hl

section

variable {g g' : RaftCluster n σ δ}

/-- The answers on the wire that a read may still count. -/
theorem Reading.wire_step (h : Reading a₁ k p T a g) (hr : Rel cfg a g) (hg : a₁.Grows a)
    (hs : g.step cfg e = some g') (hx : x ∈ g'.wire) (htag : tag x.body = some k) {t : ℕ}
    (ht : answerTerm x.body = some t) : a₁.term x.src ≤ t := by
  have term : ∀ q, a₁.term q ≤ (g.nodes q).currentTerm :=
    fun q => (hg.term q).trans_eq (hr.nodes q).term
  cases happens hs with
  | handled hin =>
    rcases mem_handled_wire hin hx with hx | ⟨i, y, -, hy, hreply⟩
    · exact h.wire x hx htag t ht
    rcases y with ⟨src, dst, body⟩
    rcases packetReply_cases hreply with
      ⟨r, response, hb, -, rfl⟩ | ⟨read, r, response, hb, hout, rfl⟩ |
      ⟨read, r, response, hb, hout, rfl⟩
    · cases ht
    · subst hb
      cases ht
      obtain rfl := Output.append.inj hout
      exact le_trans (term dst) (appendEntries_term (g.nodes dst).begin r)
    · subst hb
      cases ht
      obtain rfl := Output.install.inj hout
      exact le_trans (term dst) (installSnapshot_term (g.nodes dst).begin r)
  | stood hb =>
    rcases (bystand_stands hb).wire x hx with hx | hx
    · exact h.wire x hx htag t ht
    · cases hx <;> cases ht
  | crashed q => exact h.wire x (mem_filter.1 hx).1 htag t ht
  | crashedIn hin hcp => exact h.wire x (mem_restart_wire hx) htag t ht

/-- **Every attentive step keeps what is known of a read.** -/
theorem Reading.step (h : Reading a₁ k p T a g) (htags : Tags g) (hr : Rel cfg a g)
    (hs₁ : Sound term a₁) (hg₁ : a₁.Grows a) (hg : a.Grows b) (ha : Attentive cfg g e)
    (hs : g.step cfg e = some g') : Reading a₁ k p T b g' := by
  refine ⟨?_, fun x hx htag t ht => h.wire_step hr hg₁ hs hx htag ht⟩
  obtain ⟨call, hk, rfl, rfl, hask, hdone⟩ := h.call
  obtain ⟨call', hk', hm⟩ := read_step hs hk
  refine ⟨call', hk', hm.node.1, hm.node.2, ?_⟩
  have hread := fun hst => (⟨call, mem_of_getElem? hk, rfl, hst⟩ :
    ∃ c ∈ g.reads, c.node = call.node ∧ c.status = .asking)
  have hstep := fun hst => (hask hst).step hr hg (hread hst) ha hs
  cases hm with
  | same => exact ⟨hstep, hdone⟩
  | lost => exact ⟨nofun, nofun⟩
  | finished hst hout =>
    refine ⟨nofun, fun r hr' U l hl => ?_⟩
    obtain rfl := ReadStatus.done.inj hr'
    exact (hask hst).served hg₁ hs₁ hr.sound (hr.nodes _) hout hl
  | @counted i x hx htag hok hterm hst hout =>
    refine ⟨fun hst => ?_, fun r hr' => absurd (hst.symm.trans hr') (by simp)⟩
    -- the answer is addressed to the node that reads
    have hmem : x ∈ g.wire := mem_of_getElem? hx
    have hdst : x.dst = call.node := by
      obtain ⟨c, hc, hnode⟩ := htags.wire x hmem k htag
      cases hc.symm.trans hk
      rw [hnode, owner, if_pos]
      rcases x with ⟨src, dst, body⟩
      cases body <;> first | rfl | cases hok
    have hnode : g'.nodes call.node =
        ((g.nodes call.node).handle cfg call.node (packetInput x)).1 := by
      cases happens hs with
      | handled hin =>
        simp only [inputOf, hx, map_some, some.injEq,
          Prod.mk.injEq] at hin
        obtain ⟨rfl, rfl⟩ := hin
        simp only [setNode, hdst, update_self]
      | stood hb => cases hb
    have hin : g.inputOf (.deliver i) = some (call.node, packetInput x) := by
      simp [inputOf, hx, hdst]
    have hnew := hstep hst
    rw [hnode] at hnew ⊢
    rw [hdst] at hout
    exact (hask hst).counted hnew hg (hr.nodes _) hr.sound
      (hdst ▸ (hr.wire x hmem).ne) (hr.input hin) (ha.1.timely _ hin)
      (earned_of_input ha.2 hin (hread hst)) hok hout (h.wire x hmem htag _ hterm)

/-- What is known when a read has just begun. -/
theorem Reading.begin (hr : Rel cfg a g) (htags : Tags g) (hp : peers p ≠ [])
    (hb : g.bystand cfg (.beginRead p) = some g') :
    Reading a g.reads.length p (g.nodes p).currentTerm a g' := by
  obtain ⟨status, hreads, hstatus⟩ := beginRead_reads hb
  have hst := bystand_stands hb
  refine ⟨⟨_, by rw [hreads]; exact getElem?_concat_length, rfl, rfl, ?_, ?_⟩, ?_⟩
  · intro hask
    rcases hstatus with ⟨-, hlead⟩ | hdone | hempty
    · obtain ⟨el, hel, help, -⟩ := ((hr.nodes p).leader hlead).won
      exact ⟨el, hel, help, Finset.notMem_empty p, (hr.nodes p).term.le,
        fun v hv => absurd hv (Finset.notMem_empty v),
        fun _ _ v hv => absurd hv (Finset.notMem_empty v)⟩
    · rw [hdone] at hask; cases hask
    · exact absurd (isEmpty_iff.1 hempty) hp
  · intro r hdone
    rcases hstatus with ⟨hask, -⟩ | hnone | hempty
    · rw [hask] at hdone; cases hdone
    · rw [hnone] at hdone; cases hdone
    · exact absurd (isEmpty_iff.1 hempty) hp
  · -- no tag names a read that has not begun
    intro x hx htag t ht
    exfalso
    rcases hst.wire x hx with hx | hx
    · obtain ⟨call, hc, -⟩ := htags.wire x hx _ htag
      exact absurd (List.getElem?_eq_some_iff.1 hc).1 (lt_irrefl _)
    · cases hx <;> cases ht

end

/-- **ReadIndex.**  In an attentive run, an index a read on a node with peers is served
at is at least everything any node had committed at any moment before the read began. -/
theorem read_index_covers (cfg : Config n σ δ) (es₀ es₁ es₂ : List (Event n))
    (g₀ g₁ g₂ : RaftCluster n σ δ) (p q : Fin n) (call : ReadCall n) (r : ℕ)
    (hp : peers p ≠ [])
    (ha : Along (Attentive cfg) cfg (init cfg)
      (es₀ ++ (es₁ ++ .act (.beginRead p) :: es₂)))
    (h₀ : run cfg (init cfg) es₀ = some g₀)
    (h₁ : run cfg g₀ es₁ = some g₁)
    (h₂ : run cfg g₁ (.act (.beginRead p) :: es₂) = some g₂)
    (hcall : g₂.reads[g₁.reads.length]? = some call) (hdone : call.status = .done (some r)) :
    (g₀.nodes q).commitIndex ≤ r := by
  have orderly : ∀ g e, Attentive cfg g e → Orderly cfg g e := fun _ _ h => h.1
  have ha₁ := ha.right h₀
  have ha₂ := ha₁.right h₁
  obtain ⟨a₀, -, -, hr₀⟩ := (Rel.init cfg).run (ha.left.imp orderly) h₀
  obtain ⟨a₁, -, hg₀, hr₁⟩ := hr₀.run (ha₁.left.imp orderly) h₁
  have htags : Tags g₁ := ((Tags.init cfg).run h₀).run h₁
  -- the read begins
  obtain ⟨g, hs, h₂⟩ := run_cons h₂
  obtain ⟨hP, hrest⟩ := ha₂.cons hs
  obtain ⟨a, -, hg, hr⟩ := hr₁.step hP.1 hs
  have hread : Reading a₁ g₁.reads.length p (g₁.nodes p).currentTerm a g := by
    have hb : g₁.bystand cfg (.beginRead p) = some g := hs
    have hbegin := Reading.begin hr₁ htags hp hb
    refine ⟨?_, hbegin.wire⟩
    obtain ⟨c, hc, hn, ht, hask, hd⟩ := hbegin.call
    exact ⟨c, hc, hn, ht, fun hst => (hask hst).grows hg, hd⟩
  -- and is followed to its end
  obtain ⟨b, -, -, hreads⟩ := hrest.invariant
    (I := fun g => ∃ b, a₁.Grows b ∧ (Rel cfg b g ∧ Tags g) ∧
      Reading a₁ g₁.reads.length p (g₁.nodes p).currentTerm b g)
    (by
      rintro g e g' hP ⟨b, hgb, ⟨hrb, htb⟩, hread⟩ hstep
      obtain ⟨b', -, hgb', hrb'⟩ := hrb.step hP.1 hstep
      exact ⟨b', hgb.trans hgb', ⟨hrb', htb.step hstep⟩,
        hread.step htb hrb hr₁.sound hgb hgb' hP hstep⟩)
    ⟨a, hg, ⟨hr, htags.step hs⟩, hread⟩ h₂
  obtain ⟨c, hc, -, -, -, hcover⟩ := hreads.call
  cases hc.symm.trans hcall
  have hq := (hr₀.nodes q).chosen.grows hg₀
  have := hcover r hdone _ _ hq
  rw [length_take, min_eq_left (hr₀.nodes q).steady.commit_le] at this
  exact this

/-- Node 0 commits three entries with node 1, which hears of two of those commits and
folds them away.  Node 1 wins term 2 with node 2's vote, and backs up until node 2 needs
the snapshot. -/
def behind : List (Event 3) :=
  electing 0 1 0 ++ proposing 0 [1] 0 ++ feeding 0 1 0 ++ feeding 0 1 0 ++ proposing 0 [2] 1 ++
    feeding 0 1 0 ++ electing 1 2 0 ++ feeding 1 2 0 ++ feeding 1 2 0

/-- A read on node 1 is confirmed by node 2's acknowledgement of the snapshot. -/
def snapshotRead : List (Event 3) :=
  [.act (.beginRead 1), .act (.shipSnapshot 0), .act (.deliver 1), .act (.deliver 1),
    .act (.finishRead 0)]

/-- It is served at index 2, when node 0 had committed index 3 before it began. -/
theorem snapshot_ack_reads_stale :
    Election.OneLeaderPerTerm (tapes 3 2) (behind ++ snapshotRead) ∧
    Along (Safety.CommitsOnMajority (tapes 3 2)) (tapes 3 2)
      (init (tapes 3 2)) (behind ++ snapshotRead) ∧
    ∃ g, run (tapes 3 2) (init (tapes 3 2)) behind = some g ∧
      g.reads = [] ∧ (g.nodes 0).commitIndex = 3 ∧
      ∃ g' ∈ run (tapes 3 2) g snapshotRead,
        (g'.reads[0]?).map (·.status) = some (.done (some 2)) := by
  exact ⟨Election.oneLeaderPerTerm (by decide), by decide, Transition.exists_run
    (p := fun g => g.reads.length = 0 ∧ (g.nodes 0).commitIndex = 3 ∧
      ∃ g' ∈ run (tapes 3 2) g snapshotRead,
        (g'.reads[0]?).map (·.status) = some (.done (some 2))) (by decide)
    fun g _ ⟨hreads, hg⟩ => ⟨length_eq_zero_iff.1 hreads, hg⟩⟩

/-- A read on node 0, acknowledged by both its peers: by one of them for entries, by the
other for the snapshot. -/
def quorumRead : List (Event 3) :=
  [.act (.shipSnapshot 0), .act (.deliver 0), .act (.deliver 0), .act (.deliver 0),
    .act (.deliver 0), .act (.finishRead 0)]

theorem read_index_covers_quorumRead :
    ∃ g₀ g₂ call r,
      run (tapes 3 2) (init (tapes 3 2)) Safety.replicated = some g₀ ∧
      run (tapes 3 2) g₀ (.act (.beginRead 0) :: quorumRead) = some g₂ ∧
      g₂.reads[g₀.reads.length]? = some call ∧ call.status = .done (some r) ∧
      (g₀.nodes 0).commitIndex = 2 ∧ (g₀.nodes 0).commitIndex ≤ r := by
  obtain ⟨g₀, h₀, hlen, hc, g₂, h₂, hread⟩ : ∃ g₀,
      run (tapes 3 2) (init (tapes 3 2)) Safety.replicated = some g₀ ∧
      g₀.reads.length = 0 ∧ (g₀.nodes 0).commitIndex = 2 ∧
      ∃ g₂ ∈ run (tapes 3 2) g₀ (.act (.beginRead 0) :: quorumRead),
        (g₂.reads[0]?).map (·.status) = some (.done (some 2)) :=
    exists_of_any (by decide)
  obtain ⟨call, hcall, hdone⟩ := map_eq_some_iff.1 hread
  rw [← hlen] at hcall
  exact ⟨g₀, g₂, call, 2, h₀, h₂, hcall, hdone, hc,
    read_index_covers (tapes 3 2) Safety.replicated [] quorumRead g₀ g₀ g₂ 0 0 call 2
      (by decide) (by decide) h₀ rfl h₂ hcall hdone⟩

end OxideDB.Raft.ReadIndex
