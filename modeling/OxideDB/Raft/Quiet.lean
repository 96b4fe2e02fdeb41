import OxideDB.Raft.Node

/-!
# What the log's machinery leaves alone

Appending, applying, compacting, committing and installing a snapshot move the log
and the machine; they touch neither the role, the term and the vote, nor what the
disk says about them.  `Quiet nd nd'` is that frame, and each block of the node that
belongs to the log's half is proved to be quiet, once.  `Follows` is the other thing
a replication request does: take up its term, and save it.
-/

namespace OxideDB.Raft.Node

variable {T : ℕ}
variable {n : ℕ} {σ δ : Type} {cfg : Config n σ δ} {nd nd' nd'' : Node n σ δ}

/-- The half of a node that elections and peers are about is as it was, in memory and
on disk, and was at every write in between. -/
structure Quiet (nd nd' : Node n σ δ) : Prop where
  state : nd'.state = nd.state
  currentTerm : nd'.currentTerm = nd.currentTerm
  votedFor : nd'.votedFor = nd.votedFor
  votesReceived : nd'.votesReceived = nd.votesReceived
  nextIndex : nd'.nextIndex = nd.nextIndex
  matchIndex : nd'.matchIndex = nd.matchIndex
  disk : nd'.storage.loadMeta = nd.storage.loadMeta
  checkpoints : ∀ cp ∈ nd'.checkpoints, cp ∈ nd.checkpoints ∨
    (cp.storage.loadMeta = nd.storage.loadMeta ∧ cp.currentTerm = nd.currentTerm)

namespace Quiet

theorem refl (nd : Node n σ δ) : Quiet nd nd :=
  ⟨rfl, rfl, rfl, rfl, rfl, rfl, rfl, fun _ h => .inl h⟩

theorem trans (h : Quiet nd nd') (h' : Quiet nd' nd'') : Quiet nd nd'' where
  state := h'.state.trans h.state
  currentTerm := h'.currentTerm.trans h.currentTerm
  votedFor := h'.votedFor.trans h.votedFor
  votesReceived := h'.votesReceived.trans h.votesReceived
  nextIndex := h'.nextIndex.trans h.nextIndex
  matchIndex := h'.matchIndex.trans h.matchIndex
  disk := h'.disk.trans h.disk
  checkpoints cp hcp := by
    rcases h'.checkpoints cp hcp with hcp | ⟨hm, ht⟩
    · exact h.checkpoints cp hcp
    · exact .inr ⟨hm.trans h.disk, ht.trans h.currentTerm⟩

/-- Whatever leaves these eight fields alone is quiet. -/
theorem of_eq (hs : nd'.state = nd.state) (ht : nd'.currentTerm = nd.currentTerm)
    (hv : nd'.votedFor = nd.votedFor) (hr : nd'.votesReceived = nd.votesReceived)
    (hn : nd'.nextIndex = nd.nextIndex) (hm : nd'.matchIndex = nd.matchIndex)
    (hst : nd'.storage = nd.storage) (hc : nd'.checkpoints = nd.checkpoints) : Quiet nd nd' :=
  ⟨hs, ht, hv, hr, hn, hm, by rw [hst], fun _ h => .inl (hc ▸ h)⟩

section

variable (nd : Node n σ δ)

theorem begin : Quiet nd nd.begin where
  state := rfl
  currentTerm := rfl
  votedFor := rfl
  votesReceived := rfl
  nextIndex := rfl
  matchIndex := rfl
  disk := rfl
  checkpoints cp hcp := by
    rw [List.mem_singleton.1 hcp]
    exact .inr ⟨rfl, rfl⟩

/-- A write that is not `save_meta`. -/
theorem write {f : EngineRaftStorage n δ → EngineRaftStorage n δ}
    (hf : ∀ st, (f st).loadMeta = st.loadMeta) : Quiet nd (nd.write f) where
  state := rfl
  currentTerm := rfl
  votedFor := rfl
  votesReceived := rfl
  nextIndex := rfl
  matchIndex := rfl
  disk := hf _
  checkpoints cp hcp := by
    rcases List.mem_append.1 hcp with hcp | hcp
    · exact .inl hcp
    · rw [List.mem_singleton.1 hcp]
      exact .inr ⟨hf _, rfl⟩

theorem saveLogEntry (e : LogEntry) : Quiet nd (nd.saveLogEntry e) :=
  write nd fun _ => rfl

theorem saveLogTruncate (i : ℕ) : Quiet nd (nd.saveLogTruncate i) :=
  write nd fun _ => rfl

theorem saveCommitIndex : Quiet nd nd.saveCommitIndex :=
  write nd fun _ => rfl

theorem append (e : LogEntry) : Quiet nd (nd.append e) := by
  refine Quiet.trans ?_ (saveLogEntry _ e)
  exact of_eq rfl rfl rfl rfl rfl rfl rfl rfl

theorem storeSnapshot (s : Snapshot δ) : Quiet nd (nd.storeSnapshot s) :=
  (write nd (f := (·.saveSnapshot s)) fun _ => rfl).trans
    (write _ (f := (·.compactLog s.index)) fun _ => rfl)

theorem compact (term : ℕ) (data : δ) : Quiet nd (nd.compact term data) :=
  (storeSnapshot nd _).trans (of_eq rfl rfl rfl rfl rfl rfl rfl rfl)

end

theorem applyCommittedEntries (cfg : Config n σ δ) (nd : Node n σ δ) :
    Quiet nd (nd.applyCommittedEntries cfg) := by
  obtain ⟨m, rs, heq⟩ := applyNext_iterate cfg (nd.commitIndex - nd.lastApplied) nd
  rw [Node.applyCommittedEntries, heq]
  refine maybeSnapshot_cases ?_ ?_ fun _ _ _ _ => Quiet.trans ?_ (compact _ _ _)
  all_goals exact of_eq rfl rfl rfl rfl rfl rfl rfl rfl

theorem commitTo (cfg : Config n σ δ) (nd : Node n σ δ) (i : ℕ) : Quiet nd (nd.commitTo cfg i) := by
  refine Quiet.trans ?_ (applyCommittedEntries cfg _)
  refine Quiet.trans ?_ (saveCommitIndex _)
  exact of_eq rfl rfl rfl rfl rfl rfl rfl rfl

section

variable (nd : Node n σ δ)

theorem updateCommitIndex : Quiet nd (nd.updateCommitIndex cfg) := by
  rcases updateCommitIndex_moves cfg nd with heq | ⟨-, i, -, -, -, -, -, heq⟩ <;> rw [heq]
  · exact refl nd
  · exact commitTo cfg nd i

theorem appendNoopEntry : Quiet nd (nd.appendNoopEntry cfg) :=
  (append nd _).trans (updateCommitIndex _)

theorem truncateFrom (i : ℕ) : Quiet nd (nd.truncateFrom i) := by
  have hcut : Quiet nd (Node.saveLogTruncate
      { nd with log := nd.log.take (i - nd.lastIncludedIndex - 1) } i) := by
    refine Quiet.trans ?_ (saveLogTruncate _ i)
    exact of_eq rfl rfl rfl rfl rfl rfl rfl rfl
  exact hcut.trans (of_eq rfl rfl rfl rfl rfl rfl rfl rfl)

theorem absorbEntry (e : LogEntry) : Quiet nd (nd.absorbEntry e) :=
  absorbEntry_cases (fun _ => refl nd) (fun _ _ => append nd e)
    fun _ _ _ => (truncateFrom nd _).trans (append _ e)

end

theorem absorbEntries (es : List LogEntry) (nd : Node n σ δ) :
    Quiet nd (es.foldl Node.absorbEntry nd) := by
  induction es generalizing nd with
  | nil => exact refl nd
  | cons e es ih => exact (absorbEntry nd e).trans (ih _)

theorem followCommit (nd : Node n σ δ) (i : ℕ) : Quiet nd (nd.followCommit cfg i) := by
  unfold Node.followCommit
  split
  · exact commitTo cfg nd _
  · exact refl nd

theorem replaceState (cfg : Config n σ δ) (nd : Node n σ δ) (s : Snapshot δ) :
    Quiet nd (nd.replaceState cfg s) := by
  refine Quiet.trans ?_ (saveCommitIndex _)
  exact (storeSnapshot nd s).trans (of_eq rfl rfl rfl rfl rfl rfl rfl rfl)

theorem proposeCommand (nd : Node n σ δ) (command : Bytes) :
    Quiet nd (nd.proposeCommand cfg command).1 := by
  unfold Node.proposeCommand
  split
  · exact refl nd
  · exact (append nd _).trans (updateCommitIndex _)

theorem confirmRead (nd : Node n σ δ) (term acks : ℕ) :
    Quiet nd (nd.confirmRead cfg term acks).1 := by
  unfold Node.confirmRead
  split
  · exact refl nd
  split
  · exact refl nd
  · exact updateCommitIndex nd

end Quiet

/-! ## Taking up the term of a request -/

/-- What a replication request of a term that is not old does: the node follows, in
the request's term; a new term clears the vote, and is on disk before the answer. -/
structure Follows (nd : Node n σ δ) (T : ℕ) (nd' : Node n σ δ) : Prop where
  state : nd'.state = .follower
  currentTerm : nd'.currentTerm = T
  votedFor : nd'.votedFor = if nd.currentTerm < T then none else nd.votedFor
  disk : nd'.storage.loadMeta =
    if nd.currentTerm < T then (T, none) else nd.storage.loadMeta
  checkpoints : ∀ cp ∈ nd'.checkpoints, cp ∈ nd.checkpoints ∨
    cp.storage.loadMeta = nd.storage.loadMeta ∨
    (nd.currentTerm < T ∧ cp.storage.loadMeta = (T, none))

theorem Follows.quiet (h : Follows nd T nd') (hq : Quiet nd' nd'') :
    Follows nd T nd'' where
  state := hq.state.trans h.state
  currentTerm := hq.currentTerm.trans h.currentTerm
  votedFor := hq.votedFor.trans h.votedFor
  disk := hq.disk.trans h.disk
  checkpoints cp hcp := by
    rcases hq.checkpoints cp hcp with hcp | ⟨hm, -⟩
    · exact h.checkpoints cp hcp
    rw [hm, h.disk]
    split
    · rename_i hlt; exact .inr (.inr ⟨hlt, rfl⟩)
    · exact .inr (.inl rfl)

theorem adoptTerm_currentTerm (nd : Node n σ δ) (hT : nd.currentTerm ≤ T) :
    (nd.adoptTerm T).currentTerm = T := by
  unfold adoptTerm
  split
  · rfl
  · omega

theorem adoptTerm_follows (nd : Node n σ δ) (hT : nd.currentTerm ≤ T) (leader : Fin n) :
    let nd' := (nd.adoptTerm T).followLeader leader
    nd'.state = .follower ∧ nd'.currentTerm = T ∧
    nd'.votedFor = (if nd.currentTerm < T then none else nd.votedFor) ∧
    nd'.storage = nd.storage ∧ nd'.checkpoints = nd.checkpoints := by
  unfold adoptTerm followLeader
  by_cases hlt : nd.currentTerm < T
  · simp [hlt]
  · have : nd.currentTerm = T := by omega
    by_cases hs : nd.state = .follower <;> simp [hs, this]

/-- Once the term is saved, the request has been followed. -/
theorem saveMetaIf_follows (nd : Node n σ δ) (hT : nd.currentTerm ≤ T) (leader : Fin n)
    {nd' : Node n σ δ} (hq : Quiet ((nd.adoptTerm T).followLeader leader) nd') :
    Follows nd T (nd'.saveMetaIf (nd.currentTerm < T)) := by
  obtain ⟨hs, ht, hv, hst, hc⟩ := adoptTerm_follows nd hT leader
  have hold : ∀ cp ∈ nd'.checkpoints, cp ∈ nd.checkpoints ∨
      cp.storage.loadMeta = nd.storage.loadMeta := by
    intro cp hcp
    rcases hq.checkpoints cp hcp with hcp | ⟨hm, -⟩
    · exact .inl (hc ▸ hcp)
    · exact .inr (by rw [hm, hst])
  unfold saveMetaIf
  by_cases hlt : nd.currentTerm < T
  · simp only [hlt, decide_true, if_true]
    have hterm : nd'.currentTerm = T := hq.currentTerm.trans ht
    have hvote : nd'.votedFor = none := by rw [hq.votedFor, hv, if_pos hlt]
    refine ⟨hq.state.trans hs, hterm, ?_, ?_, ?_⟩
    · rw [if_pos hlt]; exact hvote
    · simp [saveMeta, write, EngineRaftStorage.saveMeta, EngineRaftStorage.loadMeta, hterm,
        hvote, hlt]
    intro cp hcp
    rcases List.mem_append.1 hcp with hcp | hcp
    · rcases hold cp hcp with h | h
      · exact .inl h
      · exact .inr (.inl h)
    · refine .inr (.inr ⟨hlt, ?_⟩)
      rw [List.mem_singleton.1 hcp]
      simp [EngineRaftStorage.saveMeta, EngineRaftStorage.loadMeta, hterm, hvote]
  · simp only [hlt, decide_false, Bool.false_eq_true, if_false]
    refine ⟨hq.state.trans hs, hq.currentTerm.trans ht, ?_, ?_, ?_⟩
    · rw [hq.votedFor, hv]
    · rw [hq.disk, hst, if_neg hlt]
    intro cp hcp
    rcases hold cp hcp with h | h
    · exact .inl h
    · exact .inr (.inl h)

section

variable (nd : Node n σ δ)

/-- `append_entries`, as far as elections go. -/
theorem appendEntries_follows (r : AppendEntriesRequest n) (hT : nd.currentTerm ≤ r.term) :
    Follows nd r.term (nd.appendEntries cfg r).1 := by
  have hadopt := adoptTerm_currentTerm nd hT
  unfold appendEntries
  dsimp only
  rw [if_neg (by omega)]
  split
  · refine Follows.quiet ?_ (Quiet.followCommit _ _)
    exact saveMetaIf_follows nd hT r.leaderId (Quiet.absorbEntries _ _)
  · exact saveMetaIf_follows nd hT r.leaderId (Quiet.refl _)

/-- A request of an old term changes nothing. -/
theorem appendEntries_stale (r : AppendEntriesRequest n) (hT : r.term < nd.currentTerm) :
    nd.appendEntries cfg r = (nd, ⟨nd.currentTerm, false, 0⟩) := by
  have : ¬ nd.currentTerm < r.term := by omega
  simp [appendEntries, adoptTerm, this, hT, saveMetaIf]

/-- `install_snapshot`, as far as elections go. -/
theorem installSnapshot_follows (r : InstallSnapshotRequest n δ) (hT : nd.currentTerm ≤ r.term) :
    Follows nd r.term (nd.installSnapshot cfg r).1 := by
  have hadopt := adoptTerm_currentTerm nd hT
  have hf := saveMetaIf_follows nd hT r.leaderId (Quiet.refl _)
  unfold installSnapshot
  dsimp only
  rw [if_neg (by omega)]
  split
  · exact hf
  · exact hf.quiet (Quiet.replaceState cfg _ _)

theorem installSnapshot_stale (r : InstallSnapshotRequest n δ) (hT : r.term < nd.currentTerm) :
    nd.installSnapshot cfg r = (nd, ⟨nd.currentTerm, false⟩) := by
  have : ¬ nd.currentTerm < r.term := by omega
  simp [installSnapshot, adoptTerm, this, hT, saveMetaIf]

/-! ## Votes -/

/-- Either `request_vote` refuses, or it grants in the request's term. -/
theorem requestVote_cases (r : RequestVoteRequest n) :
    nd.requestVote r = (nd.raiseTerm r.term, ⟨(nd.raiseTerm r.term).currentTerm, false⟩) ∨
    ((nd.raiseTerm r.term).currentTerm = r.term ∧
      ((nd.raiseTerm r.term).votedFor = none ∨
        (nd.raiseTerm r.term).votedFor = some r.candidateId) ∧
      nd.logOk r.lastLogIndex r.lastLogTerm ∧
      nd.requestVote r = (saveMeta { nd.raiseTerm r.term with votedFor := some r.candidateId },
        ⟨r.term, true⟩)) := by
  have hle : r.term ≤ (nd.raiseTerm r.term).currentTerm := by
    unfold raiseTerm
    split
    · exact le_rfl
    · omega
  unfold requestVote
  dsimp only
  split
  · exact .inl rfl
  rename_i hlt
  split
  · rename_i hgrant
    have heq : (nd.raiseTerm r.term).currentTerm = r.term := by omega
    exact .inr ⟨heq, hgrant.1, hgrant.2, by rw [heq]⟩
  · exact .inl rfl

end

/-- What a restart puts back of the half elections are about. -/
theorem loadFromStorage_quiet (cfg : Config n σ δ) (me : Fin n) (st : EngineRaftStorage n δ) :
    let nd := loadFromStorage cfg me st
    nd.state = .follower ∧ nd.currentTerm = st.loadMeta.1 ∧ nd.votedFor = st.loadMeta.2 ∧
    nd.storage.loadMeta = st.loadMeta ∧ nd.matchIndex = fun _ => none := by
  have hq := Quiet.applyCommittedEntries cfg (begin { loadState cfg me st with
    commitIndex := max (min st.loadCommitIndex (loadState cfg me st).lastLogIndex)
      (loadState cfg me st).lastApplied })
  have hload : (loadState cfg me st).state = .follower ∧
      (loadState cfg me st).currentTerm = st.loadMeta.1 ∧
      (loadState cfg me st).votedFor = st.loadMeta.2 ∧ (loadState cfg me st).storage = st ∧
      (loadState cfg me st).matchIndex = fun _ => none := by
    unfold loadState
    dsimp only
    split <;> exact ⟨rfl, rfl, rfl, rfl, rfl⟩
  obtain ⟨hs, ht, hv, hst, hm⟩ := hload
  exact ⟨hq.state.trans hs, hq.currentTerm.trans ht, hq.votedFor.trans hv,
    hq.disk.trans (congrArg _ hst), hq.matchIndex.trans hm⟩

end OxideDB.Raft.Node
