import OxideDB.Raft.Refinement

/-!
# Following a leader

The two replication handlers as moves of the ledger.  What `append_entries` checks is
less than the protocol asks for: nothing below the node's snapshot is compared, and
the match index it answers with is its own last index.  Both are made good by leader
completeness — what lies below the snapshot is committed, and a log that contains an
entry of the leader's term contains nothing that is not the leader's.
-/

namespace OxideDB.Raft

open Consensus (Election Sound Moves Merge lastTerm Valid)

variable {n : ℕ} {σ δ : Type} {cfg : Config n σ δ}

namespace Node

variable {nd nd' : Node n σ δ}

/-- The snapshot goes with what the log holds above it: nothing, or the continuation
of the very entry the snapshot ends with. -/
def Fits (nd : Node n σ δ) (s : Snapshot δ) : Prop :=
  (∀ e ∈ nd.log, e.index ≤ s.index) ∨ ∃ e ∈ nd.entryAt s.index, e.term = s.term

instance (nd : Node n σ δ) (s : Snapshot δ) : Decidable (nd.Fits s) :=
  inferInstanceAs (Decidable (_ ∨ _))

theorem SameLog.fits (hs : nd.SameLog nd') {s : Snapshot δ} (h : nd.Fits s) : nd'.Fits s := by
  unfold Fits entryAt at h ⊢
  rwa [hs.log, hs.lastIncludedIndex]

end Node

variable {r : AppendEntriesRequest n}

namespace Progress

variable {a₀ a : Log n} {p : Fin n} {nd nd' : Node n σ δ}

/-- An acknowledgement changes nothing at the node. -/
theorem acknowledge (h : Progress cfg a₀ p a nd) {k : ℕ} (hk : k ≤ (a.reign nd.currentTerm).length)
    (hlog : (a.reign nd.currentTerm).take k <+: nd.fullLog) :
    Progress cfg a₀ p (a.acknowledge p nd.currentTerm k) nd := by
  have hm : Moves LogEntry.term p a (a.acknowledge p nd.currentTerm k) :=
    .step h.moves.sound (.ack p _ k h.node.term.le hk (h.node.log ▸ hlog)) (.acknowledge _ _ _)
  exact ⟨h.moves.trans hm, { h.node with
    term := Function.update_self ..
    chosen := h.node.chosen.grows hm.grows
    candidate := fun hs => { h.node.candidate hs with }
    leader := fun hs => { h.node.leader hs with
      acks := fun q k hq => le_trans ((h.node.leader hs).acks q k hq) (hm.grows.ack q _) } },
    h.crash⟩

variable {el : Election (Fin n) LogEntry}

/-- A follower may accept a prefix of the log of its term; what it knows to be
committed survives. -/
theorem canHold_accept (h : Progress cfg a₀ p a nd) {m l : List LogEntry}
    (hm : m <+: a.reign nd.currentTerm) (hmerge : Merge nd.fullLog m l)
    (hel : a.won nd.currentTerm = some el) : CanHold a p l nd.commitIndex := by
  have hmove : Moves LogEntry.term p a (a.adopt p nd.currentTerm l) :=
    .step h.moves.sound (.accept p _ m l h.node.term.le hm (h.node.log ▸ hmerge)) (.adopt _ _ _)
  have hpre := h.node.chosen.prefix_reign h.moves.sound hel
  have hkeep := hmerge.keeps hm (List.take_prefix nd.commitIndex _) hpre
  have htake : l.take nd.commitIndex = nd.fullLog.take nd.commitIndex := by
    rw [List.prefix_iff_eq_take.1 hkeep, List.length_take,
      min_eq_left h.node.steady.commit_le]
  refine ⟨_, hmove, ?_, rfl, Function.update_self .., ?_⟩
  · rw [h.node.term]; exact Function.update_self ..
  · rw [htake, h.node.term]; exact h.node.chosen.grows hmove.grows

/-! ## `append_entries` -/

variable {m : List LogEntry}

theorem sent_won (hs : Sound LogEntry.term a) (hr : Sent a r m) : ∃ el, a.won r.term = some el := by
  obtain ⟨e, he, ht⟩ := hr.ownTerm
  obtain ⟨k, hk⟩ := List.getElem?_of_mem he
  obtain ⟨el, hel⟩ := hs.shape.won_of_mem ((hs.shape.reignValid _).of_isPrefix hr.reign) hk
  exact ⟨el, ht ▸ hel⟩

section

variable (h : NodeRel cfg a p nd) (hs : Sound LogEntry.term a)
include h hs

/-- The leader's log and the node's agree wherever they have an entry of one term. -/
theorem matching {T : ℕ} (hm : m <+: a.reign T) (k : ℕ) (x y : LogEntry)
    (hx : nd.fullLog[k]? = some x) (hy : m[k]? = some y) (ht : x.term = y.term) :
    nd.fullLog.take (k + 1) = m.take (k + 1) :=
  Valid.matching (h.log ▸ hs.shape.logValid p) ((hs.shape.reignValid T).of_isPrefix hm) hx hy ht

/-- The leader's log and what the node knows to be committed are one log. -/
theorem take_commit_agrees (hm : m <+: a.reign nd.currentTerm)
    (hel : a.won nd.currentTerm = some el) {i : ℕ} (hi : i ≤ nd.commitIndex) :
    m.take i <+: nd.fullLog := by
  have hpre := h.chosen.prefix_reign hs hel
  have hlen : (m.take i).length ≤ (nd.fullLog.take nd.commitIndex).length := by
    rw [List.length_take, List.length_take]
    have := h.steady.commit_le
    omega
  exact (List.prefix_of_prefix_length_le ((m.take_prefix i).trans hm) hpre hlen).trans
    (List.take_prefix _ _)

/-- **The consistency check.**  If it passes, the node has the leader's log up to
`prevLogIndex`. -/
theorem prev_agrees (hr : Sent a r m) (hterm : nd.currentTerm = r.term)
    (hok : nd.prevMatches r.prevLogIndex r.prevLogTerm = true) :
    m.take r.prevLogIndex <+: nd.fullLog ∧ r.prevLogIndex ≤ nd.fullLog.length := by
  obtain ⟨el, hel⟩ := sent_won hs hr
  have hprev := hr.prev_le
  unfold Node.prevMatches at hok
  split at hok
  · cases hok
  rename_i hle
  rw [h.steady.lastLogIndex_eq] at hle
  refine ⟨?_, by omega⟩
  by_cases hb : r.prevLogIndex ≤ nd.lastIncludedIndex
  · -- nothing is compared below the snapshot, and nothing needs to be
    rw [← hterm] at hel
    exact take_commit_agrees h hs (hterm ▸ hr.reign) hel
      (le_trans hb (le_trans h.steady.base_le h.steady.applied_le))
  · have hx : nd.fullLog[r.prevLogIndex - 1]? = some nd.fullLog[r.prevLogIndex - 1] :=
      List.getElem?_eq_getElem (by omega)
    have hy : m[r.prevLogIndex - 1]? = some m[r.prevLogIndex - 1] :=
      List.getElem?_eq_getElem (by omega)
    rw [h.steady.entryAt_eq (by omega), hx] at hok
    have ht : (nd.fullLog[r.prevLogIndex - 1]).term = (m[r.prevLogIndex - 1]).term := by
      rw [of_decide_eq_true hok, hr.prevTerm]
      exact Node.lastTerm_take (by omega) hy
    have hsame := matching h hs hr.reign _ _ _ hx hy ht
    rw [Nat.sub_add_cancel (by omega)] at hsame
    rw [← hsame]
    exact List.take_prefix _ _

end

section

variable {r : AppendEntriesRequest n}

/-- The entries above `prevLogIndex` are taken over, one write at a time. -/
theorem absorbEntries (h : Progress cfg a₀ p a nd) (hf : nd.state = .follower) (hr : Sent a r m)
    (hterm : nd.currentTerm = r.term) (hok : nd.prevMatches r.prevLogIndex r.prevLogTerm = true) :
    ∃ b, Moves LogEntry.term p a b ∧ Progress cfg a₀ p b (r.entries.foldl Node.absorbEntry nd) ∧
      m <+: (r.entries.foldl Node.absorbEntry nd).fullLog := by
  have hs := h.moves.sound
  obtain ⟨el, hel⟩ := sent_won hs hr
  obtain ⟨hprev, hlen⟩ := prev_agrees h.node hs hr hterm hok
  have hreign : m <+: a.reign nd.currentTerm := hterm ▸ hr.reign
  have hel' : a.won nd.currentTerm = some el := hterm ▸ hel
  have hagree := fun {i} => take_commit_agrees h.node hs hreign hel' (i := i)
  have hbase : m.take nd.lastIncludedIndex <+: nd.fullLog :=
    hagree (le_trans h.node.steady.base_le h.node.steady.applied_le)
  have hmatch := matching h.node hs hr.reign
  have hkeep : nd.KeepsCommitted r.entries := by
    intro e he hle x hx
    rw [hr.entries] at he
    obtain ⟨k, hk⟩ := List.getElem?_of_mem he
    rw [List.getElem?_drop] at hk
    have hidx := hr.numbered _ e hk
    have hxe : nd.fullLog[e.index - 1]? = some e := by
      refine Consensus.prefix_getElem? (hagree hle) ?_
      rw [List.getElem?_take_of_lt (by omega)]
      rwa [hidx, Nat.zero_add, Nat.add_sub_cancel]
    by_cases hlt : nd.lastIncludedIndex < e.index
    · rw [h.node.steady.entryAt_eq hlt, hxe] at hx
      rw [Option.some.inj hx]
    · rw [Node.Steady.entryAt_none _ (by omega)] at hx
      cases hx
  have hes : Numbered r.prevLogIndex r.entries := by
    rw [hr.entries]
    simpa using hr.numbered.drop r.prevLogIndex
  obtain ⟨hl, hfull, -, -⟩ := Node.absorbEntries_leads
    (S := fun l c => c = nd.commitIndex ∧ Merge nd.fullLog m l) h.node.steady hes hlen hkeep
    (fun k => ⟨rfl, by
      rw [hr.entries]
      exact absorb_merge hr.numbered hprev hbase hmatch hr.prev_le k⟩)
    (fun k e he _ x hx hne => ⟨rfl, by
      rw [hr.entries] at he hx ⊢
      exact absorb_cut hr.numbered hprev hbase hmatch he hx hne⟩)
  obtain ⟨b, hm, hp⟩ := h.follow hf (.absorbEntries _ _) hl (by
    rintro l c ⟨rfl, hmerge⟩
    exact h.canHold_accept hreign hmerge hel')
  refine ⟨b, hm, hp, ?_⟩
  rw [hfull, hr.entries]
  exact absorb_all hr.numbered hprev hbase hmatch hr.prev_le

/-- Where the log of a follower begins with a leader's, it may follow the leader's
commit index. -/
theorem followCommit (cfg : Config n σ δ) (h : Progress cfg a₀ p a nd) (hf : nd.state = .follower)
    (hr : Sent a r m) (hterm : nd.currentTerm = r.term) (hm : m <+: nd.fullLog) :
    ∃ b, Moves LogEntry.term p a b ∧ Progress cfg a₀ p b (nd.followCommit cfg r.leaderCommit) ∧
      (nd.followCommit cfg r.leaderCommit).fullLog = nd.fullLog := by
  unfold Node.followCommit
  split
  swap
  · exact ⟨a, .refl h.moves.sound p, h, rfl⟩
  rename_i hlt
  have hlen := hm.length_le
  have hcl := hr.commit_le
  rw [h.node.steady.lastLogIndex_eq, min_eq_left (by omega)]
  obtain ⟨hl, -⟩ := Node.commitTo_leads cfg h.node.steady hlt.le (by omega)
  have htake : nd.fullLog.take r.leaderCommit = m.take r.leaderCommit := by
    obtain ⟨t, ht⟩ := hm
    rw [← ht, List.take_append_of_le_length hcl]
  obtain ⟨b, hb, hp⟩ := h.follow hf (.commitTo cfg _ _) hl (by
    rintro l c ⟨rfl, rfl⟩
    refine ⟨a, .refl h.moves.sound p, rfl, rfl, h.node.log, ?_⟩
    rw [htake, h.node.term, hterm]
    exact hr.chosen)
  exact ⟨b, hb, hp, hl.holds.1⟩

/-- A log that begins with a leader's is all of it acknowledged: an entry of the
leader's own term is in it, so nothing in it is anybody else's. -/
theorem acknowledgeAll (h : Progress cfg a₀ p a nd) (hr : Sent a r m)
    (hterm : nd.currentTerm = r.term) (hm : m <+: nd.fullLog) :
    ∃ b, Progress cfg a₀ p b nd ∧ nd.fullLog.length ≤ b.ack p r.term ∧
      ∃ el, b.won r.term = some el ∧ el.log.length < nd.fullLog.length := by
  obtain ⟨e, he, ht⟩ := hr.ownTerm
  obtain ⟨el, hel⟩ := sent_won h.moves.sound hr
  have hreign : nd.fullLog <+: a.reign nd.currentTerm := by
    rw [← h.node.log, ← h.node.term]
    refine h.moves.sound.log_prefix_reign (e := e) ?_ ?_
    · rw [h.node.log]; exact hm.subset he
    · rw [ht, h.node.term, hterm]
  refine ⟨_, h.acknowledge hreign.length_le ?_, ?_, el, hel, ?_⟩
  · rw [← List.prefix_iff_eq_take.1 hreign]
  · rw [hterm, Consensus.Shape.acknowledge_ack, if_pos ⟨rfl, rfl⟩]
    exact le_max_right _ _
  · rw [hterm] at hreign
    exact h.moves.sound.election_length_lt hreign (hm.subset he) ht hel

/-- **`append_entries`.**  A success acknowledges the node's whole log in the
leader's term. -/
theorem appendEntries (cfg : Config n σ δ) (h : Progress cfg a₀ p a nd) (hr : Sent a r m) :
    ∃ b, Progress cfg a₀ p b (nd.appendEntries cfg r).1 ∧
      ((nd.appendEntries cfg r).2.success = true →
        (nd.appendEntries cfg r).2.matchIndex ≤ b.ack p (nd.appendEntries cfg r).2.term ∧
        ∃ el, b.won (nd.appendEntries cfg r).2.term = some el ∧
          el.log.length < (nd.appendEntries cfg r).2.matchIndex) := by
  rcases Nat.lt_or_ge r.term nd.currentTerm with hlt | hge
  · rw [nd.appendEntries_stale r hlt]
    exact ⟨a, h, nofun⟩
  obtain ⟨hs, ht, -, -, -⟩ := Node.adoptTerm_follows nd hge r.leaderId
  obtain ⟨b, hm, hp, -⟩ := h.adopt hge r.leaderId
  have hadopt := Node.adoptTerm_currentTerm nd hge
  unfold Node.appendEntries
  dsimp only
  rw [if_neg (by omega)]
  split
  swap
  · exact ⟨b, hp.saveMetaIf _, nofun⟩
  rename_i hok
  set nd₁ := (nd.adoptTerm r.term).followLeader r.leaderId with hnd₁
  obtain ⟨b₁, hm₁, hp₁, hpre⟩ := hp.absorbEntries hs (hr.grows hm.grows) ht hok
  have hq := Node.Quiet.absorbEntries r.entries nd₁
  set nd₂ := (r.entries.foldl Node.absorbEntry nd₁).saveMetaIf (nd.currentTerm < r.term) with hnd₂
  have hsame : (r.entries.foldl Node.absorbEntry nd₁).SameLog nd₂ := by
    rw [hnd₂, Node.saveMetaIf]
    split
    · exact .saveMeta _
    · constructor <;> rfl
  have hrole : nd₂.state = .follower ∧ nd₂.currentTerm = r.term := by
    rw [hnd₂, Node.saveMetaIf]
    split <;> exact ⟨hq.state.trans hs, hq.currentTerm.trans ht⟩
  have hp₂ : Progress cfg a₀ p b₁ nd₂ := hp₁.saveMetaIf _
  rw [← hsame.fullLog_eq] at hpre
  have hr₁ := (hr.grows hm.grows).grows hm₁.grows
  obtain ⟨b₂, hm₂, hp₃, hfull⟩ := hp₂.followCommit cfg hrole.1 hr₁ hrole.2 hpre
  have hlast : nd₂.lastLogIndex = (nd₂.followCommit cfg r.leaderCommit).fullLog.length := by
    rw [hfull, hp₂.node.steady.lastLogIndex_eq]
  have hterm : (nd₂.followCommit cfg r.leaderCommit).currentTerm = r.term :=
    (Node.Quiet.followCommit nd₂ _).currentTerm.trans hrole.2
  obtain ⟨b₃, hp₄, hack, hwon⟩ := hp₃.acknowledgeAll (hr₁.grows hm₂.grows) hterm
    (hfull.symm ▸ hpre)
  refine ⟨b₃, hp₄, fun _ => ?_⟩
  rw [hlast, hrole.2]
  exact ⟨hack, hwon⟩

end

/-! ## `install_snapshot` -/

variable {r : InstallSnapshotRequest n δ}

/-- A snapshot that is not empty comes from a term somebody won. -/
theorem shipped_won (hs : Sound LogEntry.term a) (hr : Shipped cfg a r)
    (hpos : 0 < r.snapshot.index) : ∃ el, a.won r.term = some el := by
  rcases hw : a.won r.term with _ | el
  · have hreign := hr.reign
    have hlen := hr.sane.length
    rw [hs.shape.unwon _ hw, List.prefix_nil] at hreign
    rw [hreign, List.length_nil] at hlen
    omega
  · exact ⟨el, rfl⟩

section

variable (h : NodeRel cfg a p nd) (hs : Sound LogEntry.term a) (hr : Shipped cfg a r)
include h hs hr

/-- What the snapshot and the log above it make is a log that accepting the snapshot
may leave. -/
theorem snapshot_merge (hnew : nd.lastApplied < r.snapshot.index) (hfit : nd.Fits r.snapshot) :
    Merge nd.fullLog r.snapshot.history
      (r.snapshot.history ++ nd.fullLog.drop r.snapshot.index) := by
  have hlen := hr.sane.length
  rcases hfit with hshort | ⟨e, he, ht⟩
  · -- nothing lies above the snapshot
    have hle : nd.fullLog.length ≤ r.snapshot.index := by
      rw [← h.steady.lastLogIndex_eq, Node.lastLogIndex]
      split
      · rename_i e he
        exact hshort e (List.mem_of_getLast? he)
      · exact le_trans h.steady.base_le hnew.le
    rw [List.drop_eq_nil_of_le hle, List.append_nil]
    by_cases hp : r.snapshot.history <+: nd.fullLog
    · rw [hp.eq_of_length_le (by omega)]
      exact .refl _ _
    · exact .inr ⟨List.prefix_rfl, hp, fun x _ hx => hx⟩
  · -- the node's own log has the snapshot in it
    have hbase : nd.lastIncludedIndex < r.snapshot.index :=
      lt_of_le_of_lt h.steady.base_le hnew
    rw [h.steady.entryAt_eq hbase] at he
    obtain ⟨y, hy⟩ : ∃ y, r.snapshot.history[r.snapshot.index - 1]? = some y :=
      ⟨_, List.getElem?_eq_getElem (by omega)⟩
    have hyt : lastTerm LogEntry.term r.snapshot.history = y.term := by
      have := Node.lastTerm_take (by omega) hy
      rwa [List.take_of_length_le hlen.le] at this
    have hsame := matching h hs hr.reign _ e y he hy (by rw [ht, hr.sane.term, hyt])
    rw [Nat.sub_add_cancel (by omega), List.take_of_length_le hlen.le] at hsame
    rw [← hsame, List.take_append_drop]
    exact .refl _ _

/-- What the node has applied is part of what a newer snapshot holds. -/
theorem history_isPrefix (hterm : nd.currentTerm = r.term) (hel : a.won r.term = some el)
    (hnew : nd.lastApplied < r.snapshot.index) : nd.machine.history <+: r.snapshot.history := by
  have hpre : nd.machine.history <+: a.reign r.term := by
    rw [← hterm, h.steady.history]
    exact (List.take_prefix_take_left h.steady.applied_le).trans
      (h.chosen.prefix_reign hs (hterm ▸ hel))
  refine List.prefix_of_prefix_length_le hpre hr.reign ?_
  rw [h.steady.length_history, hr.sane.length]
  exact hnew.le

end

/-- The snapshot takes the place of the state. -/
theorem replaceState (cfg : Config n σ δ) (h : Progress cfg a₀ p a nd) (hf : nd.state = .follower)
    (hr : Shipped cfg a r) (hterm : nd.currentTerm = r.term)
    (hnew : nd.lastApplied < r.snapshot.index) (hfit : nd.Fits r.snapshot) :
    ∃ b, Moves LogEntry.term p a b ∧ Progress cfg a₀ p b (nd.replaceState cfg r.snapshot) ∧
      r.snapshot.history <+: (nd.replaceState cfg r.snapshot).fullLog := by
  obtain ⟨el, hel⟩ := shipped_won h.moves.sound hr (by omega)
  have hl := Node.replaceState_leads cfg h.node.steady hr.sane
    (le_trans h.node.steady.base_le hnew.le)
    (history_isPrefix h.node h.moves.sound hr hterm hel hnew)
  have hmerge := snapshot_merge h.node h.moves.sound hr hnew hfit
  obtain ⟨b, hm, hp⟩ := h.follow hf (.replaceState cfg _ _) hl (by
    rintro l c ⟨rfl, rfl⟩
    obtain ⟨b, hm, hbt, hbv, hbl, hbc⟩ :=
      h.canHold_accept (hterm ▸ hr.reign) hmerge (hterm ▸ hel)
    refine ⟨b, hm, hbt, hbv, hbl, ?_⟩
    rcases max_cases nd.commitIndex r.snapshot.index with ⟨hmax, -⟩ | ⟨hmax, -⟩
    · rw [hmax]; exact hbc
    · rw [hmax, List.take_left' hr.sane.length, h.node.term, hterm]
      exact hr.chosen.grows hm.grows)
  refine ⟨b, hm, hp, ?_⟩
  rw [hl.holds.1]
  exact List.prefix_append _ _

/-- A node that has the snapshot's entries acknowledges them. -/
theorem acknowledgeSnapshot (h : Progress cfg a₀ p a nd) (hr : Shipped cfg a r)
    (hterm : nd.currentTerm = r.term) (hhist : r.snapshot.history <+: nd.fullLog) :
    ∃ b, Progress cfg a₀ p b nd ∧ r.snapshot.index ≤ b.ack p r.term := by
  have hreign : r.snapshot.history <+: a.reign nd.currentTerm := hterm ▸ hr.reign
  refine ⟨_, h.acknowledge (k := r.snapshot.index) ?_ ?_, ?_⟩
  · rw [← hr.sane.length]; exact hreign.length_le
  · rw [← hr.sane.length, ← List.prefix_iff_eq_take.1 hreign]; exact hhist
  · rw [hterm, Consensus.Shape.acknowledge_ack, if_pos ⟨rfl, rfl⟩]
    exact le_max_right _ _

/-- **`install_snapshot`.**  A success acknowledges the snapshot's entries in the
leader's term, provided what is kept above the snapshot belongs there. -/
theorem installSnapshot (cfg : Config n σ δ) (h : Progress cfg a₀ p a nd)
    (hr : Shipped cfg a r) (hfit : nd.currentTerm ≤ r.term → nd.lastApplied < r.snapshot.index →
      nd.Fits r.snapshot) :
    ∃ b, Progress cfg a₀ p b (nd.installSnapshot cfg r).1 ∧
      ((nd.installSnapshot cfg r).2.success = true →
        r.snapshot.index ≤ b.ack p (nd.installSnapshot cfg r).2.term) := by
  rcases Nat.lt_or_ge r.term nd.currentTerm with hlt | hge
  · rw [nd.installSnapshot_stale r hlt]
    exact ⟨a, h, nofun⟩
  obtain ⟨hs, ht, -, -, -⟩ := Node.adoptTerm_follows nd hge r.leaderId
  obtain ⟨b, hm, hp, hsame⟩ := h.adopt hge r.leaderId
  have hadopt := Node.adoptTerm_currentTerm nd hge
  unfold Node.installSnapshot
  dsimp only
  rw [if_neg (by omega)]
  set nd₁ := ((nd.adoptTerm r.term).followLeader r.leaderId).saveMetaIf (nd.currentTerm < r.term)
    with hnd₁
  have hp₁ : Progress cfg a₀ p b nd₁ := hp.saveMetaIf _
  have hsame₁ : nd.SameLog nd₁ := by
    refine hsame.trans ?_
    rw [hnd₁, Node.saveMetaIf]
    split
    · exact .saveMeta _
    · constructor <;> rfl
  have hrole : nd₁.state = .follower ∧ nd₁.currentTerm = r.term := by
    rw [hnd₁, Node.saveMetaIf]
    split <;> exact ⟨hs, ht⟩
  have hr₁ : Shipped cfg b r := hr.grows hm.grows
  split
  · -- the node is past the snapshot, and has what is in it
    rename_i hold
    have hhist : r.snapshot.history <+: nd₁.fullLog := by
      rcases Nat.eq_zero_or_pos r.snapshot.index with h0 | hpos
      · rw [List.eq_nil_of_length_eq_zero (hr.sane.length.trans h0)]
        exact List.nil_prefix
      obtain ⟨el, hel⟩ := shipped_won hp.moves.sound hr₁ hpos
      have := take_commit_agrees hp₁.node hp₁.moves.sound (hrole.2 ▸ hr₁.reign)
        (hrole.2 ▸ hel) (le_trans hold hp₁.node.steady.applied_le)
      rwa [List.take_of_length_le hr.sane.length.le] at this
    obtain ⟨b', hp', hack⟩ := hp₁.acknowledgeSnapshot hr₁ hrole.2 hhist
    refine ⟨b', hp', fun _ => ?_⟩
    rw [hrole.2]
    exact hack
  · rename_i hnew
    rw [not_le] at hnew
    have hfit₁ : nd₁.Fits r.snapshot :=
      hsame₁.fits (hfit hge (by rw [← hsame₁.lastApplied]; exact hnew))
    obtain ⟨b₁, hm₁, hp₂, hhist⟩ := hp₁.replaceState cfg hrole.1 hr₁ hrole.2 hnew hfit₁
    have hterm := (Node.Quiet.replaceState cfg nd₁ r.snapshot).currentTerm.trans hrole.2
    obtain ⟨b₂, hp₃, hack⟩ := hp₂.acknowledgeSnapshot (hr₁.grows hm₁.grows) hterm hhist
    refine ⟨b₂, hp₃, fun _ => ?_⟩
    rw [hrole.2]
    exact hack

end Progress

end OxideDB.Raft
