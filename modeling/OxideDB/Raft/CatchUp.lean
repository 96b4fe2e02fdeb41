import OxideDB.Raft.Freshness
import OxideDB.Raft.Recovery
import OxideDB.Raft.Safety

/-!
# Bringing a follower up to date

One leader and one follower, and nothing lost between them: `_replicate`, the follower's handler and
the leader's handling of the answer, again and again.  A refusal takes the next index back by one, a
snapshot takes it to the entry after the snapshot, and a request that is not refused carries all that
the follower is missing.  So the walk goes down to an entry the two logs share, or to the snapshot
and from there at once to the end.
-/

namespace OxideDB.Raft

open Consensus (lastTerm)
open Node List RaftCluster Function

variable {n : ℕ} {σ δ : Type} {cfg : Config n σ δ} {ld f nd nd' : Node n σ δ} {T b c i : ℕ}
  {l m : List LogEntry} {p peer : Fin n}

/-- One round of `_replicate` with a peer that answers. -/
def Node.round (cfg : Config n σ δ) (p peer : Fin n) :
    Node n σ δ × Node n σ δ → Node n σ δ × Node n σ δ
  | (ld, f) =>
    let args := ld.replicateArgs (ld.nextIndex peer)
    if needsSnapshot args then
      match ld.storage.loadSnapshot with
      | none => (ld, f)
      | some s =>
        let r := f.installSnapshot cfg ⟨args.term, p, s⟩
        ((ld.installSnapshotReply cfg peer s.index r.2).1, r.1)
    else
      match appendRequest p args with
      | none => (ld, f)
      | some request =>
        let r := f.appendEntries cfg request
        ((ld.appendEntriesReply cfg peer r.2).1, r.1)

/-! ## Between two rounds -/

/-- Log matching: two entries with one index and one term, and the logs are one up to there. -/
def Matching (l m : List LogEntry) : Prop :=
  ∀ k x y, l[k]? = some x → m[k]? = some y → x.term = y.term → l.take (k + 1) = m.take (k + 1)

/-- A leader of the term `T` with the log `m`, folded up to `b`. -/
structure Heads (cfg : Config n σ δ) (T b : ℕ) (m : List LogEntry) (ld : Node n σ δ) : Prop where
  steady : ld.Steady cfg
  leader : ld.state = .leader
  term : ld.currentTerm = T
  log : ld.fullLog = m
  base : ld.lastIncludedIndex = b

/-- A node that such a leader can bring up to date. -/
structure Trails (cfg : Config n σ δ) (T : ℕ) (m : List LogEntry) (f : Node n σ δ) : Prop where
  steady : f.Steady cfg
  caughtUp : f.CaughtUp
  term_le : f.currentTerm ≤ T
  applied : f.machine.history <+: m
  matching : Matching f.fullLog m

namespace Trails

section

variable (h : Trails cfg T m f)
include h

theorem applied_le : f.lastApplied ≤ m.length := by
  rw [← h.steady.length_history]
  exact h.applied.length_le

/-- What the node has applied is the leader's log. -/
theorem take_eq (hi : i ≤ f.lastApplied) : f.fullLog.take i = m.take i := by
  have hhist := prefix_iff_eq_take.1 h.applied
  rw [h.steady.length_history, h.steady.history] at hhist
  have htake := congrArg (take i) hhist
  rwa [take_take, take_take, min_eq_left hi] at htake

theorem take_held (hi : i ≤ f.lastApplied) : m.take i <+: f.fullLog := by
  rw [← h.take_eq hi]
  exact take_prefix _ _

theorem sameLog (hs : SameLog f nd) (hterm : nd.currentTerm ≤ T) :
    Trails cfg T m nd where
  steady := h.steady.sameLog hs
  caughtUp := by
    rw [CaughtUp, hs.commitIndex, hs.lastApplied]
    exact h.caughtUp
  term_le := hterm
  applied := by rw [hs.machine]; exact h.applied
  matching := by rw [hs.fullLog_eq]; exact h.matching

end

/-- Once the whole log of the leader is there. -/
theorem of_whole (hs : nd.Steady cfg) (hup : nd.CaughtUp) (hterm : nd.currentTerm ≤ T)
    (hm : m <+: nd.fullLog) (hmatch : Matching nd.fullLog m) (hle : nd.lastApplied ≤ m.length) :
    Trails cfg T m nd where
  steady := hs
  caughtUp := hup
  term_le := hterm
  applied := by
    rw [hs.history]
    exact prefix_of_prefix_length_le (List.take_prefix _ _) hm (by
      rw [length_take]
      exact (min_le_left _ _).trans hle)
  matching := hmatch

end Trails

/-! ## Entries -/

theorem Heads.appendRequest (h : Heads cfg T b m ld) (p : Fin n) (hi : b ≤ i) :
    ∃ r, appendRequest p (ld.replicateArgs (some (i + 1))) = some r ∧
      Asks T m ld.commitIndex i r := by
  have hlt : ¬ i + 1 ≤ ld.lastIncludedIndex := by
    rw [h.base]
    omega
  obtain ⟨r, hr⟩ : ∃ r, Node.appendRequest p (ld.replicateArgs (some (i + 1))) = some r := by
    unfold Node.appendRequest Node.replicateArgs
    rw [Option.getD_some, if_neg hlt]
    exact ⟨_, rfl⟩
  have hasks := h.steady.appendRequest hr
  rw [h.term, h.log] at hasks
  exact ⟨r, hr, hasks⟩

/-- An entry the node has applied passes the check. -/
theorem Trails.prevMatches (h : Trails cfg T m f) (hi : i ≤ f.lastApplied) :
    f.prevMatches i (lastTerm LogEntry.term (m.take i)) = true := by
  have hlen := (h.steady.applied_le.trans h.steady.commit_le)
  rw [Node.prevMatches, h.steady.lastLogIndex_eq, if_neg (by omega), ← h.take_eq hi]
  by_cases hb : i ≤ f.lastIncludedIndex
  · rw [Steady.entryAt_none f hb]
    by_cases heq : i = f.lastIncludedIndex
    · rw [heq, h.steady.baseTerm]
      simp
    · simp [heq]
  · have hx : f.fullLog[i - 1]? = some f.fullLog[i - 1] := getElem?_eq_getElem (by omega)
    rw [h.steady.entryAt_eq (by omega), hx]
    exact decide_eq_true (lastTerm_take (by omega) hx).symm

theorem Trails.prev_taken (h : Trails cfg T m f) (hi : i ≤ m.length)
    (hok : f.prevMatches i (lastTerm LogEntry.term (m.take i)) = true) :
    m.take i <+: f.fullLog := by
  unfold Node.prevMatches at hok
  split at hok
  · cases hok
  rename_i hle
  rw [h.steady.lastLogIndex_eq] at hle
  by_cases hb : i ≤ f.lastIncludedIndex
  · exact h.take_held (hb.trans h.steady.base_le)
  have hx : f.fullLog[i - 1]? = some f.fullLog[i - 1] := getElem?_eq_getElem (by omega)
  have hy : m[i - 1]? = some m[i - 1] := getElem?_eq_getElem (by omega)
  rw [h.steady.entryAt_eq (by omega), hx] at hok
  have hterm := (of_decide_eq_true hok).trans (lastTerm_take (by omega) hy)
  have hsame := h.matching _ _ _ hx hy hterm
  rw [Nat.sub_add_cancel (by omega)] at hsame
  rw [← hsame]
  exact take_prefix _ _

/-- The follower's loop leaves its log as it is, or makes it the leader's. -/
theorem Trails.absorbEntries (h : Trails cfg T m f) (hm : Numbered 0 m)
    (hprev : m.take i <+: f.fullLog) :
    ((m.drop i).foldl absorbEntry f).Steady cfg ∧
      m <+: ((m.drop i).foldl absorbEntry f).fullLog ∧
      Matching ((m.drop i).foldl absorbEntry f).fullLog m ∧
      ((m.drop i).foldl absorbEntry f).commitIndex = f.commitIndex := by
  rcases Nat.lt_or_ge m.length i with hi | hi
  · rw [take_of_length_le hi.le] at hprev
    rw [drop_eq_nil_of_le hi.le]
    exact ⟨h.steady, hprev, h.matching, rfl⟩
  have hlen : i ≤ f.fullLog.length := by
    have := hprev.length_le
    rw [length_take] at this
    omega
  have hkeep : f.KeepsCommitted (m.drop i) := by
    intro e he hle x hx
    obtain ⟨k, hk⟩ := getElem?_of_mem he
    rw [getElem?_drop] at hk
    have hidx := hm _ e hk
    have hxe : f.fullLog[e.index - 1]? = some e := by
      refine Consensus.prefix_getElem? (h.take_held (hle.trans h.caughtUp)) ?_
      rw [getElem?_take_of_lt (by omega)]
      rwa [hidx, Nat.zero_add, Nat.add_sub_cancel]
    by_cases hlt : f.lastIncludedIndex < e.index
    · rw [h.steady.entryAt_eq hlt, hxe] at hx
      rw [Option.some.inj hx]
    · rw [Steady.entryAt_none _ (by omega)] at hx
      cases hx
  have hes : Numbered i (m.drop i) := by simpa using hm.drop i
  obtain ⟨hl, hfull, -, hcommit⟩ := absorbEntries_leads (S := fun _ _ => True) h.steady hes hlen
    hkeep (fun _ => trivial) (fun _ _ _ _ _ _ _ => trivial)
  have hall : (m.drop i).take (m.length - i) = m.drop i :=
    take_of_length_le (by rw [length_drop])
  have hmall : m.take (i + (m.length - i)) = m := take_of_length_le (by omega)
  have hcases := absorb_fold hm hprev (h.take_held h.steady.base_le) h.matching (m.length - i)
    (by omega)
  rw [hall, hmall] at hcases
  rw [hfull]
  refine ⟨hl.steady, ?_, ?_, hcommit⟩
  · rcases hcases with ⟨hcur, hpre⟩ | ⟨hcur, -⟩
    · rw [hcur]; exact hpre
    · rw [hcur]
  · rcases hcases with ⟨hcur, -⟩ | ⟨hcur, -⟩
    · rw [hcur]; exact h.matching
    · rw [hcur]
      intro k x y hx hy _
      rfl

theorem sameLog_saveMetaIf (changed : Bool) (nd : Node n σ δ) :
    SameLog nd (nd.saveMetaIf changed) := by
  unfold saveMetaIf
  split
  · exact .saveMeta _
  · constructor <;> rfl

@[simp] theorem saveMetaIf_currentTerm (changed : Bool) (nd : Node n σ δ) :
    (nd.saveMetaIf changed).currentTerm = nd.currentTerm := by
  unfold saveMetaIf
  split <;> rfl

/-- Following the commit index of a leader whose log is there. -/
theorem followCommit_steady (h : nd.Steady cfg) (hm : m <+: nd.fullLog)
    (happ : nd.lastApplied ≤ m.length) (hc : c ≤ m.length) :
    (nd.followCommit cfg c).Steady cfg ∧ (nd.followCommit cfg c).fullLog = nd.fullLog ∧
      (nd.followCommit cfg c).lastApplied ≤ m.length := by
  unfold followCommit
  split
  · next hlt =>
    have hlast := h.lastLogIndex_eq
    have hlen := hm.length_le
    have hcommit := h.commit_le
    obtain ⟨hl, happ⟩ := commitTo_leads cfg h (i := min c nd.lastLogIndex) (by omega) (by omega)
    exact ⟨hl.steady, hl.holds.1, by omega⟩
  · exact ⟨h, rfl, happ⟩

variable {r : AppendEntriesRequest n}

theorem appendEntries_eq (cfg : Config n σ δ) (hterm : f.currentTerm ≤ r.term) :
    let f₁ := (f.adoptTerm r.term).followLeader r.leaderId
    let f₂ := (r.entries.foldl absorbEntry f₁).saveMetaIf (f.currentTerm < r.term)
    f.appendEntries cfg r = if f₁.prevMatches r.prevLogIndex r.prevLogTerm then
        (f₂.followCommit cfg r.leaderCommit, ⟨r.term, true, f₂.lastLogIndex⟩)
      else (f₁.saveMetaIf (f.currentTerm < r.term), ⟨r.term, false, 0⟩) := by
  have hadopt := adoptTerm_currentTerm f hterm
  obtain ⟨-, hfollow, -⟩ := adoptTerm_follows f hterm r.leaderId
  rw [appendEntries]
  dsimp only
  rw [if_neg (by rw [hadopt]; exact lt_irrefl _), hfollow, saveMetaIf_currentTerm,
    (Quiet.absorbEntries _ _).currentTerm, hfollow]

/-- **`append_entries`**: a request is refused and changes nothing, or the leader's log is there. -/
theorem Trails.appendEntries (h : Trails cfg T m f) (hm : Numbered 0 m) (hc : c ≤ m.length)
    (hr : Asks T m c i r) (hi : i ≤ m.length ∨ m <+: f.fullLog) :
    ∃ f' ok k, f.appendEntries cfg r = (f', ⟨T, ok, k⟩) ∧ Trails cfg T m f' ∧
      (ok = true ∧ m <+: f'.fullLog ∨
        ok = false ∧ f'.fullLog = f.fullLog ∧ f.lastApplied < i) := by
  obtain ⟨rfl, rfl, hentries, hprevTerm, rfl⟩ := hr
  have hup : (f.appendEntries cfg r).1.CaughtUp :=
    (CaughtUp.keeps cfg).appendEntries h.caughtUp fun _ _ => trivial
  have hsame := Recovery.adopt_sameLog f r.term r.leaderId
  obtain ⟨-, hterm, -⟩ := adoptTerm_follows f h.term_le r.leaderId
  have h₁ : Trails cfg r.term m ((f.adoptTerm r.term).followLeader r.leaderId) :=
    h.sameLog hsame hterm.le
  rw [appendEntries_eq cfg h.term_le, hentries] at hup ⊢
  set f₁ := (f.adoptTerm r.term).followLeader r.leaderId
  by_cases hok : f₁.prevMatches r.prevLogIndex r.prevLogTerm = true
  · rw [if_pos hok] at hup ⊢
    have hprev : m.take r.prevLogIndex <+: f₁.fullLog := by
      rcases hi with hi | hi
      · exact h₁.prev_taken hi (hprevTerm hi ▸ hok)
      · rw [hsame.fullLog_eq]
        exact (List.take_prefix _ _).trans hi
    obtain ⟨hsteady, hpre, hmatch, hcommit⟩ := h₁.absorbEntries hm hprev
    set f₂ := (m.drop r.prevLogIndex).foldl absorbEntry f₁
    have happ₂ : f₂.lastApplied ≤ m.length :=
      hsteady.applied_le.trans (hcommit.trans_le (h₁.caughtUp.trans h₁.applied_le))
    have hsame₃ := sameLog_saveMetaIf (decide (f.currentTerm < r.term)) f₂
    rw [← hsame₃.fullLog_eq] at hpre hmatch
    rw [← hsame₃.lastApplied] at happ₂
    obtain ⟨hsteady₄, hfull₄, happ₄⟩ :=
      followCommit_steady (hsteady.sameLog hsame₃) hpre happ₂ hc
    refine ⟨_, true, _, rfl, .of_whole hsteady₄ hup ?_ ?_ ?_ happ₄, .inl ⟨rfl, ?_⟩⟩
    · rw [(Quiet.followCommit _ _).currentTerm, saveMetaIf_currentTerm,
        (Quiet.absorbEntries _ _).currentTerm]
      exact h₁.term_le
    · rw [hfull₄]; exact hpre
    · rw [hfull₄]; exact hmatch
    · rw [hfull₄]; exact hpre
  · rw [if_neg hok] at hup ⊢
    refine ⟨_, false, 0, rfl, h₁.sameLog (sameLog_saveMetaIf _ _) ?_, .inr ⟨rfl, ?_, ?_⟩⟩
    · rw [saveMetaIf_currentTerm]
      exact h₁.term_le
    · rw [(sameLog_saveMetaIf _ _).fullLog_eq, hsame.fullLog_eq]
    by_contra hge
    rw [not_lt, ← hsame.lastApplied] at hge
    rw [hprevTerm (hge.trans h₁.applied_le), h₁.prevMatches hge] at hok
    exact hok rfl

/-! ## Snapshots -/

theorem installSnapshot_eq (cfg : Config n σ δ) {r : InstallSnapshotRequest n δ}
    (hterm : f.currentTerm ≤ r.term) :
    let f₁ := ((f.adoptTerm r.term).followLeader r.leaderId).saveMetaIf (f.currentTerm < r.term)
    f.installSnapshot cfg r = (if r.snapshot.index ≤ f₁.lastApplied then f₁
      else f₁.replaceState cfg r.snapshot, ⟨r.term, true⟩) := by
  have hadopt := adoptTerm_currentTerm f hterm
  obtain ⟨-, hfollow, -⟩ := adoptTerm_follows f hterm r.leaderId
  rw [installSnapshot]
  dsimp only
  rw [if_neg (by rw [hadopt]; exact lt_irrefl _), saveMetaIf_currentTerm, hfollow]
  split <;> rfl

/-- A log whose first entries have been replaced by the leader's. -/
theorem Matching.splice (h : Matching l m) (hb : b ≤ m.length) :
    Matching (m.take b ++ l.drop b) m := by
  have hlen : (m.take b).length = b := by rw [length_take, min_eq_left hb]
  intro k x y hx hy hterm
  rcases Nat.lt_or_ge k b with hk | hk
  · rw [take_append_of_le_length (by omega), take_take, min_eq_left (by omega)]
  rw [getElem?_append_right (by omega), hlen, getElem?_drop,
    Nat.add_sub_cancel' hk] at hx
  rw [take_append, hlen, take_take, min_eq_right (by omega), ← drop_take,
    h k x y hx hy hterm]
  conv_rhs => rw [← take_append_drop b (m.take (k + 1)), take_take,
    min_eq_left (by omega)]

/-- **`install_snapshot`**: what the snapshot covers is applied then. -/
theorem Trails.installSnapshot (h : Trails cfg T m f) {s : Snapshot δ} (hs : s.Sane cfg)
    (hhist : s.history = m.take s.index) (p : Fin n) :
    ∃ f', f.installSnapshot cfg ⟨T, p, s⟩ = (f', ⟨T, true⟩) ∧ Trails cfg T m f' ∧
      s.index ≤ f'.lastApplied ∧ (m <+: f.fullLog → m <+: f'.fullLog) := by
  have hup : (f.installSnapshot cfg ⟨T, p, s⟩).1.CaughtUp :=
    (CaughtUp.keeps cfg).installSnapshot h.caughtUp fun _ _ => trivial
  obtain ⟨-, hterm, -⟩ := adoptTerm_follows f h.term_le p
  have hsame := (Recovery.adopt_sameLog f T p).trans
    (sameLog_saveMetaIf (decide (f.currentTerm < T)) _)
  have hterm₁ : (((f.adoptTerm T).followLeader p).saveMetaIf (f.currentTerm < T)).currentTerm = T :=
    (saveMetaIf_currentTerm _ _).trans hterm
  have h₁ := h.sameLog hsame hterm₁.le
  rw [installSnapshot_eq cfg h.term_le] at hup ⊢
  set f₁ := ((f.adoptTerm T).followLeader p).saveMetaIf (f.currentTerm < T)
  refine ⟨_, rfl, ?_⟩
  by_cases hle : s.index ≤ f₁.lastApplied
  · rw [if_pos hle]
    exact ⟨h₁, hle, fun hm => by rw [hsame.fullLog_eq]; exact hm⟩
  rw [if_neg hle] at hup ⊢
  have hkept : f₁.machine.history <+: s.history := by
    rw [hhist, prefix_take_iff]
    exact ⟨h₁.applied, h₁.steady.length_history.trans_le (not_le.1 hle).le⟩
  have hbase := h₁.steady.base_le.trans (not_le.1 hle).le
  have hle' : s.index ≤ m.length := by
    have hlen := hs.length
    rw [hhist, length_take] at hlen
    omega
  have hl := replaceState_leads cfg h₁.steady hs hbase hkept
  have hfull : (f₁.replaceState cfg s).fullLog = m.take s.index ++ f₁.fullLog.drop s.index := by
    rw [hl.holds.1, hhist]
  refine ⟨⟨hl.steady, hup, ?_, ?_, ?_⟩, le_rfl, fun hm => ?_⟩
  · rw [(Quiet.replaceState cfg _ _).currentTerm]
    exact hterm₁.le
  · show s.history <+: m
    rw [hhist]
    exact take_prefix _ _
  · rw [hfull]
    exact h₁.matching.splice hle'
  · rw [hfull]
    have htake : m.take s.index = f₁.fullLog.take s.index := by
      rw [hsame.fullLog_eq]
      obtain ⟨rest, hrest⟩ := hm
      rw [← hrest, take_append_of_le_length hle']
    rw [htake, take_append_drop, hsame.fullLog_eq]
    exact hm

/-! ## The leader -/

theorem Node.Steady.updateCommitIndex (h : nd.Steady cfg) :
    (nd.updateCommitIndex cfg).Steady cfg ∧ (nd.updateCommitIndex cfg).fullLog = nd.fullLog := by
  rcases updateCommitIndex_moves cfg nd with heq | ⟨-, i, e, -, hlt, he, -, heq⟩ <;> rw [heq]
  · exact ⟨h, rfl⟩
  have hbase := le_trans h.base_le h.applied_le
  rw [h.entryAt_eq (by omega)] at he
  have hlen := (List.getElem?_eq_some_iff.1 he).1
  obtain ⟨hl, -⟩ := commitTo_leads cfg h hlt.le (by omega)
  exact ⟨hl.steady, hl.holds.1⟩

namespace Heads

variable (h : Heads cfg T b m ld)
include h

theorem advance {index : ℕ} (hbase : (ld.advance cfg peer index).lastIncludedIndex = b) :
    Heads cfg T b m (ld.advance cfg peer index) ∧
      (ld.advance cfg peer index).nextIndex peer = some (index + 1) := by
  have hs : SameLog ld { ld with
      nextIndex := update ld.nextIndex peer (some (index + 1))
      matchIndex := update ld.matchIndex peer (some index) } := by
    constructor <;> rfl
  obtain ⟨hsteady, hlog⟩ := (h.steady.sameLog hs).updateCommitIndex
  have hq : Quiet _ (ld.advance cfg peer index) := Quiet.updateCommitIndex _
  refine ⟨⟨hsteady, hq.state.trans h.leader, hq.currentTerm.trans h.term, ?_, hbase⟩, ?_⟩
  · exact (hlog.trans hs.fullLog_eq).trans h.log
  · exact (congrFun hq.nextIndex peer).trans (update_self ..)

theorem backUp (hnext : ld.nextIndex peer = some i) :
    Heads cfg T b m (ld.backUp peer) ∧
      (ld.backUp peer).nextIndex peer = some (max 1 (i - 1)) := by
  have hs : SameLog ld (ld.backUp peer) := by constructor <;> rfl
  refine ⟨⟨h.steady.sameLog hs, h.leader, h.term, hs.fullLog_eq.trans h.log, h.base⟩, ?_⟩
  rw [Node.backUp, hnext]
  exact update_self ..

theorem needsSnapshot_eq (hpos : 1 ≤ i) :
    needsSnapshot (ld.replicateArgs (some i)) = decide (i ≤ b) := by
  show (decide (0 < ld.lastIncludedIndex) && decide (i ≤ ld.lastIncludedIndex)) = decide (i ≤ b)
  rw [h.base, ← Bool.decide_and]
  exact decide_eq_decide.2 ⟨And.right, fun hi => ⟨by omega, hi⟩⟩

/-- What was compacted away is in the stored snapshot. -/
theorem loadSnapshot (hb : 0 < b) :
    ∃ s, ld.storage.loadSnapshot = some s ∧ s.Sane cfg ∧ s.index = b ∧ s.history = m.take b := by
  cases hs : ld.storage.loadSnapshot with
  | none =>
    have hbase := h.steady.diskBase
    have hsnap : ld.storage.snapshot = none := hs
    rw [EngineRaftStorage.base, hsnap, h.base] at hbase
    exact absurd hbase (by simp; omega)
  | some s =>
    obtain ⟨hsane, hidx, hhist⟩ := h.steady.loadSnapshot hs
    rw [h.base] at hidx
    rw [h.log, h.base] at hhist
    exact ⟨s, rfl, hsane, hidx, hhist⟩

theorem base_le : b ≤ m.length := by
  rw [← h.base, ← h.log]
  exact h.steady.base_le_length

theorem replicateReply_eq (peer : Fin n) (ok : Bool) (index : ℕ) :
    (ld.replicateReply cfg peer T ok index).1 =
      if ok then ld.advance cfg peer index else ld.backUp peer := by
  rw [replicateReply, h.term, if_neg (lt_irrefl _), if_neg (not_not.2 h.leader)]
  split <;> rfl

end Heads

/-! ## Rounds -/

/-- The leader knows where to start, and that is inside its log or no longer matters. -/
structure Chase (cfg : Config n σ δ) (peer : Fin n) (T b : ℕ) (m : List LogEntry) (i : ℕ)
    (st : Node n σ δ × Node n σ δ) : Prop where
  heads : Heads cfg T b m st.1
  trails : Trails cfg T m st.2
  next : st.1.nextIndex peer = some i
  pos : 1 ≤ i
  reach : i ≤ m.length + 1 ∨ m <+: st.2.fullLog

namespace Chase

variable {st : Node n σ δ × Node n σ δ}

variable (h : Chase cfg peer T b m i st)
include h

/-- The peer is behind the snapshot: it is sent, and installed. -/
theorem round_snapshot (hi : i ≤ b) (p : Fin n)
    (hbase : (round cfg p peer st).1.lastIncludedIndex = b) :
    Chase cfg peer T b m (b + 1) (round cfg p peer st) ∧
      b ≤ (round cfg p peer st).2.lastApplied ∧
      (m <+: st.2.fullLog → m <+: (round cfg p peer st).2.fullLog) := by
  obtain ⟨ld, f⟩ := st
  obtain ⟨hheads, htrails, hnext, hpos, -⟩ := h
  dsimp only at hheads htrails hnext
  obtain ⟨s, hs, hsane, rfl, hhist⟩ := hheads.loadSnapshot (hpos.trans hi)
  obtain ⟨f', hf', htrails', happ, hstays⟩ := htrails.installSnapshot hsane hhist p
  have hround : round cfg p peer (ld, f) = (ld.advance cfg peer s.index, f') := by
    have hneeds := hheads.needsSnapshot_eq hpos
    rw [decide_eq_true hi] at hneeds
    have hterm : (ld.replicateArgs (some i)).term = T := hheads.term
    rw [Node.round, hnext]
    dsimp only
    rw [if_pos hneeds, hs, hterm]
    dsimp only
    rw [hf', installSnapshotReply, hheads.replicateReply_eq]
    rfl
  rw [hround] at hbase ⊢
  obtain ⟨hheads', hnext'⟩ := hheads.advance hbase
  exact ⟨⟨hheads', htrails', hnext', Nat.le_add_left .., .inl (Nat.succ_le_succ hheads.base_le)⟩,
    happ, hstays⟩

/-- Otherwise entries are sent, and taken or refused. -/
theorem round_entries (hi : b < i) (p : Fin n)
    (hbase : (round cfg p peer st).1.lastIncludedIndex = b) :
    (∃ i', Chase cfg peer T b m i' (round cfg p peer st)) ∧
        m <+: (round cfg p peer st).2.fullLog ∨
      Chase cfg peer T b m (i - 1) (round cfg p peer st) ∧
        (round cfg p peer st).2.fullLog = st.2.fullLog ∧ st.2.lastApplied < i - 1 := by
  obtain ⟨ld, f⟩ := st
  obtain ⟨hheads, htrails, hnext, hpos, hreach⟩ := h
  dsimp only at hheads htrails hnext hreach
  obtain ⟨j, rfl⟩ : ∃ j, i = j + 1 := ⟨i - 1, by omega⟩
  obtain ⟨r, hr, hasks⟩ := hheads.appendRequest p (Nat.lt_succ_iff.1 hi)
  replace hreach : j ≤ m.length ∨ m <+: f.fullLog := hreach.imp_left Nat.le_of_succ_le_succ
  have hnum : Numbered 0 m := by
    rw [← hheads.log]
    exact hheads.steady.numbered
  have hcommit : ld.commitIndex ≤ m.length := by
    rw [← hheads.log]
    exact hheads.steady.commit_le
  obtain ⟨f', ok, k, hf', htrails', hcases⟩ := htrails.appendEntries hnum hcommit hasks hreach
  have hround : round cfg p peer (ld, f) =
      (if ok then ld.advance cfg peer k else ld.backUp peer, f') := by
    have hneeds := hheads.needsSnapshot_eq hpos
    rw [decide_eq_false (not_le.2 hi)] at hneeds
    rw [Node.round, hnext]
    dsimp only
    rw [if_neg (by rw [hneeds]; exact Bool.false_ne_true), hr]
    dsimp only
    rw [hf', appendEntriesReply, hheads.replicateReply_eq]
  rw [hround] at hbase ⊢
  rcases hcases with ⟨rfl, hm⟩ | ⟨rfl, hsame, hlt⟩
  · obtain ⟨hheads', hnext'⟩ := hheads.advance hbase
    exact .inl ⟨⟨k + 1, hheads', htrails', hnext', Nat.le_add_left .., .inr hm⟩, hm⟩
  obtain ⟨hheads', hnext'⟩ := hheads.backUp hnext
  have hj : 1 ≤ j := Nat.one_le_of_lt hlt
  rw [Nat.add_sub_cancel, max_eq_right hj] at hnext'
  refine .inr ⟨⟨hheads', htrails', hnext', hj, ?_⟩, hsame, hlt⟩
  rw [Nat.add_sub_cancel, hsame]
  exact hreach.imp_left Nat.le_succ_of_le

theorem round (p : Fin n) (hbase : (round cfg p peer st).1.lastIncludedIndex = b) :
    (∃ i', Chase cfg peer T b m i' (round cfg p peer st)) ∧
      (m <+: st.2.fullLog → m <+: (round cfg p peer st).2.fullLog) := by
  rcases Nat.lt_or_ge b i with hi | hi
  · rcases h.round_entries hi p hbase with ⟨h', hm⟩ | ⟨h', hsame, -⟩
    · exact ⟨h', fun _ => hm⟩
    · exact ⟨⟨_, h'⟩, fun hm => hsame ▸ hm⟩
  · obtain ⟨h', -, hstays⟩ := h.round_snapshot hi p hbase
    exact ⟨⟨_, h'⟩, hstays⟩

theorem rounds (p : Fin n) (hbase : ∀ k, ((Node.round cfg p peer)^[k] st).1.lastIncludedIndex = b)
    (k : ℕ) :
    (∃ i', Chase cfg peer T b m i' ((Node.round cfg p peer)^[k] st)) ∧
      (m <+: st.2.fullLog → m <+: ((Node.round cfg p peer)^[k] st).2.fullLog) := by
  induction k with
  | zero => exact ⟨⟨i, h⟩, id⟩
  | succ k ih =>
    obtain ⟨⟨i', h'⟩, hstays⟩ := ih
    have hb := hbase (k + 1)
    rw [iterate_succ_apply'] at hb ⊢
    obtain ⟨h'', hstays'⟩ := h'.round p hb
    exact ⟨h'', fun hm => hstays' (hstays hm)⟩

/-- The walk: one step back with each refusal, and two rounds from the snapshot. -/
theorem reaches (p : Fin n)
    (hbase : ∀ k, ((Node.round cfg p peer)^[k] st).1.lastIncludedIndex = b) :
    ∃ k ≤ i + 1, m <+: ((Node.round cfg p peer)^[k] st).2.fullLog := by
  induction i generalizing st with
  | zero => exact absurd h.pos (by decide)
  | succ i ih =>
    rcases Nat.lt_or_ge b (i + 1) with hi | hi
    · rcases h.round_entries hi p (hbase 1) with ⟨-, hm⟩ | ⟨h', -, -⟩
      · exact ⟨1, by omega, hm⟩
      · obtain ⟨k, hk, hm⟩ := ih h' (fun k => hbase (k + 1))
        exact ⟨k + 1, by omega, hm⟩
    · obtain ⟨h', happ, -⟩ := h.round_snapshot hi p (hbase 1)
      rcases h'.round_entries (Nat.lt_succ_self b) p (hbase 2) with ⟨-, hm⟩ | ⟨-, -, hlt⟩
      · exact ⟨2, by omega, hm⟩
      · exact absurd happ (not_le.2 hlt)

end Chase

/-- **Catching up**: a leader whose log is fixed and that compacts nothing meanwhile, and a follower
whose log matches the leader's and that has applied nothing else.  From any next index of the
leader's log, that index and two rounds more are enough. -/
theorem catch_up (hld : ld.Steady cfg) (hleader : ld.state = .leader) (hf : f.Steady cfg)
    (hup : f.CaughtUp) (hterm : f.currentTerm ≤ ld.currentTerm)
    (hmatch : Matching f.fullLog ld.fullLog) (happ : f.machine.history <+: ld.fullLog)
    (hnext : ld.nextIndex peer = some i) (hpos : 1 ≤ i) (hle : i ≤ ld.lastLogIndex + 1)
    (hfixed : ∀ k, ((Node.round cfg p peer)^[k] (ld, f)).1.lastIncludedIndex =
      ld.lastIncludedIndex) {k : ℕ} (hk : i + 2 ≤ k) :
    ld.fullLog <+: ((Node.round cfg p peer)^[k] (ld, f)).2.fullLog := by
  have h : Chase cfg peer ld.currentTerm ld.lastIncludedIndex ld.fullLog i (ld, f) :=
    ⟨⟨hld, hleader, rfl, rfl, rfl⟩, ⟨hf, hup, hterm, happ, hmatch⟩, hnext, hpos,
      .inl (by rw [← hld.lastLogIndex_eq]; exact hle)⟩
  obtain ⟨j, hj, hm⟩ := h.reaches p hfixed
  obtain ⟨⟨i', h'⟩, -⟩ := h.rounds p hfixed j
  have hlater := (h'.rounds p (fun k => by
    rw [← iterate_add_apply]; exact hfixed _) (k - j)).2 hm
  rwa [← iterate_add_apply, Nat.sub_add_cancel (by omega)] at hlater

/-! ## A leader that has nothing left to commit -/

/-- All of the log is committed, and folded up to `b`. -/
structure Settled (cfg : Config n σ δ) (b : ℕ) (nd : Node n σ δ) : Prop where
  steady : nd.Steady cfg
  commit : nd.commitIndex = nd.fullLog.length
  base : nd.lastIncludedIndex = b

namespace Settled

theorem sameLog (h : Settled cfg b nd) (hs : SameLog nd nd') : Settled cfg b nd' where
  steady := h.steady.sameLog hs
  commit := by rw [hs.commitIndex, hs.fullLog_eq, h.commit]
  base := hs.lastIncludedIndex.trans h.base

theorem updateCommitIndex (h : Settled cfg b nd) : nd.updateCommitIndex cfg = nd := by
  rcases updateCommitIndex_moves cfg nd with heq | ⟨-, i, e, -, hlt, he, -, -⟩
  · exact heq
  have hbase := h.steady.base_le.trans h.steady.applied_le
  rw [h.steady.entryAt_eq (by omega)] at he
  have := (List.getElem?_eq_some_iff.1 he).1
  have := h.commit
  omega

theorem replicateReply (h : Settled cfg b nd) (peer : Fin n) (term : ℕ) (ok : Bool) (index : ℕ) :
    Settled cfg b (nd.replicateReply cfg peer term ok index).1 := by
  unfold Node.replicateReply
  split
  · exact h.sameLog (by constructor <;> rfl)
  split
  · exact h
  split
  · have hs : Settled cfg b { nd with
        nextIndex := update nd.nextIndex peer (some (index + 1))
        matchIndex := update nd.matchIndex peer (some index) } :=
      h.sameLog (by constructor <;> rfl)
    show Settled cfg b (advance cfg nd peer index)
    rw [advance, hs.updateCommitIndex]
    exact hs
  · exact h.sameLog (by constructor <;> rfl)

theorem round {st : Node n σ δ × Node n σ δ} (h : Settled cfg b st.1) (p peer : Fin n) :
    Settled cfg b (round cfg p peer st).1 := by
  obtain ⟨ld, f⟩ := st
  unfold Node.round
  dsimp only
  split
  · split
    · exact h
    · exact h.replicateReply ..
  · split
    · exact h
    · exact h.replicateReply ..

/-- Such a leader compacts nothing while it brings a follower up to date. -/
theorem fixed (h : Settled cfg b ld) (p peer : Fin n) (f : Node n σ δ) (k : ℕ) :
    ((Node.round cfg p peer)^[k] (ld, f)).1.lastIncludedIndex = b := by
  suffices Settled cfg b ((Node.round cfg p peer)^[k] (ld, f)).1 from this.base
  induction k with
  | zero => exact h
  | succ k ih =>
    rw [iterate_succ_apply']
    exact ih.round p peer

end Settled

/-- Node 2 has seen nothing of a log that node 0 has folded into its snapshot. -/
theorem catch_up_replicated :
    ∃ g, run (tapes 3 2) (init (tapes 3 2)) Safety.replicated = some g ∧
      (g.nodes 0).fullLog = [⟨1, 1, []⟩, ⟨1, 2, [7]⟩] ∧ (g.nodes 2).fullLog = [] ∧
      (g.nodes 0).fullLog <+:
        ((Node.round (tapes 3 2) 0 2)^[3] (g.nodes 0, g.nodes 2)).2.fullLog := by
  refine Transition.exists_run (p := fun g => (g.nodes 0).fullLog = [⟨1, 1, []⟩, ⟨1, 2, [7]⟩] ∧
      (g.nodes 2).fullLog = [] ∧ (g.nodes 0).state = .leader ∧
      (g.nodes 2).currentTerm ≤ (g.nodes 0).currentTerm ∧ (g.nodes 0).commitIndex = 2 ∧
      (g.nodes 0).nextIndex 2 = some 1 ∧ (g.nodes 2).machine.history = []) (by decide)
    fun g hrun ⟨hlog, hlog', hleader, hterm, hcommit, hnext, happ⟩ => ?_
  obtain ⟨a, -, -, hrel⟩ := (Rel.init (tapes 3 2)).run (by decide) hrun
  have hsettled : Settled (tapes 3 2) (g.nodes 0).lastIncludedIndex (g.nodes 0) :=
    ⟨(hrel.nodes 0).steady, by rw [hcommit, hlog]; rfl, rfl⟩
  refine ⟨hlog, hlog', ?_⟩
  exact catch_up (hrel.nodes 0).steady hleader (hrel.nodes 2).steady
    (caughtUp_run hrun 2) hterm (by rw [hlog']; intro k x y hx; cases hx)
    (by rw [happ]; exact nil_prefix) hnext le_rfl (Nat.le_add_left ..)
    (hsettled.fixed 0 2 _) (by decide)

end OxideDB.Raft
