import OxideDB.Raft.Pieces
import OxideDB.Raft.Simulation

/-!
# Recovery

A handler makes several writes, and a crash may fall after any of them.  Whatever disk it
leaves, the restart finds a log without gaps above the snapshot, and the machine it builds
is in the state the committed commands lead to.  The commit index it comes back with is
the one on disk or the snapshot's, whichever is larger; between the write of a leader's
snapshot and the write of the commit index that goes with it, the snapshot's is ahead of
what the node had in memory.
-/

namespace OxideDB.Raft

open List RaftCluster Node

variable {l k : List LogEntry} {c : ℕ}
variable {n : ℕ} {σ δ : Type} {cfg : Config n σ δ}

/-- What a node knows to be committed. -/
def Node.committed (nd : Node n σ δ) : List LogEntry := nd.fullLog.take nd.commitIndex

variable {cp : Checkpoint n δ} {p : Fin n} {input : Input n δ} {nd : Node n σ δ}

namespace Recovery

open Consensus (Election Sound)

/-! ## The premises -/

/-- A request that takes effect carries entries numbered from where they go, and cuts off
nothing committed; a snapshot that takes effect says what it is, and agrees with what is
committed. -/
def Honest (cfg : Config n σ δ) (nd : Node n σ δ) : Input n δ → Prop
  | .appendEntries r => nd.currentTerm ≤ r.term →
      nd.prevMatches r.prevLogIndex r.prevLogTerm = true →
      Numbered r.prevLogIndex r.entries ∧ nd.KeepsCommitted r.entries
  | .installSnapshot r => nd.currentTerm ≤ r.term → nd.lastApplied < r.snapshot.index →
      r.snapshot.Sane cfg ∧
        (nd.committed <+: r.snapshot.history ∨ r.snapshot.history <+: nd.committed)
  | _ => True

/-! ## One step -/

/-- The entries `k` are kept, and stay committed. -/
def Kept (k : List LogEntry) (l : List LogEntry) (c : ℕ) : Prop := k <+: l ∧ k.length ≤ c

section Blocks

open Node

variable {k : List LogEntry} {nd₀ nd nd' : Node n σ δ}

section

variable (h : Leads cfg (Kept k) nd₀ nd)
include h

/-- One more block, after which the log and the commit index are known. -/
theorem then_to (hl : LeadsTo cfg nd nd' l c) (hk : Kept k l c) : Leads cfg (Kept k) nd₀ nd' :=
  h.trans (hl.mono fun _ _ hlc => hlc.1 ▸ hlc.2 ▸ hk)

theorem saveMeta_leads : Leads cfg (Kept k) nd₀ nd.saveMeta :=
  then_to h ((h.steady.sameLog (.saveMeta nd)).leads rfl) h.holds

theorem committed_leads {i : ℕ} (hi : nd.commitIndex ≤ i) (hlen : i ≤ nd.fullLog.length) :
    Leads cfg (Kept k) nd₀ (nd.commitTo cfg i) :=
  then_to h (commitTo_leads cfg h.steady hi hlen).1 ⟨h.holds.1, le_trans h.holds.2 hi⟩

end

/-- What elections and proposals are made of.  A leader commits only what is in its log, whatever
it was told. -/
theorem keeps_leads (cfg : Config n σ δ) (k : List LogEntry) (nd₀ : Node n σ δ) :
    Keeps cfg (fun _ => True) (Leads cfg (Kept k) nd₀) where
  turns h ht := by
    refine h.sameLog ⟨ht.log, ht.machine, ht.commitIndex, ht.lastApplied, ht.lastIncludedIndex,
      ht.lastIncludedTerm, ?_, ?_, ?_, ht.applyResults⟩ ht.checkpoints <;> rw [ht.storage]
  saveMeta h := saveMeta_leads h
  append {nd} h command _ := by
    refine then_to h (append_leads h.steady ?_) ⟨h.holds.1.trans (List.prefix_append _ _), h.holds.2⟩
    show nd.lastLogIndex + 1 = _
    rw [h.steady.lastLogIndex_eq]
  commitTo {nd} h i e hlt he := by
    refine committed_leads h hlt.le ?_
    have hbase := le_trans h.steady.base_le h.steady.applied_le
    rw [h.steady.entryAt_eq (by omega)] at he
    have := (List.getElem?_eq_some_iff.1 he).1
    omega

/-- Absorbing entries that agree with `k` keeps `k`: induction over the entries. -/
theorem absorb_keeps {base : ℕ} (es : List LogEntry)
    (hkeep : ∀ e ∈ es, e.index ≤ k.length → base < e.index →
      ∀ x, k[e.index - 1]? = some x → x.term = e.term) (hk : k <+: l) :
    k <+: es.foldl (absorb base) l := by
  induction es generalizing l with
  | nil => exact hk
  | cons e es ih =>
    refine ih (fun e he => hkeep e (mem_cons_of_mem _ he)) ?_
    rw [prefix_iff_getElem?]
    intro i hi
    have hl := hk.length_le
    rw [getElem?_absorb (by omega)]
    · exact Consensus.prefix_getElem? hk (getElem?_eq_getElem hi)
    intro hle hlt x hx
    refine hkeep e mem_cons_self (by omega) hlt x ?_
    rw [← hx, Consensus.prefix_getElem? hk (getElem?_eq_getElem (by omega)),
      getElem?_eq_getElem]

/-! ### Requests -/

theorem adopt_sameLog (nd : Node n σ δ) (T : ℕ) (leader : Fin n) :
    SameLog nd ((nd.adoptTerm T).followLeader leader) := by
  unfold adoptTerm followLeader
  dsimp only
  split <;> split <;> constructor <;> rfl

theorem adopt_checkpoints (nd : Node n σ δ) (T : ℕ) (leader : Fin n) :
    ((nd.adoptTerm T).followLeader leader).checkpoints = nd.checkpoints := by
  unfold adoptTerm followLeader
  dsimp only
  split <;> split <;> rfl

theorem sameLog_entryAt (h : SameLog nd nd') (i : ℕ) : nd'.entryAt i = nd.entryAt i := by
  rw [entryAt, entryAt, h.log, h.lastIncludedIndex]

theorem sameLog_prevMatches (h : SameLog nd nd') (i t : ℕ) :
    nd'.prevMatches i t = nd.prevMatches i t := by
  have hlast : nd'.lastLogIndex = nd.lastLogIndex := by
    rw [lastLogIndex, lastLogIndex, h.log, h.lastIncludedIndex]
  rw [prevMatches, prevMatches, hlast, sameLog_entryAt h, h.lastIncludedIndex,
    h.lastIncludedTerm]

/-- The loop of `append_entries`, when it cuts off nothing committed. -/
theorem absorbed_leads (h : Leads cfg (Kept nd.committed) nd₀ nd) {prev : ℕ}
    {es : List LogEntry} (hes : Numbered prev es) (hprev : prev ≤ nd.fullLog.length)
    (hkeep : nd.KeepsCommitted es) :
    Leads cfg (Kept nd.committed) nd₀ (es.foldl absorbEntry nd) := by
  have hst := h.steady
  have hlen : nd.committed.length = nd.commitIndex := by
    rw [committed, length_take, min_eq_left hst.commit_le]
  have hagree : ∀ e ∈ es, e.index ≤ nd.committed.length → nd.lastIncludedIndex < e.index →
      ∀ x, nd.committed[e.index - 1]? = some x → x.term = e.term := by
    intro e he hle hlt x hx
    refine hkeep e he (hlen ▸ hle) x ?_
    rw [hst.entryAt_eq hlt, ← hx, committed, getElem?_take_of_lt (by omega)]
  have hturn : ∀ j, nd.committed <+:
      (es.take j).foldl (absorb nd.lastIncludedIndex) nd.fullLog := fun j =>
    absorb_keeps _ (fun e he => hagree e (mem_of_mem_take he)) h.holds.1
  refine h.trans (absorbEntries_leads hst hes hprev hkeep (S := Kept nd.committed)
    (fun j => ⟨hturn j, hlen.le⟩) fun j e he hlt x hx hne => ⟨?_, hlen.le⟩).1
  -- the cut is made above what is committed
  have habove : nd.commitIndex < e.index := by
    by_contra hle
    refine hne (hagree e (mem_of_getElem? he) (by omega) hlt x ?_)
    rw [← hx, Consensus.prefix_getElem? (hturn j) (getElem?_eq_getElem (by omega)),
      getElem?_eq_getElem]
  rw [prefix_take_iff]
  exact ⟨hturn j, by omega⟩

theorem followCommit_leads (h : Leads cfg (Kept k) nd₀ nd) (i : ℕ) :
    Leads cfg (Kept k) nd₀ (nd.followCommit cfg i) := by
  unfold followCommit
  split
  swap
  · exact h
  rename_i hlt
  have hlen := h.steady.commit_le
  have hlast := h.steady.lastLogIndex_eq
  exact committed_leads h (by omega) (by omega)

theorem appendEntries_leads (h : Leads cfg (Kept nd.committed) nd₀ nd)
    {r : AppendEntriesRequest n} (hin : Honest cfg nd (.appendEntries r)) :
    Leads cfg (Kept nd.committed) nd₀ (nd.appendEntries cfg r).1 := by
  rcases Nat.lt_or_ge r.term nd.currentTerm with hlt | hge
  · rw [nd.appendEntries_stale r hlt]; exact h
  have hadopt := adoptTerm_currentTerm nd hge
  have hsame := adopt_sameLog nd r.term r.leaderId
  have hcommitted : ((nd.adoptTerm r.term).followLeader r.leaderId).committed = nd.committed := by
    rw [committed, committed, hsame.fullLog_eq, hsame.commitIndex]
  have h₁ := h.sameLog hsame (adopt_checkpoints nd r.term r.leaderId)
  unfold appendEntries
  dsimp only
  rw [if_neg (by omega)]
  split
  swap
  · exact (keeps_leads cfg _ _).saveMetaIf h₁ _
  rename_i hok
  have hprev : r.prevLogIndex ≤ ((nd.adoptTerm r.term).followLeader r.leaderId).fullLog.length := by
    rw [← h₁.steady.lastLogIndex_eq]
    unfold prevMatches at hok
    split at hok
    · cases hok
    · omega
  rw [sameLog_prevMatches hsame] at hok
  obtain ⟨hes, hkeep⟩ := hin hge hok
  refine followCommit_leads ((keeps_leads cfg _ _).saveMetaIf ?_ _) _
  rw [← hcommitted] at h₁ ⊢
  refine absorbed_leads h₁ hes hprev fun e he hle x hx => ?_
  rw [hsame.commitIndex] at hle
  rw [sameLog_entryAt hsame] at hx
  exact hkeep e he hle x hx

theorem installSnapshot_leads (cfg : Config n σ δ) (h : Leads cfg (Kept nd.committed) nd₀ nd)
    {r : InstallSnapshotRequest n δ} (hin : Honest cfg nd (.installSnapshot r)) :
    Leads cfg (Kept nd.committed) nd₀ (nd.installSnapshot cfg r).1 := by
  rcases Nat.lt_or_ge r.term nd.currentTerm with hlt | hge
  · rw [nd.installSnapshot_stale r hlt]; exact h
  have hadopt := adoptTerm_currentTerm nd hge
  have hsame := adopt_sameLog nd r.term r.leaderId
  have h₁ := (keeps_leads cfg _ _).saveMetaIf (h.sameLog hsame
    (adopt_checkpoints nd r.term r.leaderId)) (nd.currentTerm < r.term)
  have hsame₁ : SameLog nd (((nd.adoptTerm r.term).followLeader r.leaderId).saveMetaIf
      (nd.currentTerm < r.term)) := by
    refine hsame.trans ?_
    unfold saveMetaIf
    split
    · exact .saveMeta _
    · constructor <;> rfl
  unfold installSnapshot
  dsimp only
  rw [if_neg (by omega)]
  split
  · exact h₁
  rename_i hnew
  rw [not_le] at hnew
  obtain ⟨hsane, hagree⟩ := hin hge (by rw [← hsame₁.lastApplied]; exact hnew)
  set nd₁ := ((nd.adoptTerm r.term).followLeader r.leaderId).saveMetaIf (nd.currentTerm < r.term)
  have hst := h₁.steady
  have hcommitted : nd₁.committed = nd.committed := by
    rw [committed, committed, hsame₁.fullLog_eq, hsame₁.commitIndex]
  have hhist : nd₁.machine.history <+: nd₁.committed := by
    rw [hst.history]
    exact take_prefix_take_left hst.applied_le
  rw [← hcommitted] at h₁ hagree ⊢
  have hkept : nd₁.machine.history <+: r.snapshot.history := by
    rcases hagree with hp | hp
    · exact hhist.trans hp
    · refine prefix_of_prefix_length_le hhist hp ?_
      rw [hst.length_history, hsane.length]
      exact hnew.le
  refine then_to h₁ (replaceState_leads cfg hst hsane (le_trans hst.base_le hnew.le) hkept) ⟨?_, ?_⟩
  · rcases hagree with hp | hp
    · exact hp.trans (prefix_append _ _)
    -- the snapshot is a prefix of the log, and puts back what it takes away
    have hfull := hp.trans (List.take_prefix nd₁.commitIndex nd₁.fullLog)
    have htake : r.snapshot.history = nd₁.fullLog.take r.snapshot.index := by
      rw [← hsane.length]; exact prefix_iff_eq_take.1 hfull
    rw [htake, take_append_drop]
    exact take_prefix _ _
  · exact le_trans h₁.holds.2 (le_max_left _ _)

/-- **Every handler keeps the node steady**, keeps what is committed, and makes no write
that a restart could not start from. -/
theorem handle_leads (cfg : Config n σ δ) (me : Fin n) (h : nd.Steady cfg)
    (hin : Honest cfg nd input) :
    Leads cfg (Kept nd.committed) nd.begin (nd.handle cfg me input).1 := by
  have hb : Leads cfg (Kept nd.begin.committed) nd.begin nd.begin := by
    refine .refl (h.sameLog (.begin nd)) ⟨List.take_prefix _ _, ?_⟩
    rw [committed, length_take]
    exact min_le_left _ _
  by_cases hfeed : input.Feeds
  · cases input with
    | appendEntries r => exact appendEntries_leads hb hin
    | installSnapshot r => exact installSnapshot_leads cfg hb hin
    | _ => exact hfeed.elim
  · refine (keeps_leads cfg _ _).handle_own hb (fun _ _ => trivial) me
      (input.holds_of_forall fun _ => trivial) (fun hf => ?_) hfeed
    cases input with
    | freezeWrites reason => exact hb.sameLog (by constructor <;> rfl) rfl
    | resumeWrites => exact hb.sameLog (by constructor <;> rfl) rfl
    | _ => exact hf.elim

end Blocks

/-! ## The restart -/

/-- A write that a restart can start from, and what comes of it. -/
theorem recovered (cfg : Config n σ δ) (hM : cfg.machine.Lawful) (me : Fin n) (hk : Kept k l c)
    (hs : Saves cfg cp l c) : let nd' := loadFromStorage cfg me cp.storage
    Numbered nd'.lastIncludedIndex nd'.log ∧
      nd'.commitIndex ≤ max cp.commitIndex cp.storage.base ∧
      (nd'.committed.length = nd'.commitIndex ∧
        (nd'.committed <+: k ∨ k <+: nd'.committed)) ∧
      nd'.machine.state = cfg.machine.replay nd'.committed := by
  intro nd'
  obtain ⟨hst, hfull, hcommit, happlied, -⟩ := loadFromStorage_steady cfg me hs.sane
  have hhist : nd'.machine.history = nd'.committed := by
    rw [hst.history, happlied, committed, hcommit]
  refine ⟨hst.log_numbered, ?_, ⟨?_, ?_⟩, ?_⟩
  · rw [hcommit]
    exact max_le_max hs.known le_rfl
  · rw [committed, length_take, min_eq_left hst.commit_le]
  · have hl : nd'.committed <+: l := by
      rw [committed, hfull, hs.fullLog]
      exact take_prefix _ _
    exact prefix_or_prefix_of_prefix hl hk.1
  · rw [← hhist]
    exact hst.reached.eq_replay hM

theorem recovered_from (hM : cfg.machine.Lawful) (me : Fin n) (h : nd.Steady cfg)
    (hin : Honest cfg nd input) (hcp : cp ∈ (nd.handle cfg me input).1.checkpoints) :
    let nd' := loadFromStorage cfg me cp.storage
    Numbered nd'.lastIncludedIndex nd'.log ∧
      nd'.commitIndex ≤ max cp.commitIndex cp.storage.base ∧
      (nd'.committed.length = nd'.commitIndex ∧
        (nd'.committed <+: nd.committed ∨ nd.committed <+: nd'.committed)) ∧
      nd'.machine.state = cfg.machine.replay nd'.committed := by
  rcases (handle_leads cfg me h hin).onTheWay cp hcp with hcp | ⟨l, c, hk, hsave⟩
  · rw [mem_singleton.1 hcp]
    refine recovered cfg hM me ⟨List.take_prefix _ _, ?_⟩ h.saves
    rw [committed, length_take]
    exact min_le_left _ _
  · exact recovered cfg hM me hk hsave

/-- A condition on what a node is asked, as a condition on the events of its life. -/
def OnAsked (C : Node n σ δ → Input n δ → Prop) (nd : Node n σ δ) (e : LifeEvent n δ) : Prop :=
  ∀ input ∈ e.asked, C nd input

/-- A node that is asked only what it may expect is steady all its life. -/
theorem life_steady {me : Fin n} {es : List (LifeEvent n δ)}
    (hh : Transition.Along (survive cfg me) (OnAsked (Honest cfg))
      (loadFromStorage cfg me .empty) es)
    (hl : life cfg me (loadFromStorage cfg me .empty) es = some nd) : nd.Steady cfg := by
  have hempty : (.empty : EngineRaftStorage n δ).Sane cfg :=
    ⟨Numbered.nil 0, rfl, rfl, nofun, le_rfl, nofun⟩
  refine hh.invariant ?_ (loadFromStorage_steady cfg me hempty).1 hl
  intro nd₁ e nd₂ hP hst hs
  refine survive_invariant (I := Node.Steady cfg) (D := EngineRaftStorage.Sane cfg)
    hst.disk_sane (fun input hin => ?_) (fun st h => (loadFromStorage_steady cfg me h).1) hs
  have hlead := handle_leads cfg me hst (hP input hin)
  refine ⟨hlead.steady, fun cp hcp => ?_⟩
  rcases hlead.onTheWay cp hcp with hcp | ⟨l, c, -, hsave⟩
  · rw [mem_singleton.1 hcp]
    exact hst.disk_sane
  · exact hsave.sane

/-- **Crash recovery.**  A node that has been asked only what it may expect handles one
more such input and crashes, between any two writes.  The restart finds a log without
gaps, has no more committed than the node knew or its snapshot holds, agrees with what
the node knew to be committed, and is in the state those commands lead to from the
start. -/
theorem crash_recovery (cfg : Config n σ δ) (hM : cfg.machine.Lawful) (me : Fin n)
    (es : List (LifeEvent n δ)) (nd : Node n σ δ)
    (hh : Transition.Along (Node.survive cfg me) (OnAsked (Honest cfg))
      (Node.loadFromStorage cfg me .empty) es)
    (hl : Node.life cfg me (Node.loadFromStorage cfg me .empty) es = some nd)
    (input : Input n δ) (hin : Honest cfg nd input) (cp : Checkpoint n δ)
    (hcp : cp ∈ (nd.handle cfg me input).1.checkpoints) :
    let nd' := Node.loadFromStorage cfg me cp.storage
    Numbered nd'.lastIncludedIndex nd'.log ∧
      nd'.commitIndex ≤ max cp.commitIndex cp.storage.base ∧
      (nd'.committed.length = nd'.commitIndex ∧
        (nd'.committed <+: nd.committed ∨ nd.committed <+: nd'.committed)) ∧
      nd'.machine.state = cfg.machine.replay nd'.committed := by
  exact recovered_from hM me (life_steady hh hl) hin hcp

/-- A leader's snapshot of two commands. -/
def shipped : InstallSnapshotRequest 3 (List Bytes) :=
  ⟨1, 1, 2, 1, [[5], [6]], [⟨1, 1, [5]⟩, ⟨1, 2, [6]⟩]⟩

theorem shipped_sane : shipped.snapshot.Sane (tapes 3 0) where
  numbered := by decide
  length := rfl
  term := rfl
  data := .restored (.apply ⟨1, 2, [6]⟩ (.apply ⟨1, 1, [5]⟩ .init)) rfl

/-- A node that crashes after the snapshot has been written, and before the commit index
has, knew of nothing committed and comes back with two commands committed. -/
theorem snapshot_ahead_of_commit :
    Honest (tapes 3 0) (Node.loadFromStorage (tapes 3 0) 0 .empty) (.installSnapshot shipped) ∧
    ∃ cp ∈ ((Node.loadFromStorage (tapes 3 0) 0 .empty).handle (tapes 3 0) 0
        (.installSnapshot shipped)).1.checkpoints,
      cp.commitIndex = 0 ∧ (Node.loadFromStorage (tapes 3 0) 0 cp.storage).commitIndex = 2 :=
  ⟨fun _ _ => ⟨shipped_sane, .inl nil_prefix⟩, by decide⟩

/-- A command is committed, then the snapshot comes. -/
def followed : List (LifeEvent 3 (List Bytes)) :=
  [.step (.appendEntries ⟨1, 1, 0, 0, [⟨1, 1, [5]⟩], 1⟩)]

theorem crash_recovery_followed :
    ∃ nd cp, Node.life (tapes 3 0) 0 (Node.loadFromStorage (tapes 3 0) 0 .empty) followed =
        some nd ∧
      cp ∈ (nd.handle (tapes 3 0) 0 (.installSnapshot shipped)).1.checkpoints ∧
      cp.commitIndex = 1 ∧
      (Node.loadFromStorage (tapes 3 0) 0 cp.storage).machine.state =
        (tapes 3 0).machine.replay (Node.loadFromStorage (tapes 3 0) 0 cp.storage).committed := by
  obtain ⟨nd, hl, hterm, hc, cp, hcp, hknown⟩ : ∃ nd,
      life (tapes 3 0) 0 (loadFromStorage (tapes 3 0) 0 .empty) followed = some nd ∧
      nd.currentTerm = 1 ∧ nd.committed = [⟨1, 1, [5]⟩] ∧
      ∃ cp ∈ (nd.handle (tapes 3 0) 0 (.installSnapshot shipped)).1.checkpoints,
        cp.commitIndex = 1 := Transition.exists_of_any (by decide)
  have hfirst : OnAsked (Honest (tapes 3 0)) (loadFromStorage (tapes 3 0) 0 .empty)
      (.step (.appendEntries ⟨1, 1, 0, 0, [⟨1, 1, [5]⟩], 1⟩)) := by
    rintro input ⟨⟩ - -
    exact ⟨by decide, by decide⟩
  refine ⟨nd, cp, hl, hcp, hknown, ?_⟩
  exact (crash_recovery (tapes 3 0) tape_lawful 0 followed nd ⟨hfirst, trivial⟩ hl
    (.installSnapshot shipped) (fun _ _ => ⟨shipped_sane, .inl (by rw [hc]; decide)⟩) cp
    hcp).2.2.2

/-! ## Runs of a group -/

/-- What the nodes of an orderly group are asked, they may expect. -/
theorem honest_of_rel {a : Log n} (hs : Sound LogEntry.term a) (h : NodeRel cfg a p nd)
    (hin : InputRel cfg a p input) : Honest cfg nd input := by
  have reigns : ∀ {T : ℕ} {el : Election (Fin n) LogEntry}, nd.currentTerm ≤ T →
      a.won T = some el → nd.committed <+: a.reign T :=
    fun hT hel => (h.chosen.mono hT).prefix_reign hs hel
  cases input with
  | appendEntries r =>
    obtain ⟨m, hr⟩ := hin
    intro hT _
    obtain ⟨el, hel⟩ := Progress.sent_won hs hr
    have hcommitted := reigns hT hel
    have hnum := hr.numbered.drop r.prevLogIndex
    rw [Nat.zero_add, ← hr.entries] at hnum
    refine ⟨hnum, fun e he hle x hx => ?_⟩
    -- both entries are the leader's
    rw [hr.entries] at he
    obtain ⟨j, hj⟩ := getElem?_of_mem (mem_of_mem_drop he)
    have hidx := hr.numbered j e hj
    obtain rfl : j = e.index - 1 := by omega
    have hlt : nd.lastIncludedIndex < e.index := by
      by_contra hge
      rw [Node.Steady.entryAt_none nd (not_lt.1 hge)] at hx
      cases hx
    rw [h.steady.entryAt_eq hlt] at hx
    have hx' : nd.committed[e.index - 1]? = some x := by
      rw [committed, getElem?_take_of_lt (by omega), hx]
    have hsame := (Consensus.prefix_getElem? hcommitted hx').symm.trans
      (Consensus.prefix_getElem? hr.reign hj)
    rw [Option.some.inj hsame]
  | installSnapshot r =>
    intro hT hnew
    refine ⟨hin.sane, ?_⟩
    obtain ⟨el, hel⟩ := Progress.shipped_won hs hin (by omega)
    exact prefix_or_prefix_of_prefix (reigns hT hel) hin.reign
  | _ => trivial

/-- So every node of an orderly group recovers, from a crash at any write. -/
theorem group_recovery (hM : cfg.machine.Lawful) {es : List (Event n)} {g : RaftCluster n σ δ}
    (ho : Along (Orderly cfg) cfg (init cfg) es) (hr : run cfg (init cfg) es = some g)
    {act : Action n} {j : ℕ} (hcp : g.crashPoint cfg act j = some (p, cp)) :
    let nd' := loadFromStorage cfg p cp.storage
    Numbered nd'.lastIncludedIndex nd'.log ∧
      nd'.commitIndex ≤ max cp.commitIndex cp.storage.base ∧
      (nd'.committed.length = nd'.commitIndex ∧
        (nd'.committed <+: (g.nodes p).committed ∨ (g.nodes p).committed <+: nd'.committed)) ∧
      nd'.machine.state = cfg.machine.replay nd'.committed := by
  obtain ⟨a, -, -, h⟩ := (Rel.init cfg).run ho hr
  unfold crashPoint at hcp
  split at hcp
  swap
  · cases hcp
  rename_i q input hin
  obtain ⟨cp', hcp', heq⟩ := Option.map_eq_some_iff.1 hcp
  obtain ⟨rfl, rfl⟩ := Prod.mk.inj heq
  exact recovered_from hM q (h.nodes q).steady (honest_of_rel h.sound (h.nodes q) (h.input hin))
    (mem_of_getElem? hcp')

theorem group_recovery_fed : ∃ g p cp, run (tapes 3 2) (init (tapes 3 2))
    (electing 0 1 0 ++ proposing 0 [7] 0 ++ [.act (.heartbeat 0 1)]) = some g ∧
    g.crashPoint (tapes 3 2) (.deliver 0) 1 = some (p, cp) ∧
    (loadFromStorage (tapes 3 2) p cp.storage).machine.state =
      tape.replay (loadFromStorage (tapes 3 2) p cp.storage).committed := by
  obtain ⟨g, hr, hcp⟩ : ∃ g, run (tapes 3 2) (init (tapes 3 2))
      (electing 0 1 0 ++ proposing 0 [7] 0 ++ [.act (.heartbeat 0 1)]) = some g ∧
      (g.crashPoint (tapes 3 2) (.deliver 0) 1).isSome := Transition.exists_of_any (by decide)
  obtain ⟨⟨p, cp⟩, hcp⟩ := Option.isSome_iff_exists.1 hcp
  exact ⟨g, p, cp, hr, hcp, (group_recovery tape_lawful (by decide) hr hcp).2.2.2⟩

end Recovery
end OxideDB.Raft
