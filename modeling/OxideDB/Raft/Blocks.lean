import OxideDB.Raft.FullLog

/-!
# What each block does to the whole log

Every block of a node that writes to the log, the snapshot or the commit index,
described by the whole log and the commit index it leads to — and by those a crash
on the way would lead to, since a block is a sequence of separate writes.

* `Leads cfg S nd nd'` — `nd` becomes `nd'`; what it has then, and what a crash on the
  way would leave it with, satisfies `S`.
* `append_leads`, `truncateFrom_leads`, `applyCommittedEntries_leads`,
  `commitTo_leads`, `replaceState_leads` — the blocks.
-/

namespace OxideDB.Raft

open List EngineRaftStorage
open Consensus (lastTerm)

variable {e : LogEntry} {i : ℕ}
variable {n : ℕ} {σ δ : Type} {cfg : Config n σ δ} {nd nd' nd'' : Node n σ δ}

/-- A crash here comes back with the log `l`, and with nothing beyond `c` committed. -/
structure Saves (cfg : Config n σ δ) (cp : Checkpoint n δ) (l : List LogEntry) (c : ℕ) :
    Prop where
  sane : cp.storage.Sane cfg
  fullLog : cp.storage.fullLog = l
  commit_le : cp.storage.commitIndex ≤ c
  base_le : cp.storage.base ≤ c
  /-- The disk knows of no commit that memory does not. -/
  known : cp.storage.commitIndex ≤ cp.commitIndex

variable {st : EngineRaftStorage n δ} {s : Snapshot δ}

namespace Node

/-- `nd` becomes `nd'`: the log and the commit index it has then, and those a crash on
the way would leave it with, satisfy `S`. -/
structure Leads (cfg : Config n σ δ) (S : List LogEntry → ℕ → Prop) (nd nd' : Node n σ δ) :
    Prop where
  steady : nd'.Steady cfg
  holds : S nd'.fullLog nd'.commitIndex
  onTheWay : ∀ cp ∈ nd'.checkpoints, cp ∈ nd.checkpoints ∨ ∃ l c, S l c ∧ Saves cfg cp l c

/-- There is one log and one commit index it can be left with. -/
abbrev LeadsTo (cfg : Config n σ δ) (nd nd' : Node n σ δ) (l : List LogEntry) (c : ℕ) : Prop :=
  Leads cfg (fun l' c' => l' = l ∧ c' = c) nd nd'

namespace Leads

variable {S S' : List LogEntry → ℕ → Prop}

theorem refl (h : nd.Steady cfg) (hS : S nd.fullLog nd.commitIndex) : Leads cfg S nd nd :=
  ⟨h, hS, fun _ hcp => .inl hcp⟩

variable (h : Leads cfg S nd nd')
include h

theorem trans (h' : Leads cfg S nd' nd'') : Leads cfg S nd nd'' where
  steady := h'.steady
  holds := h'.holds
  onTheWay cp hcp := by
    rcases h'.onTheWay cp hcp with hcp | hcp
    · exact h.onTheWay cp hcp
    · exact .inr hcp

theorem mono (hS : ∀ l c, S l c → S' l c) : Leads cfg S' nd nd' where
  steady := h.steady
  holds := hS _ _ h.holds
  onTheWay cp hcp := by
    rcases h.onTheWay cp hcp with hcp | ⟨l, c, hl, hs⟩
    · exact .inl hcp
    · exact .inr ⟨l, c, hS l c hl, hs⟩

theorem sameLog (hs : SameLog nd' nd'') (hc : nd''.checkpoints = nd'.checkpoints) :
    Leads cfg S nd nd'' where
  steady := h.steady.sameLog hs
  holds := by rw [hs.fullLog_eq, hs.commitIndex]; exact h.holds
  onTheWay cp hcp := h.onTheWay cp (hc ▸ hcp)

end Leads

theorem Steady.saves (h : nd.Steady cfg) :
    Saves cfg ⟨nd.storage, nd.currentTerm, nd.commitIndex⟩ nd.fullLog nd.commitIndex where
  sane := h.disk_sane
  fullLog := h.disk_fullLog
  commit_le := h.diskCommit
  base_le := by
    show nd.storage.base ≤ _
    rw [h.diskBase]
    exact le_trans h.base_le h.applied_le
  known := h.diskCommit

/-- One write, after which memory and disk agree again. -/
theorem Steady.leads (h : nd'.Steady cfg) (hcp : nd'.checkpoints =
      nd.checkpoints ++ [⟨nd'.storage, nd'.currentTerm, nd'.commitIndex⟩]) :
    LeadsTo cfg nd nd' nd'.fullLog nd'.commitIndex where
  steady := h
  holds := ⟨rfl, rfl⟩
  onTheWay cp hmem := by
    rw [hcp] at hmem
    rcases mem_append.1 hmem with hmem | hmem
    · exact .inl hmem
    · rw [mem_singleton.1 hmem]
      exact .inr ⟨_, _, ⟨rfl, rfl⟩, h.saves⟩

/-! ## Appending and truncating -/

section

variable (h : nd.Steady cfg)
include h

theorem append_leads (he : e.index = nd.fullLog.length + 1) :
    LeadsTo cfg nd (nd.append e) (nd.fullLog ++ [e]) nd.commitIndex := by
  have hfull : (nd.append e).fullLog = nd.fullLog ++ [e] := (append_assoc ..).symm
  have hdisk : (nd.storage.appendLogEntry e).live = nd.storage.live ++ [e] :=
    h.disk_sane.append (by rw [h.disk_fullLog]; exact he)
  suffices hs : (nd.append e).Steady cfg from hfull ▸ hs.leads rfl
  have happ := le_trans h.applied_le h.commit_le
  constructor
  · exact hfull ▸ h.numbered.concat (by omega)
  · show nd.machine.history = ((nd.append e).fullLog).take nd.lastApplied
    rw [hfull, take_append_of_le_length happ]
    exact h.history
  · exact h.base_le
  · exact h.applied_le
  · show nd.commitIndex ≤ ((nd.append e).fullLog).length
    rw [hfull, length_append]
    exact le_trans h.commit_le (Nat.le_add_right _ _)
  · show nd.lastIncludedTerm = lastTerm _ (((nd.append e).fullLog).take nd.lastIncludedIndex)
    rw [hfull, take_append_of_le_length h.base_le_length]
    exact h.baseTerm
  · exact h.diskBase
  · show nd.storage.folded = ((nd.append e).fullLog).take nd.lastIncludedIndex
    rw [hfull, take_append_of_le_length h.base_le_length]
    exact h.diskFolded
  · exact h.diskTerm
  · show (nd.storage.appendLogEntry e).live = nd.log ++ [e]
    rw [hdisk, h.diskLive]
  · exact h.diskCommit
  · intro x hx
    rcases mem_append.1 hx with hx | hx
    · exact h.diskPositive x (mem_of_mem_filter hx)
    · rcases mem_cons.1 hx with rfl | hx
      · omega
      · exact h.diskPositive x (mem_of_mem_filter hx)
  · exact h.diskData
  · exact h.reached
  · exact h.results

/-- The log cut above the commit index. -/
theorem truncateFrom_leads (hi : nd.commitIndex < i) (hlen : i ≤ nd.fullLog.length) :
    LeadsTo cfg nd (nd.truncateFrom i) (nd.fullLog.take (i - 1)) nd.commitIndex := by
  have happ := le_trans h.applied_le h.commit_le
  have hbase : nd.lastIncludedIndex ≤ i - 1 := by
    have := h.base_le; have := h.applied_le; omega
  let cut : Node n σ δ := { nd with log := nd.log.take (i - nd.lastIncludedIndex - 1) }
  have hfull : cut.fullLog = nd.fullLog.take (i - 1) := by
    show nd.machine.history.take nd.lastIncludedIndex ++
      nd.log.take (i - nd.lastIncludedIndex - 1) = _
    have hl : (nd.machine.history.take nd.lastIncludedIndex).length = nd.lastIncludedIndex := by
      rw [length_take, h.length_history]; exact min_eq_left h.base_le
    rw [fullLog, take_append, hl, take_of_length_le (hl.trans_le hbase)]
    congr 2
    omega
  have hcut : (cut.saveLogTruncate i).Steady cfg := by
    constructor
    · exact hfull ▸ h.numbered.take _
    · show nd.machine.history = cut.fullLog.take nd.lastApplied
      rw [hfull, take_take, min_eq_left (by have := h.applied_le; omega)]
      exact h.history
    · exact h.base_le
    · exact h.applied_le
    · show nd.commitIndex ≤ cut.fullLog.length
      rw [hfull, length_take]
      have := h.commit_le
      omega
    · show nd.lastIncludedTerm = lastTerm _ (cut.fullLog.take nd.lastIncludedIndex)
      rw [hfull, take_take, min_eq_left hbase]
      exact h.baseTerm
    · exact h.diskBase
    · show nd.storage.folded = cut.fullLog.take nd.lastIncludedIndex
      rw [hfull, take_take, min_eq_left hbase]
      exact h.diskFolded
    · exact h.diskTerm
    · show (nd.storage.truncateLog i).live = nd.log.take (i - nd.lastIncludedIndex - 1)
      rw [h.disk_sane.truncate, h.diskLive, h.diskBase]
    · exact h.diskCommit
    · exact fun x hx => h.diskPositive x (mem_of_mem_filter hx)
    · exact h.diskData
    · exact h.reached
    · exact h.results
  have hwrite : LeadsTo cfg nd (cut.saveLogTruncate i) (nd.fullLog.take (i - 1)) nd.commitIndex :=
    hfull ▸ hcut.leads rfl
  -- the commit index lies below the cut, so it is not pulled back
  have hlast : (cut.saveLogTruncate i).lastLogIndex = i - 1 := by
    rw [hcut.lastLogIndex_eq]
    show cut.fullLog.length = _
    rw [hfull, length_take]
    omega
  have hmin : min nd.commitIndex (cut.saveLogTruncate i).lastLogIndex = nd.commitIndex := by
    rw [hlast]; omega
  have hsame : SameLog (cut.saveLogTruncate i) (nd.truncateFrom i) := by
    refine ⟨rfl, rfl, hmin, ?_, rfl, rfl, rfl, rfl, rfl, rfl⟩
    show min nd.lastApplied (min nd.commitIndex (cut.saveLogTruncate i).lastLogIndex) = _
    rw [hmin]
    exact min_eq_left h.applied_le
  exact hwrite.sameLog hsame rfl

/-! ## Snapshots -/

theorem storeSnapshot_onTheWay (hs : s.Sane cfg) (hb : nd.lastIncludedIndex ≤ s.index)
    {cp : Checkpoint n δ} (hcp : cp ∈ (nd.storeSnapshot s).checkpoints) : cp ∈ nd.checkpoints ∨
      Saves cfg cp (s.history ++ nd.fullLog.drop s.index) (max nd.commitIndex s.index) := by
  obtain ⟨hsane, hfull⟩ := h.disk_sane.saveSnapshot_sane hs (h.diskBase.trans_le hb)
  rw [h.disk_fullLog] at hfull
  have hcommit := h.diskCommit
  rcases mem_append.1 hcp with hcp | hcp
  · rcases mem_append.1 hcp with hcp | hcp
    · exact .inl hcp
    · rw [mem_singleton.1 hcp]
      exact .inr ⟨hsane, hfull, le_trans hcommit (le_max_left _ _), le_max_right _ _, hcommit⟩
  · rw [mem_singleton.1 hcp]
    exact .inr ⟨hsane.compactLog_sane le_rfl,
      (compactLog_fullLog (le_refl s.index)).trans hfull,
      le_trans hcommit (le_max_left _ _), le_max_right _ _, hcommit⟩

/-- A node whose state and whose log below the snapshot have been replaced by it. -/
theorem Steady.ofSnapshot (nd' : Node n σ δ) (hs : s.Sane cfg) (hb : nd.lastIncludedIndex ≤ s.index)
    (hlog : nd'.log = nd.log.filter (s.index < ·.index)) (hhist : nd'.machine.history = s.history)
    (hbase : nd'.lastIncludedIndex = s.index) (hterm : nd'.lastIncludedTerm = s.term)
    (happ : nd'.lastApplied = s.index) (hcommit : nd'.commitIndex = max nd.commitIndex s.index)
    (hdlog : nd'.storage.log = nd.storage.log.filter (s.index < ·.index))
    (hdsnap : nd'.storage.snapshot = some s) (hdcommit : nd'.storage.commitIndex ≤ nd'.commitIndex)
    (hreached : cfg.machine.Reached nd'.machine.state s.history)
    (hkept : nd.machine.history <+: s.history) (hres : nd'.applyResults = nd.applyResults) :
    nd'.Steady cfg ∧ nd'.fullLog = s.history ++ nd.fullLog.drop s.index := by
  have hdrop : nd'.log = nd.fullLog.drop s.index := by
    rw [hlog, h.log_numbered.filter_gt hb, h.log_eq, drop_drop]
    congr 1
    omega
  have hfull : nd'.fullLog = s.history ++ nd.fullLog.drop s.index := by
    rw [fullLog, hhist, hbase, take_of_length_le hs.length.le, hdrop]
  have hbase' : nd'.storage.base = s.index := by rw [base, hdsnap]; rfl
  have htake : nd'.fullLog.take s.index = s.history := by rw [hfull]; exact take_left' hs.length
  obtain ⟨hsane, -⟩ := h.disk_sane.saveSnapshot_sane hs (h.diskBase.trans_le hb)
  refine ⟨⟨?_, ?_, ?_, ?_, ?_, ?_, ?_, ?_, ?_, ?_, hdcommit, ?_, ?_, hhist ▸ hreached, ?_⟩, hfull⟩
  · rw [hfull]
    refine Numbered.append_iff.2 ⟨hs.numbered, ?_⟩
    rw [hs.length]
    exact h.numbered.drop s.index
  · rw [hhist, happ, htake]
  · rw [hbase, happ]
  · rw [happ, hcommit]; exact le_max_right _ _
  · rw [hcommit, hfull, length_append, length_drop, hs.length]
    have := h.commit_le
    omega
  · rw [hbase, htake, hterm]; exact hs.term
  · rw [hbase', hbase]
  · rw [folded, hdsnap, hbase, htake]; rfl
  · rw [EngineRaftStorage.baseTerm, hdsnap, hterm]; rfl
  · rw [live, hbase', hdlog, filter_filter]
    simp only [Bool.and_self]
    have := h.disk_sane.saveSnapshot (s := s) (h.diskBase.trans_le hb)
    rw [h.diskLive, h.diskBase, ← h.log_numbered.filter_gt hb, ← hlog] at this
    exact this
  · rw [hdlog]
    exact fun x hx => h.diskPositive x (mem_of_mem_filter hx)
  · rw [hdsnap]
    rintro s' ⟨⟩
    exact hs.data
  · exact h.results.mono hres (hhist ▸ hkept)

end

/-- A snapshot from the leader takes the place of the state and of the log below it. -/
theorem replaceState_leads (cfg : Config n σ δ) (h : nd.Steady cfg) (hs : s.Sane cfg)
    (hb : nd.lastIncludedIndex ≤ s.index) (hkept : nd.machine.history <+: s.history) :
    LeadsTo cfg nd (nd.replaceState cfg s) (s.history ++ nd.fullLog.drop s.index)
      (max nd.commitIndex s.index) := by
  obtain ⟨hsteady, hfull⟩ := h.ofSnapshot (nd.replaceState cfg s) hs hb rfl rfl rfl rfl rfl
    rfl rfl rfl le_rfl hs.data hkept rfl
  refine ⟨hsteady, ⟨hfull, rfl⟩, fun cp hcp => ?_⟩
  rcases mem_append.1 hcp with hcp | hcp
  · rcases storeSnapshot_onTheWay h hs hb hcp with hcp | hcp
    · exact .inl hcp
    · exact .inr ⟨_, _, ⟨rfl, rfl⟩, hcp⟩
  · rw [mem_singleton.1 hcp]
    exact .inr ⟨_, _, ⟨rfl, rfl⟩, hfull ▸ hsteady.saves⟩

/-- The term of the last of the first `i` entries. -/
theorem lastTerm_take {l : List LogEntry} (hi : 0 < i) (he : l[i - 1]? = some e) :
    lastTerm (·.term) (l.take i) = e.term := by
  have hlt := (List.getElem?_eq_some_iff.1 he).1
  have hlast : (l.take i).getLast? = some e := by
    rw [getLast?_eq_getElem?, length_take, min_eq_left (by omega),
      List.getElem?_take_of_lt (by omega)]
    exact he
  rw [lastTerm, hlast]

theorem compact_leads (h : nd.Steady cfg) (he : nd.entryAt nd.lastApplied = some e) {data : δ}
    (hdata : cfg.machine.snapshot nd.machine.state = some data) :
    LeadsTo cfg nd (nd.compact e.term data) nd.fullLog nd.commitIndex := by
  have hlt : nd.lastIncludedIndex < nd.lastApplied := by
    by_contra hge
    rw [Steady.entryAt_none nd (by omega)] at he
    cases he
  rw [h.entryAt_eq hlt] at he
  have hs : Snapshot.Sane cfg ⟨nd.lastApplied, e.term, data, nd.machine.history⟩ := by
    refine ⟨?_, h.length_history, ?_, .restored h.reached hdata⟩
    · show Numbered 0 nd.machine.history
      rw [h.history]
      exact h.numbered.take _
    · show e.term = lastTerm _ nd.machine.history
      rw [h.history, lastTerm_take (by omega) he]
  have hcommit : nd.commitIndex = max nd.commitIndex nd.lastApplied :=
    (max_eq_left h.applied_le).symm
  have hsplit : nd.machine.history ++ nd.fullLog.drop nd.lastApplied = nd.fullLog := by
    rw [h.history, take_append_drop]
  obtain ⟨hsteady, hfull⟩ := h.ofSnapshot (nd.compact e.term data) hs h.base_le rfl rfl rfl
    rfl rfl hcommit rfl rfl h.diskCommit h.reached (prefix_refl _) rfl
  refine ⟨hsteady, ⟨hfull.trans hsplit, rfl⟩, fun cp hcp => ?_⟩
  rcases storeSnapshot_onTheWay h hs h.base_le hcp with hcp | hcp
  · exact .inl hcp
  · refine .inr ⟨_, _, ⟨rfl, rfl⟩, ?_⟩
    rw [← hcommit] at hcp
    exact hsplit ▸ hcp

theorem maybeSnapshot_leads (cfg : Config n σ δ) (h : nd.Steady cfg) :
    LeadsTo cfg nd (nd.maybeSnapshot cfg) nd.fullLog nd.commitIndex := by
  have hrefl : LeadsTo cfg nd nd nd.fullLog nd.commitIndex := .refl h ⟨rfl, rfl⟩
  refine maybeSnapshot_cases hrefl (hrefl.sameLog (by constructor <;> rfl) rfl) ?_
  exact fun e data he hdata => compact_leads h he hdata

/-! ## Applying and committing -/

theorem applyNext_of_some (he : nd.entryAt (nd.lastApplied + 1) = some e) :
    nd.applyNext cfg = { nd with
      lastApplied := nd.lastApplied + 1
      machine := ⟨(cfg.machine.applyEntry nd.machine.state e).1, nd.machine.history ++ [e]⟩
      applyResults := recordResult cfg.applyResultsWindow nd.applyResults (nd.lastApplied + 1)
        (cfg.machine.applyEntry nd.machine.state e).2 } := by
  unfold applyNext
  simp only [he]

/-- What is kept after one more result: old results, and the new one. -/
theorem mem_recordResult {window : ℕ} {rs : List (ℕ × ApplyResult)} {r : ApplyResult}
    {x : ℕ × ApplyResult} (hx : x ∈ recordResult window rs i r) : x ∈ rs ∨ x = (i, r) := by
  have hx := mem_of_mem_drop hx
  split at hx
  · obtain ⟨y, hy, rfl⟩ := mem_map.1 hx
    split
    · exact .inr rfl
    · exact .inl hy
  · rcases mem_append.1 hx with hx | hx
    · exact .inl hx
    · exact .inr (mem_singleton.1 hx)

/-- Below the commit index there is always an entry to apply. -/
theorem Steady.next_entry (h : nd.Steady cfg) (hlt : nd.lastApplied < nd.commitIndex) :
    ∃ e, nd.entryAt (nd.lastApplied + 1) = some e ∧
      nd.machine.history ++ [e] = nd.fullLog.take (nd.lastApplied + 1) := by
  have hlen : nd.lastApplied < nd.fullLog.length := lt_of_lt_of_le hlt h.commit_le
  have hbase := h.base_le
  refine ⟨nd.fullLog[nd.lastApplied], ?_, ?_⟩
  · rw [h.entryAt_eq (by omega), Nat.add_sub_cancel, getElem?_eq_getElem hlen]
  · rw [h.history, take_append_getElem hlen]

/-- A node that has applied more, or less, of the same log. -/
theorem Steady.of_applied (h : nd.Steady cfg) (hfull : nd'.fullLog = nd.fullLog)
    (hbase : nd'.lastIncludedIndex = nd.lastIncludedIndex)
    (hterm : nd'.lastIncludedTerm = nd.lastIncludedTerm) (hlog : nd'.log = nd.log)
    (hcommit : nd'.commitIndex = nd.commitIndex) (hst : nd'.storage = nd.storage)
    (hge : nd.lastIncludedIndex ≤ nd'.lastApplied) (hle : nd'.lastApplied ≤ nd.commitIndex)
    (hhist : nd'.machine.history = nd.fullLog.take nd'.lastApplied)
    (hreached : cfg.machine.Reached nd'.machine.state nd'.machine.history)
    (hresults : nd'.Recorded cfg) : nd'.Steady cfg where
  numbered := by rw [hfull]; exact h.numbered
  history := by rw [hfull]; exact hhist
  base_le := by rw [hbase]; exact hge
  applied_le := by rw [hcommit]; exact hle
  commit_le := by rw [hcommit, hfull]; exact h.commit_le
  baseTerm := by rw [hterm, hfull, hbase]; exact h.baseTerm
  diskBase := by rw [hst, hbase]; exact h.diskBase
  diskFolded := by rw [hst, hfull, hbase]; exact h.diskFolded
  diskTerm := by rw [hst, hterm]; exact h.diskTerm
  diskLive := by rw [hst, hlog]; exact h.diskLive
  diskCommit := by rw [hst, hcommit]; exact h.diskCommit
  diskPositive := by rw [hst]; exact h.diskPositive
  diskData := by rw [hst]; exact h.diskData
  reached := hreached
  results := hresults

section

variable (cfg : Config n σ δ)

theorem applyNext_steady (h : nd.Steady cfg) (hlt : nd.lastApplied < nd.commitIndex) :
    (nd.applyNext cfg).Steady cfg ∧ (nd.applyNext cfg).fullLog = nd.fullLog ∧
      (nd.applyNext cfg).lastApplied = nd.lastApplied + 1 := by
  obtain ⟨e, he, hhist⟩ := h.next_entry hlt
  rw [applyNext_of_some he]
  have hfull : (nd.machine.history ++ [e]).take nd.lastIncludedIndex ++ nd.log = nd.fullLog := by
    rw [take_append_of_le_length (by rw [h.length_history]; exact h.base_le)]
    rfl
  have hresults : Recorded cfg { nd with
      machine := ⟨(cfg.machine.applyEntry nd.machine.state e).1, nd.machine.history ++ [e]⟩
      applyResults := recordResult cfg.applyResultsWindow nd.applyResults (nd.lastApplied + 1)
        (cfg.machine.applyEntry nd.machine.state e).2 } := by
    intro x hx
    rcases mem_recordResult hx with hx | rfl
    · exact (h.results x hx).imp fun _ ⟨e', s, hp, hrest⟩ =>
        ⟨e', s, hp.trans (prefix_append ..), hrest⟩
    · exact ⟨_, e, _, prefix_refl _, by rw [h.length_history], h.reached, rfl⟩
  exact ⟨h.of_applied hfull rfl rfl rfl rfl rfl (Nat.le_succ_of_le h.base_le) hlt hhist
    (.apply e h.reached) hresults, hfull, rfl⟩

/-- The loop, up to any index the commit index allows: induction over its turns. -/
theorem applyNext_steps (h : nd.Steady cfg) {k : ℕ} (hk : nd.lastApplied + k ≤ nd.commitIndex) :
    ((applyNext cfg)^[k] nd).Steady cfg ∧ ((applyNext cfg)^[k] nd).fullLog = nd.fullLog := by
  induction k with
  | zero => exact ⟨h, rfl⟩
  | succ k ih =>
    obtain ⟨hs, hf⟩ := ih (by omega)
    obtain ⟨m, rs, heq⟩ := applyNext_iterate cfg k nd
    obtain ⟨hs', hf', -⟩ := applyNext_steady cfg hs (by rw [heq]; exact hk)
    rw [Function.iterate_succ_apply']
    exact ⟨hs', hf'.trans hf⟩

theorem applyCommittedEntries_frame (nd : Node n σ δ) :
    (nd.applyCommittedEntries cfg).commitIndex = nd.commitIndex ∧
      (nd.applyCommittedEntries cfg).lastApplied = max nd.lastApplied nd.commitIndex := by
  obtain ⟨m, rs, heq⟩ := applyNext_iterate cfg (nd.commitIndex - nd.lastApplied) nd
  have hmax : nd.lastApplied + (nd.commitIndex - nd.lastApplied) =
      max nd.lastApplied nd.commitIndex := by omega
  rw [applyCommittedEntries, heq, hmax]
  exact maybeSnapshot_cases (motive := fun nd' => nd'.commitIndex = nd.commitIndex ∧
    nd'.lastApplied = max nd.lastApplied nd.commitIndex) ⟨rfl, rfl⟩ ⟨rfl, rfl⟩
    fun _ _ _ _ => ⟨rfl, rfl⟩

/-- Everything committed is applied, and the log is none the shorter for it. -/
theorem applyCommittedEntries_leads (h : nd.Steady cfg) :
    LeadsTo cfg nd (nd.applyCommittedEntries cfg) nd.fullLog nd.commitIndex ∧
      (nd.applyCommittedEntries cfg).lastApplied = nd.commitIndex := by
  have happ := h.applied_le
  obtain ⟨m, rs, heq⟩ := applyNext_iterate cfg (nd.commitIndex - nd.lastApplied) nd
  obtain ⟨hs, hf⟩ := applyNext_steps cfg h (k := nd.commitIndex - nd.lastApplied) (by omega)
  rw [heq] at hs hf
  have hl := maybeSnapshot_leads cfg hs
  rw [hf] at hl
  refine ⟨?_, (applyCommittedEntries_frame cfg nd).2.trans (max_eq_right happ)⟩
  rw [applyCommittedEntries, heq]
  exact ⟨hl.steady, hl.holds, hl.onTheWay⟩

/-- The commit index moves up. -/
theorem commitTo_leads (h : nd.Steady cfg) (hi : nd.commitIndex ≤ i)
    (hlen : i ≤ nd.fullLog.length) :
    LeadsTo cfg nd (nd.commitTo cfg i) nd.fullLog i ∧ (nd.commitTo cfg i).lastApplied = i := by
  have hs : (saveCommitIndex { nd with commitIndex := i }).Steady cfg :=
    { h with
      applied_le := le_trans h.applied_le hi
      commit_le := hlen
      diskCommit := le_rfl }
  have hw : LeadsTo cfg nd (saveCommitIndex { nd with commitIndex := i }) nd.fullLog i := hs.leads rfl
  obtain ⟨hl, ha⟩ := applyCommittedEntries_leads cfg hs
  exact ⟨hw.trans hl, ha⟩

end

/-! ## What a leader sends -/

/-- A request of the term `T` with the entries of the log `m` after `i`, and the commit index `c`. -/
structure Asks (T : ℕ) (m : List LogEntry) (c i : ℕ) (r : AppendEntriesRequest n) : Prop where
  term : r.term = T
  prev : r.prevLogIndex = i
  entries : r.entries = m.drop i
  prevTerm (h : i ≤ m.length) : r.prevLogTerm = lastTerm LogEntry.term (m.take i)
  commit : r.leaderCommit = c

/-- A node sends the entries of its log from the peer's next index on. -/
theorem Steady.appendRequest (h : nd.Steady cfg) {me : Fin n} {next : Option ℕ}
    {r : AppendEntriesRequest n} (hr : appendRequest me (nd.replicateArgs next) = some r) :
    Asks nd.currentTerm nd.fullLog nd.commitIndex (next.getD (nd.lastLogIndex + 1) - 1) r := by
  have hlast := h.lastLogIndex_eq
  unfold Node.appendRequest Node.replicateArgs at hr
  dsimp only at hr
  set ni := next.getD (nd.lastLogIndex + 1) with hni
  split at hr
  · cases hr
  rename_i hbase
  cases hr
  refine ⟨rfl, rfl, ?_, fun hle => ?_, rfl⟩
  · show (if ni - 1 < nd.lastLogIndex then nd.log.filter (ni - 1 < ·.index) else []) =
      nd.fullLog.drop (ni - 1)
    split
    · rw [h.log_numbered.filter_gt (by omega), h.log_eq, drop_drop]
      congr 1
      omega
    · rw [drop_eq_nil_of_le (by omega)]
  · dsimp only
    split
    · rename_i e he
      have hlt : nd.lastIncludedIndex < ni - 1 := by
        by_contra hge
        rw [entryIn, if_neg hge] at he
        cases he
      have he : nd.fullLog[ni - 1 - 1]? = some e := by
        rw [← h.entryAt_eq hlt]; exact he
      exact (lastTerm_take (by omega) he).symm
    · rename_i he
      have hprev : ni - 1 = nd.lastIncludedIndex := by
        by_contra hlt
        have hnone : nd.fullLog[ni - 1 - 1]? = none := by
          rw [← h.entryAt_eq (by omega)]; exact he
        have := getElem?_eq_none_iff.1 hnone
        omega
      rw [if_pos hprev, hprev, h.baseTerm]

/-- A node's stored snapshot is the folded part of its log. -/
theorem Steady.loadSnapshot (h : nd.Steady cfg) (hs : nd.storage.loadSnapshot = some s) :
    s.Sane cfg ∧ s.index = nd.lastIncludedIndex ∧
      s.history = nd.fullLog.take nd.lastIncludedIndex := by
  have hsnap : nd.storage.snapshot = some s := hs
  have hfolded : nd.storage.folded = s.history := by
    rw [folded, hsnap]; rfl
  have hbase : nd.storage.base = s.index := by rw [base, hsnap]; rfl
  have hsane := h.disk_sane
  have hhist : s.history = nd.fullLog.take nd.lastIncludedIndex := by
    rw [← hfolded, h.diskFolded]
  refine ⟨⟨?_, ?_, ?_, h.diskData s hsnap⟩, hbase.symm.trans h.diskBase, hhist⟩
  · rw [hhist]; exact h.numbered.take _
  · rw [← hfolded, ← hbase]; exact hsane.length
  · have hterm := hsane.term
    rw [EngineRaftStorage.baseTerm, hfolded, hsnap] at hterm
    exact hterm

/-! ## Restart -/

/-- What a restart reads back before it applies anything. -/
theorem loadState_eq (cfg : Config n σ δ) (me : Fin n) (h : st.Sane cfg) :
    let nd := loadState cfg me st
    nd.log = st.live ∧ nd.machine.history = st.folded ∧ nd.lastIncludedIndex = st.base ∧
      nd.lastIncludedTerm = st.baseTerm ∧ nd.lastApplied = st.base ∧ nd.storage = st ∧
      nd.applyResults = [] ∧ cfg.machine.Reached nd.machine.state nd.machine.history := by
  unfold loadState live folded baseTerm
  rcases hs : st.snapshot with _ | s
  · have hbase : st.base = 0 := by rw [base, hs]; rfl
    simp only [loadSnapshot, hs, hbase, Option.map_none, Option.getD_none]
    refine ⟨?_, rfl, rfl, rfl, rfl, rfl, rfl, .init⟩
    exact (filter_eq_self.2 fun e he => decide_eq_true (h.positive e he)).symm
  · have hbase : st.base = s.index := by rw [base, hs]; rfl
    simp only [loadSnapshot, hs, hbase, Option.map_some, Option.getD_some]
    exact ⟨rfl, trivial, trivial, trivial, trivial, rfl, rfl, h.data s hs⟩

/-- **A restart puts back what was saved.**  The log is the one on disk, and what the
disk knows to be committed has been applied. -/
theorem loadFromStorage_steady (cfg : Config n σ δ) (me : Fin n) (h : st.Sane cfg) :
    let nd := loadFromStorage cfg me st
    nd.Steady cfg ∧ nd.fullLog = st.fullLog ∧ nd.commitIndex = st.reloaded ∧
      nd.lastApplied = st.reloaded ∧ ∀ cp ∈ nd.checkpoints, Saves cfg cp st.fullLog st.reloaded := by
  obtain ⟨hlog, hhist, hbase, hterm, happ, hst, hres, hreached⟩ := loadState_eq cfg me h
  set nd₀ := loadState cfg me st with hnd₀
  have hfull : nd₀.fullLog = st.fullLog := by
    rw [fullLog, hhist, hbase, hlog, take_of_length_le h.length.le, EngineRaftStorage.fullLog]
  have hlast : nd₀.lastLogIndex = st.fullLog.length := by
    unfold lastLogIndex
    rw [h.length_fullLog, hlog, hbase]
    rcases hl : st.live.getLast? with _ | e
    · rw [getLast?_eq_none_iff] at hl
      simp [hl]
    · exact h.live_numbered.getLast?_index hl
  have hcommit : max (min st.loadCommitIndex nd₀.lastLogIndex) nd₀.lastApplied = st.reloaded := by
    rw [hlast, happ]
    show max (min st.commitIndex st.fullLog.length) st.base = max st.commitIndex st.base
    rw [min_eq_left h.commit_le]
  have htake : nd₀.fullLog.take st.base = st.folded := by
    rw [hfull]; exact take_left' h.length
  let nd₁ : Node n σ δ := begin { nd₀ with
    commitIndex := max (min st.loadCommitIndex nd₀.lastLogIndex) nd₀.lastApplied }
  have hs : nd₁.Steady cfg := by
    constructor
    · show Numbered 0 nd₀.fullLog
      rw [hfull]; exact h.numbered
    · show nd₀.machine.history = nd₀.fullLog.take nd₀.lastApplied
      rw [hhist, happ, htake]
    · show nd₀.lastIncludedIndex ≤ nd₀.lastApplied
      rw [hbase, happ]
    · exact le_max_right _ _
    · show max (min st.loadCommitIndex nd₀.lastLogIndex) nd₀.lastApplied ≤ nd₀.fullLog.length
      rw [hcommit, hfull, reloaded, h.length_fullLog]
      exact max_le (h.length_fullLog ▸ h.commit_le) (Nat.le_add_right _ _)
    · show nd₀.lastIncludedTerm = lastTerm _ (nd₀.fullLog.take nd₀.lastIncludedIndex)
      rw [hterm, hbase, htake]; exact h.term
    · show nd₀.storage.base = nd₀.lastIncludedIndex
      rw [hst, hbase]
    · show nd₀.storage.folded = nd₀.fullLog.take nd₀.lastIncludedIndex
      rw [hst, hbase, htake]
    · show nd₀.storage.baseTerm = nd₀.lastIncludedTerm
      rw [hst, hterm]
    · show nd₀.storage.live = nd₀.log
      rw [hst, hlog]
    · show nd₀.storage.commitIndex ≤ max (min st.loadCommitIndex nd₀.lastLogIndex) nd₀.lastApplied
      rw [hcommit, hst]; exact le_max_left _ _
    · show ∀ e ∈ nd₀.storage.log, 0 < e.index
      rw [hst]; exact h.positive
    · show ∀ s ∈ nd₀.storage.snapshot, _
      rw [hst]; exact h.data
    · exact hreached
    · show ∀ x ∈ nd₀.applyResults, _
      rw [hres]
      exact fun x hx => absurd hx not_mem_nil
  obtain ⟨hl, ha⟩ := applyCommittedEntries_leads cfg hs
  refine ⟨hl.steady, hl.holds.1.trans hfull, hl.holds.2.trans hcommit, ha.trans hcommit,
    fun cp hcp => ?_⟩
  rcases hl.onTheWay cp hcp with hcp | ⟨l, c, ⟨rfl, rfl⟩, hsave⟩
  · rw [mem_singleton.1 hcp, ← hcommit, ← hfull]
    exact hs.saves
  · rw [← hcommit, ← hfull]
    exact hsave

end Node
end OxideDB.Raft
