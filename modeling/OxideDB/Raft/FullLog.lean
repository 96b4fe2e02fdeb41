import OxideDB.Raft.Node
import OxideDB.Consensus.Ledger

/-!
# The whole log of a node

Compaction is invisible to the protocol: a node that has folded a prefix of its log
into a snapshot still has that prefix, it only cannot enumerate it.  `fullLog` is the
log with the folded prefix put back, for a node and for a disk, and every block of
the node is described by what it does to it.

* `Saves` — a disk that reloads to a given log.
-/

namespace OxideDB.Raft

open List EngineRaftStorage
open Consensus (lastTerm)

variable {i : ℕ}

/-! ## Numbered entries -/

/-- The entries are numbered `b + 1`, `b + 2`, ... -/
def Numbered (b : ℕ) (l : List LogEntry) : Prop :=
  ∀ k e, l[k]? = some e → e.index = b + k + 1

namespace Numbered

variable {b : ℕ} {l l' : List LogEntry} {e : LogEntry}

theorem nil (b : ℕ) : Numbered b [] := by
  intro k e he
  simp at he

theorem cons_iff : Numbered b (e :: l) ↔ e.index = b + 1 ∧ Numbered (b + 1) l := by
  constructor
  · intro h
    refine ⟨by simpa using h 0 e rfl, fun k x hx => ?_⟩
    have := h (k + 1) x (by simpa using hx)
    omega
  · rintro ⟨he, hl⟩ k x hx
    cases k with
    | zero => simp only [getElem?_cons_zero, Option.some.injEq] at hx; subst hx; omega
    | succ k =>
      simp only [getElem?_cons_succ] at hx
      have := hl k x hx
      omega

instance decidable : (b : ℕ) → (l : List LogEntry) → Decidable (Numbered b l)
  | b, [] => isTrue (nil b)
  | b, e :: l =>
    have := decidable (b + 1) l
    decidable_of_iff' (e.index = b + 1 ∧ Numbered (b + 1) l) cons_iff

theorem append_iff : Numbered b (l ++ l') ↔ Numbered b l ∧ Numbered (b + l.length) l' := by
  induction l generalizing b with
  | nil => simp [nil]
  | cons x l ih =>
    rw [cons_append, cons_iff, cons_iff, ih, length_cons, and_assoc]
    have : b + 1 + l.length = b + (l.length + 1) := by omega
    rw [this]

section

variable (h : Numbered b l)
include h

theorem of_prefix (hp : l' <+: l) : Numbered b l' := by
  obtain ⟨t, rfl⟩ := hp
  exact (append_iff.1 h).1

theorem take (k : ℕ) : Numbered b (l.take k) := h.of_prefix (l.take_prefix k)

theorem drop (k : ℕ) : Numbered (b + k) (l.drop k) := by
  intro i e he
  rw [getElem?_drop] at he
  have := h _ e he
  omega

theorem concat (he : e.index = b + l.length + 1) : Numbered b (l ++ [e]) :=
  append_iff.2 ⟨h, cons_iff.2 ⟨he, nil _⟩⟩

/-- Keeping what is numbered above `i`. -/
theorem filter_gt (hi : b ≤ i) : l.filter (i < ·.index) = l.drop (i - b) := by
  induction l generalizing b with
  | nil => simp
  | cons x l ih =>
    obtain ⟨hx, hl⟩ := cons_iff.1 h
    rcases Nat.eq_or_lt_of_le hi with rfl | hlt
    · rw [Nat.sub_self, drop_zero, filter_eq_self]
      intro y hy
      obtain ⟨k, hk⟩ := getElem?_of_mem hy
      have := h k y hk
      simp only [decide_eq_true_eq]
      omega
    · rw [filter_cons_of_neg (by simp only [decide_eq_true_eq]; omega), ih hl hlt]
      obtain ⟨d, rfl⟩ : ∃ d, i = b + 1 + d := ⟨i - (b + 1), by omega⟩
      have h1 : b + 1 + d - (b + 1) = d := by omega
      have h2 : b + 1 + d - b = d + 1 := by omega
      rw [h1, h2, drop_succ_cons]

/-- Keeping what is numbered below `i`. -/
theorem filter_lt (i : ℕ) : l.filter (·.index < i) = l.take (i - b - 1) := by
  induction l generalizing b with
  | nil => simp
  | cons x l ih =>
    obtain ⟨hx, hl⟩ := cons_iff.1 h
    rcases Nat.lt_or_ge (b + 1) i with hlt | hge
    · rw [filter_cons_of_pos (by simp only [decide_eq_true_eq]; omega), ih hl]
      obtain ⟨d, rfl⟩ : ∃ d, i = b + 1 + (d + 1) := ⟨i - (b + 2), by omega⟩
      have h1 : b + 1 + (d + 1) - (b + 1) - 1 = d := by omega
      have h2 : b + 1 + (d + 1) - b - 1 = d + 1 := by omega
      rw [h1, h2, take_succ_cons]
    · have h0 : i - b - 1 = 0 := by omega
      rw [h0, take_zero, filter_eq_nil_iff]
      intro y hy
      obtain ⟨k, hk⟩ := getElem?_of_mem hy
      have := h k y hk
      simp only [decide_eq_true_eq]
      omega

theorem getLast?_index (he : l.getLast? = some e) : e.index = b + l.length := by
  rw [getLast?_eq_getElem?] at he
  have := h _ e he
  have hlt := (List.getElem?_eq_some_iff.1 he).1
  omega

end

theorem lastLogIndex_eq {n : ℕ} {σ δ : Type} {nd : Node n σ δ}
    (h : Numbered nd.lastIncludedIndex nd.log) :
    nd.lastLogIndex = nd.lastIncludedIndex + nd.log.length := by
  unfold Node.lastLogIndex
  rcases hl : nd.log.getLast? with _ | e
  · rw [getLast?_eq_none_iff] at hl
    simp [hl]
  · exact h.getLast?_index hl

end Numbered

/-! ## Disks -/

namespace EngineRaftStorage

variable {n : ℕ} {σ δ : Type} {cfg : Config n σ δ}

/-- The index of the stored snapshot. -/
def base (st : EngineRaftStorage n δ) : ℕ := (st.snapshot.map (·.index)).getD 0

/-- What the stored snapshot has folded in. -/
def folded (st : EngineRaftStorage n δ) : List LogEntry := (st.snapshot.map (·.history)).getD []

/-- The term of the stored snapshot. -/
def baseTerm (st : EngineRaftStorage n δ) : ℕ := (st.snapshot.map (·.term)).getD 0

/-- The entries a restart keeps. -/
def live (st : EngineRaftStorage n δ) : List LogEntry := st.log.filter (st.base < ·.index)

def fullLog (st : EngineRaftStorage n δ) : List LogEntry := st.folded ++ st.live

/-- The commit index a restart comes back with. -/
def reloaded (st : EngineRaftStorage n δ) : ℕ := max st.commitIndex st.base

/-- A disk a node can restart from. -/
structure Sane (cfg : Config n σ δ) (st : EngineRaftStorage n δ) : Prop where
  numbered : Numbered 0 st.fullLog
  length : st.folded.length = st.base
  term : st.baseTerm = lastTerm (·.term) st.folded
  positive : ∀ e ∈ st.log, 0 < e.index
  commit_le : st.commitIndex ≤ st.fullLog.length
  data : ∀ s ∈ st.snapshot, cfg.machine.Reached (cfg.machine.restore s.data) s.history

variable {st : EngineRaftStorage n δ}

namespace Sane

section

variable (h : st.Sane cfg)
include h

theorem live_numbered : Numbered st.base st.live := by
  have := (Numbered.append_iff.1 h.numbered).2
  rwa [h.length, Nat.zero_add] at this

theorem length_fullLog : st.fullLog.length = st.base + st.live.length := by
  rw [fullLog, length_append, h.length]

theorem append {e : LogEntry} (he : e.index = st.fullLog.length + 1) :
    (st.appendLogEntry e).live = st.live ++ [e] := by
  rw [h.length_fullLog] at he
  have hcomm : (st.appendLogEntry e).live =
      st.live.filter (·.index < e.index) ++ e :: st.live.filter (e.index < ·.index) := by
    show (st.log.filter (·.index < e.index) ++ e :: st.log.filter (e.index < ·.index)).filter
      (st.base < ·.index) = _
    rw [filter_append, filter_cons_of_pos (by simp only [decide_eq_true_eq]; omega),
      filter_filter, filter_filter, live, filter_filter, filter_filter]
    simp only [Bool.and_comm]
  rw [hcomm, h.live_numbered.filter_lt, h.live_numbered.filter_gt (by omega),
    take_of_length_le (by omega), drop_eq_nil_of_le (by omega)]

theorem truncate (i : ℕ) : (st.truncateLog i).live = st.live.take (i - st.base - 1) := by
  have hcomm : (st.truncateLog i).live = st.live.filter (·.index < i) := by
    show (st.log.filter (·.index < i)).filter (st.base < ·.index) = _
    rw [live, filter_filter, filter_filter]
    simp only [Bool.and_comm]
  rw [hcomm, h.live_numbered.filter_lt]

/-- A newer snapshot, on disk: what it covers is no longer live. -/
theorem saveSnapshot {s : Snapshot δ} (hs : st.base ≤ s.index) :
    (st.saveSnapshot s).live = st.live.drop (s.index - st.base) := by
  rw [← h.live_numbered.filter_gt hs]
  show st.log.filter (s.index < ·.index) = _
  rw [live, filter_filter]
  refine filter_congr fun e _ => ?_
  simp only [← Bool.decide_and]
  congr 1
  exact propext ⟨fun h => ⟨h, by omega⟩, fun h => h.1⟩

end

/-- Compacting up to the snapshot drops nothing that is live. -/
theorem compact (hi : i ≤ st.base) : (st.compactLog i).live = st.live := by
  show (st.log.filter (i < ·.index)).filter (st.base < ·.index) = _
  rw [live, filter_filter]
  refine filter_congr fun e _ => ?_
  simp only [← Bool.decide_and]
  congr 1
  exact propext ⟨fun h => h.1, fun h => ⟨h, by omega⟩⟩

end Sane

end EngineRaftStorage

/-- A snapshot that says how long its history is, what its last term is, and what state
its entries lead to. -/
structure Snapshot.Sane {n : ℕ} {σ δ : Type} (cfg : Config n σ δ) (s : Snapshot δ) : Prop where
  numbered : Numbered 0 s.history
  length : s.history.length = s.index
  term : s.term = lastTerm (·.term) s.history
  data : cfg.machine.Reached (cfg.machine.restore s.data) s.history

namespace EngineRaftStorage

variable {n : ℕ} {σ δ : Type} {cfg : Config n σ δ} {st : EngineRaftStorage n δ} {s : Snapshot δ}

/-- A newer snapshot on disk: its history takes the place of the log below it. -/
theorem Sane.saveSnapshot_sane (h : st.Sane cfg) (hs : s.Sane cfg) (hb : st.base ≤ s.index) :
    (st.saveSnapshot s).Sane cfg ∧
      (st.saveSnapshot s).fullLog = s.history ++ st.fullLog.drop s.index := by
  have hfull : (st.saveSnapshot s).fullLog = s.history ++ st.fullLog.drop s.index := by
    show s.history ++ (st.saveSnapshot s).live = _
    rw [h.saveSnapshot hb, fullLog, drop_append, h.length,
      drop_eq_nil_of_le (h.length.trans_le hb), nil_append]
  refine ⟨⟨?_, hs.length, hs.term, h.positive, ?_, ?_⟩, hfull⟩
  · rw [hfull]
    refine Numbered.append_iff.2 ⟨hs.numbered, ?_⟩
    rw [hs.length]
    exact h.numbered.drop s.index
  · rw [hfull, length_append, length_drop, hs.length]
    exact le_trans h.commit_le (by omega)
  · intro s' hs'
    cases hs'
    exact hs.data

theorem compactLog_fullLog (hi : i ≤ st.base) : (st.compactLog i).fullLog = st.fullLog := by
  rw [fullLog, fullLog, Sane.compact hi]
  rfl

theorem Sane.compactLog_sane (h : st.Sane cfg) (hi : i ≤ st.base) : (st.compactLog i).Sane cfg :=
  ⟨by rw [compactLog_fullLog hi]; exact h.numbered, h.length, h.term,
    fun e he => h.positive e (mem_of_mem_filter he),
    by rw [compactLog_fullLog hi]; exact h.commit_le, h.data⟩

end EngineRaftStorage

/-! ## Nodes -/

namespace Node

variable {n : ℕ} {σ δ : Type} {cfg : Config n σ δ} {nd nd' nd'' : Node n σ δ}

/-- The log with the folded prefix put back. -/
def fullLog (nd : Node n σ δ) : List LogEntry :=
  nd.machine.history.take nd.lastIncludedIndex ++ nd.log

/-- A result on file is what the machine answered when it applied the entry at that
index. -/
def Recorded (cfg : Config n σ δ) (nd : Node n σ δ) : Prop :=
  ∀ x ∈ nd.applyResults, ∃ h e s, h ++ [e] <+: nd.machine.history ∧ h.length + 1 = x.1 ∧
    cfg.machine.Reached s h ∧ x.2 = (cfg.machine.applyEntry s e).2

theorem Recorded.mono (h : nd.Recorded cfg) (hres : nd'.applyResults = nd.applyResults)
    (hhist : nd.machine.history <+: nd'.machine.history) : nd'.Recorded cfg := by
  intro x hx
  obtain ⟨l, e, s, hp, hrest⟩ := h x (hres ▸ hx)
  exact ⟨l, e, s, hp.trans hhist, hrest⟩

/-- A node between two writes: its log is numbered, what it applied is a prefix of it and
has led to the state it is in, and its disk holds the same. -/
structure Steady (cfg : Config n σ δ) (nd : Node n σ δ) : Prop where
  numbered : Numbered 0 nd.fullLog
  history : nd.machine.history = nd.fullLog.take nd.lastApplied
  base_le : nd.lastIncludedIndex ≤ nd.lastApplied
  applied_le : nd.lastApplied ≤ nd.commitIndex
  commit_le : nd.commitIndex ≤ nd.fullLog.length
  baseTerm : nd.lastIncludedTerm = lastTerm (·.term) (nd.fullLog.take nd.lastIncludedIndex)
  diskBase : nd.storage.base = nd.lastIncludedIndex
  diskFolded : nd.storage.folded = nd.fullLog.take nd.lastIncludedIndex
  diskTerm : nd.storage.baseTerm = nd.lastIncludedTerm
  diskLive : nd.storage.live = nd.log
  diskCommit : nd.storage.commitIndex ≤ nd.commitIndex
  diskPositive : ∀ e ∈ nd.storage.log, 0 < e.index
  diskData : ∀ s ∈ nd.storage.snapshot,
    cfg.machine.Reached (cfg.machine.restore s.data) s.history
  reached : cfg.machine.Reached nd.machine.state nd.machine.history
  results : nd.Recorded cfg

namespace Steady

section

variable (h : nd.Steady cfg)
include h

theorem base_le_length : nd.lastIncludedIndex ≤ nd.fullLog.length :=
  le_trans h.base_le (le_trans h.applied_le h.commit_le)

theorem length_history : nd.machine.history.length = nd.lastApplied := by
  rw [h.history, length_take]
  exact min_eq_left (le_trans h.applied_le h.commit_le)

theorem log_eq : nd.log = nd.fullLog.drop nd.lastIncludedIndex := by
  refine (drop_left' ?_).symm
  rw [length_take, h.length_history]
  exact min_eq_left h.base_le

theorem length_fullLog : nd.fullLog.length = nd.lastIncludedIndex + nd.log.length := by
  have := h.base_le_length
  rw [h.log_eq, length_drop]
  omega

theorem log_numbered : Numbered nd.lastIncludedIndex nd.log := by
  have := h.numbered.drop nd.lastIncludedIndex
  rwa [← h.log_eq, Nat.zero_add] at this

theorem disk_fullLog : nd.storage.fullLog = nd.fullLog := by
  rw [EngineRaftStorage.fullLog, h.diskFolded, h.diskLive, h.log_eq, take_append_drop]

theorem disk_sane : nd.storage.Sane cfg where
  numbered := h.disk_fullLog ▸ h.numbered
  length := by
    rw [h.diskFolded, h.diskBase, length_take]
    exact min_eq_left h.base_le_length
  term := by rw [h.diskTerm, h.diskFolded, h.baseTerm]
  positive := h.diskPositive
  commit_le := h.disk_fullLog ▸ le_trans h.diskCommit h.commit_le
  data := h.diskData

/-- What the node reads off its log, said of the whole log. -/
theorem lastLogIndex_eq : nd.lastLogIndex = nd.fullLog.length :=
  h.log_numbered.lastLogIndex_eq.trans h.length_fullLog.symm

theorem lastLogTerm_eq : nd.lastLogTerm = lastTerm (·.term) nd.fullLog := by
  unfold lastLogTerm
  rcases hl : nd.log.getLast? with _ | e
  · rw [getLast?_eq_none_iff] at hl
    have hlen := h.length_fullLog
    rw [hl, length_nil, Nat.add_zero] at hlen
    simp only [h.baseTerm]
    rw [take_of_length_le hlen.le]
  · have : nd.fullLog.getLast? = some e := by
      rw [fullLog, getLast?_append, hl]
      rfl
    rw [lastTerm, this]

theorem entryAt_eq (hi : nd.lastIncludedIndex < i) : nd.entryAt i = nd.fullLog[i - 1]? := by
  rw [entryAt, entryIn, if_pos hi, h.log_eq, getElem?_drop]
  congr 1
  omega

end

theorem entryAt_none (nd : Node n σ δ) (hi : i ≤ nd.lastIncludedIndex) : nd.entryAt i = none := by
  rw [entryAt, entryIn, if_neg (by omega)]

end Steady

/-- The fields `Steady` and `fullLog` look at are as they were. -/
structure SameLog (nd nd' : Node n σ δ) : Prop where
  log : nd'.log = nd.log
  machine : nd'.machine = nd.machine
  commitIndex : nd'.commitIndex = nd.commitIndex
  lastApplied : nd'.lastApplied = nd.lastApplied
  lastIncludedIndex : nd'.lastIncludedIndex = nd.lastIncludedIndex
  lastIncludedTerm : nd'.lastIncludedTerm = nd.lastIncludedTerm
  diskLog : nd'.storage.log = nd.storage.log
  diskSnapshot : nd'.storage.snapshot = nd.storage.snapshot
  diskCommit : nd'.storage.commitIndex = nd.storage.commitIndex
  applyResults : nd'.applyResults = nd.applyResults

namespace SameLog

theorem begin (nd : Node n σ δ) : SameLog nd nd.begin := by
  constructor <;> rfl

theorem saveMeta (nd : Node n σ δ) : SameLog nd nd.saveMeta := by
  constructor <;> rfl

theorem trans (h : SameLog nd nd') (h' : SameLog nd' nd'') : SameLog nd nd'' :=
  ⟨h'.log.trans h.log, h'.machine.trans h.machine, h'.commitIndex.trans h.commitIndex,
    h'.lastApplied.trans h.lastApplied, h'.lastIncludedIndex.trans h.lastIncludedIndex,
    h'.lastIncludedTerm.trans h.lastIncludedTerm, h'.diskLog.trans h.diskLog,
    h'.diskSnapshot.trans h.diskSnapshot, h'.diskCommit.trans h.diskCommit,
    h'.applyResults.trans h.applyResults⟩

theorem fullLog_eq (h : SameLog nd nd') : nd'.fullLog = nd.fullLog := by
  rw [fullLog, fullLog, h.machine, h.lastIncludedIndex, h.log]

end SameLog

theorem Steady.sameLog (hs : nd.Steady cfg) (h : SameLog nd nd') : nd'.Steady cfg := by
  have hbase : nd'.storage.base = nd.storage.base := by
    rw [base, base, h.diskSnapshot]
  constructor
  · rw [h.fullLog_eq]; exact hs.numbered
  · rw [h.fullLog_eq, h.machine, h.lastApplied]; exact hs.history
  · rw [h.lastIncludedIndex, h.lastApplied]; exact hs.base_le
  · rw [h.lastApplied, h.commitIndex]; exact hs.applied_le
  · rw [h.fullLog_eq, h.commitIndex]; exact hs.commit_le
  · rw [h.fullLog_eq, h.lastIncludedIndex, h.lastIncludedTerm]; exact hs.baseTerm
  · rw [hbase, h.lastIncludedIndex]; exact hs.diskBase
  · rw [folded, h.diskSnapshot, h.fullLog_eq, h.lastIncludedIndex]
    exact hs.diskFolded
  · rw [EngineRaftStorage.baseTerm, h.diskSnapshot, h.lastIncludedTerm]; exact hs.diskTerm
  · rw [live, hbase, h.diskLog, h.log]; exact hs.diskLive
  · rw [h.diskCommit, h.commitIndex]; exact hs.diskCommit
  · rw [h.diskLog]; exact hs.diskPositive
  · rw [h.diskSnapshot]; exact hs.diskData
  · rw [h.machine]; exact hs.reached
  · rw [Recorded, h.applyResults, h.machine]; exact hs.results

end Node
end OxideDB.Raft
