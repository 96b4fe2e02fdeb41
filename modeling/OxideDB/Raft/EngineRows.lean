import Mathlib.Data.List.Sort
import OxideDB.ByteOrder
import OxideDB.Msgpack
import OxideDB.Raft.Storage
import OxideDB.SortedTable

/-!
# The rows of a node's storage

`EngineRaftStorage` of `raft/storage.py` as it lies on a byte-ordered engine: a log entry under its
index in eight bytes, the vote, the commit index and the snapshot each under one byte, and the notes
of a node under their names.  A number that does not fit raises.
-/

namespace OxideDB.Raft

open List SortedTable ByteOrder
open ByteOrder (bigEndian ofBigEndian)
open Msgpack (utf8 utf8_injective)

variable {key start stop : Bytes} {x : ℕ}
variable {n : ℕ} {δ : Type}

/-- What is stored under a key: something msgpack has packed, or bytes as they are. -/
inductive Record (n : ℕ) (δ : Type) where
  | entry (term : ℕ) (command : Bytes)
  | vote (currentTerm : ℕ) (votedFor : Option (Fin n))
  | snapshot (snapshot : Snapshot δ)
  | raw (bytes : Bytes)

/-- `index.to_bytes(8, 'big')`. -/
def toBytes (x : ℕ) : Except String Bytes :=
  if x < 256 ^ 8 then .ok (bigEndian 8 x) else .error "int too big to convert"

/-- The numbers msgpack packs. -/
def packInt (x : ℕ) : Except String Unit :=
  if x < 2 ^ 64 then .ok () else .error "Integer value out of range"

/-- The rows the storage writes. -/
inductive Written : Bytes → Record n δ → Prop
  | entry {index : ℕ} (h : index < 256 ^ 8) (term : ℕ) (command : Bytes) :
    Written (1 :: bigEndian 8 index) (.entry term command)
  | vote (currentTerm : ℕ) (votedFor : Option (Fin n)) : Written [2] (.vote currentTerm votedFor)
  | commit {commitIndex : ℕ} (h : commitIndex < 256 ^ 8) :
    Written [3] (.raw (bigEndian 8 commitIndex))
  | snapshot (snapshot : Snapshot δ) : Written [4] (.snapshot snapshot)
  | admin (key : String) (value : Bytes) : Written (5 :: utf8 key) (.raw value)

/-- The storage: an engine all of whose rows are its own. -/
structure EngineRows (n : ℕ) (δ : Type) where
  engine : SortedTable Bytes (Record n δ)
  written : ∀ row ∈ engine.rows, Written row.1 row.2

namespace EngineRows

/-- The storage over an engine nothing has been written to. -/
def empty : EngineRows n δ := ⟨.empty, nofun⟩

/-- `engine.put`. -/
def put (st : EngineRows n δ) (key : Bytes) (record : Record n δ) (h : Written key record) :
    EngineRows n δ where
  engine := st.engine.put key record
  written row hrow := by
    rcases SortedTable.mem_put hrow with rfl | hrow
    · exact h
    · exact st.written row hrow

/-- `engine.delete_range`. -/
def deleteRange (st : EngineRows n δ) (start stop : Bytes) : EngineRows n δ where
  engine := st.engine.eraseRange start stop
  written row hrow := st.written row (List.mem_filter.1 hrow).1

/-! ## The methods -/

def saveMeta (st : EngineRows n δ) (currentTerm : ℕ) (votedFor : Option (Fin n)) :
    Except String (EngineRows n δ) := do
  packInt currentTerm
  if let some v := votedFor then packInt v
  return st.put [2] (.vote currentTerm votedFor) (.vote _ _)

def loadMeta (st : EngineRows n δ) : ℕ × Option (Fin n) :=
  match st.engine.get [2] with
  | some (.vote currentTerm votedFor) => (currentTerm, votedFor)
  | _ => (0, none)

def appendLogEntry (st : EngineRows n δ) (entry : LogEntry) : Except String (EngineRows n δ) := do
  if h : entry.index < 256 ^ 8 then
    packInt entry.term
    return st.put (1 :: bigEndian 8 entry.index) (.entry entry.term entry.command) (.entry h _ _)
  else throw "int too big to convert"

def truncateLog (st : EngineRows n δ) (fromIndex : ℕ) : Except String (EngineRows n δ) := do
  return st.deleteRange (1 :: (← toBytes fromIndex)) [2]

def compactLog (st : EngineRows n δ) (lastIncludedIndex : ℕ) : Except String (EngineRows n δ) := do
  return st.deleteRange (1 :: (← toBytes 0)) (1 :: (← toBytes (lastIncludedIndex + 1)))

/-- A row of the log, decoded. -/
def logEntry : Bytes × Record n δ → Option LogEntry
  | (key, .entry term command) => some ⟨term, ofBigEndian ((key.drop 1).take 8), command⟩
  | _ => none

def loadLog (st : EngineRows n δ) : List LogEntry :=
  ((st.engine.scan [1] [2]).filterMap logEntry).insertionSort (·.index ≤ ·.index)

def saveCommitIndex (st : EngineRows n δ) (commitIndex : ℕ) : Except String (EngineRows n δ) :=
  if h : commitIndex < 256 ^ 8 then .ok (st.put [3] (.raw (bigEndian 8 commitIndex)) (.commit h))
  else .error "int too big to convert"

def loadCommitIndex (st : EngineRows n δ) : ℕ :=
  match st.engine.get [3] with
  | some (.raw raw) => ofBigEndian raw
  | _ => 0

def saveSnapshot (st : EngineRows n δ) (snapshot : Snapshot δ) :
    Except String (EngineRows n δ) := do
  packInt snapshot.index
  packInt snapshot.term
  return st.put [4] (.snapshot snapshot) (.snapshot _)

def loadSnapshot (st : EngineRows n δ) : Option (Snapshot δ) :=
  match st.engine.get [4] with
  | some (.snapshot snapshot) => some snapshot
  | _ => none

def saveAdmin (st : EngineRows n δ) (key : String) (value : Bytes) : EngineRows n δ :=
  st.put (5 :: utf8 key) (.raw value) (.admin _ _)

def loadAdmin (st : EngineRows n δ) (key : String) : Option Bytes :=
  match st.engine.get (5 :: utf8 key) with
  | some (.raw value) => some value
  | _ => none

def deleteAdmin (st : EngineRows n δ) (key : String) : EngineRows n δ where
  engine := st.engine.erase (5 :: utf8 key)
  written row hrow := st.written row (SortedTable.mem_erase hrow)

/-! ## The log -/

variable {st st' : EngineRows n δ}

theorem logKey_lt {i j : ℕ} (hi : i < 256 ^ 8) (hj : j < 256 ^ 8) :
    (1 :: bigEndian 8 i : Bytes) < 1 :: bigEndian 8 j ↔ i < j := by
  rw [cons_lt_cons, bigEndian_lt_bigEndian hi hj]
  exact ⟨fun h => (h.resolve_left (lt_irrefl _)).2, fun h => .inr ⟨rfl, h⟩⟩

theorem logEntry_row {index : ℕ} (h : index < 256 ^ 8) (term : ℕ) (command : Bytes) :
    logEntry ((1 :: bigEndian 8 index, .entry term command) : Bytes × Record n δ) =
      some ⟨term, index, command⟩ := by
  have htake : (bigEndian 8 index).take 8 = bigEndian 8 index :=
    take_of_length_le (by rw [length_bigEndian])
  rw [logEntry, drop_one, tail_cons, htake, ofBigEndian_bigEndian h]

/-- The rows under the byte of the log are entries. -/
theorem mem_scan_log {row : Bytes × Record n δ} : row ∈ st.engine.scan [1] [2] ↔
    ∃ e : LogEntry, e.index < 256 ^ 8 ∧ row = (1 :: bigEndian 8 e.index, .entry e.term e.command) ∧
      st.engine.get (1 :: bigEndian 8 e.index) = some (.entry e.term e.command) := by
  rw [mem_scan]
  constructor
  · rintro ⟨hrow, hlo, hhi⟩
    obtain ⟨key, record⟩ := row
    cases st.written _ hrow with
    | entry h term command => exact ⟨⟨term, _, command⟩, h, rfl, get_eq_some.2 hrow⟩
    | admin name value =>
      rw [cons_lt_cons] at hhi
      rcases hhi with h | ⟨h, -⟩ <;> exact absurd h (by decide)
    | _ =>
      dsimp only at hhi
      exact absurd hhi (by decide)
  · rintro ⟨e, h, rfl, hget⟩
    refine ⟨get_eq_some.1 hget, ?_, ?_⟩
    · exact cons_le_cons.2 (.inr ⟨rfl, not_lt.1 (ByteOrder.not_lt_nil _)⟩)
    · exact cons_lt_cons.2 (.inl (by decide))

theorem sorted_filterMap (st : EngineRows n δ) :
    ((st.engine.scan [1] [2]).filterMap logEntry).Pairwise fun e e' => e.index < e'.index := by
  rw [pairwise_filterMap]
  refine (st.engine.sorted.filter _).imp_of_mem fun {row row'} hr hr' hlt e he e' he' => ?_
  obtain ⟨x, hx, rfl, -⟩ := mem_scan_log.1 hr
  obtain ⟨x', hx', rfl, -⟩ := mem_scan_log.1 hr'
  rw [logEntry_row hx] at he
  rw [logEntry_row hx'] at he'
  cases he
  cases he'
  exact (logKey_lt hx hx').1 hlt

theorem loadLog_eq (st : EngineRows n δ) :
    st.loadLog = (st.engine.scan [1] [2]).filterMap logEntry :=
  ((sorted_filterMap st).imp fun h => h.le).insertionSort_eq

theorem sorted_loadLog (st : EngineRows n δ) :
    st.loadLog.Pairwise fun e e' => e.index < e'.index :=
  loadLog_eq st ▸ sorted_filterMap st

/-- **The log is the rows** under its byte. -/
theorem mem_loadLog {e : LogEntry} : e ∈ st.loadLog ↔ e.index < 256 ^ 8 ∧
    st.engine.get (1 :: bigEndian 8 e.index) = some (.entry e.term e.command) := by
  rw [loadLog_eq, mem_filterMap]
  constructor
  · rintro ⟨row, hrow, he⟩
    obtain ⟨x, hx, rfl, hget⟩ := mem_scan_log.1 hrow
    rw [logEntry_row hx] at he
    cases he
    exact ⟨hx, hget⟩
  · rintro ⟨h, hget⟩
    exact ⟨_, mem_scan_log.2 ⟨e, h, rfl, hget⟩, logEntry_row h _ _⟩

/-! ## What the calls do to the records -/

/-- The records the rows are, in the terms of the node's own model. -/
def records (st : EngineRows n δ) : EngineRaftStorage n δ where
  currentTerm := st.loadMeta.1
  votedFor := st.loadMeta.2
  log := st.loadLog
  commitIndex := st.loadCommitIndex
  snapshot := st.loadSnapshot

/-- Two logs in the order of their indices with the same entries are one. -/
theorem eq_of_sorted {l l' : List LogEntry} (h : l.Pairwise fun e e' => e.index < e'.index)
    (h' : l'.Pairwise fun e e' => e.index < e'.index) (hmem : ∀ e, e ∈ l ↔ e ∈ l') : l = l' := by
  have hanti : Std.Antisymm fun e e' : LogEntry => e.index < e'.index :=
    ⟨fun _ _ hlt hgt => absurd hgt (lt_asymm hlt)⟩
  have hirrefl : Std.Irrefl fun e e' : LogEntry => e.index < e'.index := ⟨fun _ => lt_irrefl _⟩
  exact h.eq_of_mem_iff h' hmem

/-- A row that is not of the log is no change to the log. -/
theorem loadLog_congr (h : ∀ e : LogEntry, st'.engine.get (1 :: bigEndian 8 e.index) =
    st.engine.get (1 :: bigEndian 8 e.index)) : st'.loadLog = st.loadLog := by
  refine eq_of_sorted (sorted_loadLog st') (sorted_loadLog st) fun e => ?_
  rw [mem_loadLog, mem_loadLog, h]

theorem get_put (st : EngineRows n δ) {record : Record n δ} (h : Written key record)
    (key' : Bytes) :
    (st.put key record h).engine.get key' =
      if key' = key then some record else st.engine.get key' := by
  have hget := SortedTable.get_put st.engine key key' record
  split at hget
  · next heq => rw [if_pos heq, ← hget, put]
  · next hne => rw [if_neg hne, ← hget, put]

/-- The log after an entry is put at its index. -/
theorem loadLog_appendLogEntry {entry : LogEntry} (h : entry.index < 256 ^ 8) :
    (st.put (1 :: bigEndian 8 entry.index) (.entry entry.term entry.command) (.entry h _ _)).loadLog =
      st.loadLog.filter (·.index < entry.index) ++ entry ::
        st.loadLog.filter (entry.index < ·.index) := by
  refine eq_of_sorted (sorted_loadLog _) ?_ fun e => ?_
  · rw [pairwise_append, pairwise_cons]
    refine ⟨(sorted_loadLog st).filter _, ⟨fun e he => ?_, (sorted_loadLog st).filter _⟩,
      fun e he e' he' => ?_⟩
    · exact of_decide_eq_true (mem_filter.1 he).2
    have hlt : e.index < entry.index := of_decide_eq_true (mem_filter.1 he).2
    rcases mem_cons.1 he' with rfl | he'
    · exact hlt
    · exact hlt.trans (of_decide_eq_true (mem_filter.1 he').2)
  · rw [mem_loadLog, get_put]
    by_cases heq : e.index = entry.index
    · rw [if_pos (by rw [heq])]
      simp only [mem_append, mem_cons, mem_filter, heq, lt_irrefl, decide_false,
        Bool.false_eq_true, and_false, false_or, or_false]
      constructor
      · rintro ⟨-, hget⟩
        obtain ⟨hterm, hcommand⟩ := Record.entry.inj (Option.some.inj hget)
        cases e
        cases entry
        simp_all
      · rintro rfl
        exact ⟨h, rfl⟩
    · have hne : e.index < 256 ^ 8 →
          (1 :: bigEndian 8 e.index : Bytes) ≠ 1 :: bigEndian 8 entry.index := fun he hkey =>
        heq (bigEndian_injective he h (cons.inj hkey).2)
      have hentry : e ≠ entry := fun h => heq (by rw [h])
      simp only [mem_append, mem_cons, mem_filter, decide_eq_true_eq, hentry,
        false_or, mem_loadLog]
      constructor
      · rintro ⟨he, hget⟩
        rw [if_neg (hne he)] at hget
        exact (lt_or_gt_of_ne heq).imp (fun hlt => ⟨⟨he, hget⟩, hlt⟩) fun hgt => ⟨⟨he, hget⟩, hgt⟩
      · rintro (⟨⟨he, hget⟩, -⟩ | ⟨⟨he, hget⟩, -⟩)
        · exact ⟨he, by rwa [if_neg (hne he)]⟩
        · exact ⟨he, by rwa [if_neg (hne he)]⟩

/-- The log after a range of its rows is deleted. -/
theorem loadLog_deleteRange {keep : LogEntry → Bool}
    (h : ∀ e : LogEntry, e.index < 256 ^ 8 → (keep e = true ↔
      ¬ (start ≤ 1 :: bigEndian 8 e.index ∧ 1 :: bigEndian 8 e.index < stop))) :
    (st.deleteRange start stop).loadLog = st.loadLog.filter keep := by
  refine eq_of_sorted (sorted_loadLog _) ((sorted_loadLog st).filter _) fun e => ?_
  rw [mem_filter, mem_loadLog, mem_loadLog]
  have hget := get_eraseRange st.engine start stop (1 :: bigEndian 8 e.index)
  constructor
  · rintro ⟨he, hrow⟩
    rw [deleteRange, hget] at hrow
    split at hrow
    · cases hrow
    · next hout => exact ⟨⟨he, hrow⟩, (h e he).2 hout⟩
  · rintro ⟨⟨he, hrow⟩, hkeep⟩
    refine ⟨he, ?_⟩
    rw [deleteRange, hget, if_neg ((h e he).1 hkeep), hrow]

end EngineRows

/-! ## Calls -/

/-- What a storage keeps: the node's records, and its notes by name. -/
structure Kept (n : ℕ) (δ : Type) where
  records : EngineRaftStorage n δ
  notes : String → Option Bytes

/-- The calls that change a storage, and opening it again. -/
inductive Call (n : ℕ) (δ : Type) where
  | saveMeta (currentTerm : ℕ) (votedFor : Option (Fin n))
  | appendLogEntry (entry : LogEntry)
  | truncateLog (fromIndex : ℕ)
  | compactLog (lastIncludedIndex : ℕ)
  | saveSnapshot (snapshot : Snapshot δ)
  | saveCommitIndex (commitIndex : ℕ)
  | saveAdmin (key : String) (value : Bytes)
  | deleteAdmin (key : String)
  | reopen

namespace Call

/-- What the call is to do. -/
def act (kept : Kept n δ) : Call n δ → Kept n δ
  | .saveMeta t v => { kept with records := kept.records.saveMeta t v }
  | .appendLogEntry e => { kept with records := kept.records.appendLogEntry e }
  | .truncateLog i => { kept with records := kept.records.truncateLog i }
  | .compactLog i => { kept with records := kept.records.compactLog i }
  | .saveSnapshot s => { kept with records := kept.records.saveSnapshot s }
  | .saveCommitIndex c => { kept with records := kept.records.saveCommitIndex c }
  | .saveAdmin key value =>
    { kept with notes := fun name => if name = key then some value else kept.notes name }
  | .deleteAdmin key =>
    { kept with notes := fun name => if name = key then none else kept.notes name }
  | .reopen => kept

/-- Its numbers have a place in eight bytes. -/
def Fits : Call n δ → Prop
  | .saveMeta t v => t < 2 ^ 64 ∧ ∀ i ∈ v, i.val < 2 ^ 64
  | .appendLogEntry e => e.index < 2 ^ 64 ∧ e.term < 2 ^ 64
  | .truncateLog i => i < 2 ^ 64
  | .compactLog i => i + 1 < 2 ^ 64
  | .saveSnapshot s => s.index < 2 ^ 64 ∧ s.term < 2 ^ 64
  | .saveCommitIndex c => c < 2 ^ 64
  | .saveAdmin .. | .deleteAdmin _ | .reopen => True

instance decidableFits (call : Call n δ) : Decidable call.Fits := by
  induction call using Call.casesOn <;> dsimp only [Fits] <;> infer_instance

/-- The call, on an engine.  The storage keeps nothing besides, so that opening it again finds what
was there. -/
def onEngine (st : EngineRows n δ) : Call n δ → Except String (EngineRows n δ)
  | .saveMeta t v => st.saveMeta t v
  | .appendLogEntry e => st.appendLogEntry e
  | .truncateLog i => st.truncateLog i
  | .compactLog i => st.compactLog i
  | .saveSnapshot s => st.saveSnapshot s
  | .saveCommitIndex c => st.saveCommitIndex c
  | .saveAdmin key value => .ok (st.saveAdmin key value)
  | .deleteAdmin key => .ok (st.deleteAdmin key)
  | .reopen => .ok st

end Call

namespace EngineRows

variable {st st' : EngineRows n δ}

def kept (st : EngineRows n δ) : Kept n δ := ⟨st.records, st.loadAdmin⟩

theorem loadMeta_congr (h : st'.engine.get [2] = st.engine.get [2]) :
    st'.loadMeta = st.loadMeta := by
  rw [loadMeta, h, loadMeta]

theorem loadCommitIndex_congr (h : st'.engine.get [3] = st.engine.get [3]) :
    st'.loadCommitIndex = st.loadCommitIndex := by
  rw [loadCommitIndex, h, loadCommitIndex]

theorem loadSnapshot_congr (h : st'.engine.get [4] = st.engine.get [4]) :
    st'.loadSnapshot = st.loadSnapshot := by
  rw [loadSnapshot, h, loadSnapshot]

theorem loadAdmin_congr (h : ∀ key, st'.engine.get (5 :: utf8 key) = st.engine.get (5 :: utf8 key)) :
    st'.loadAdmin = st.loadAdmin := by
  funext key
  rw [loadAdmin, h, loadAdmin]

theorem toBytes_ok (h : x < 2 ^ 64) : toBytes x = .ok (bigEndian 8 x) := if_pos h

theorem packInt_ok (h : x < 2 ^ 64) : packInt x = .ok () := if_pos h

/-- A row under another byte than that of the log. -/
theorem get_put_of_ne {key' : Bytes} {record : Record n δ} (h : Written key record)
    (hne : key' ≠ key) : (st.put key record h).engine.get key' = st.engine.get key' := by
  rw [get_put, if_neg hne]

theorem get_deleteRange_of_out (h : ¬ (start ≤ key ∧ key < stop)) :
    (st.deleteRange start stop).engine.get key = st.engine.get key :=
  (get_eraseRange _ _ _ _).trans (if_neg h)

/-- A range of the log's rows is deleted, and nothing else. -/
theorem kept_deleteRange (keep : LogEntry → Bool) (hstop : stop ≤ [2])
    (h : ∀ e : LogEntry, e.index < 256 ^ 8 → (keep e = true ↔
      ¬ (start ≤ 1 :: bigEndian 8 e.index ∧ 1 :: bigEndian 8 e.index < stop))) :
    (st.deleteRange start stop).kept =
      { st.kept with records := { st.records with log := st.loadLog.filter keep } } := by
  have hout : ∀ {b : UInt8} {rest : Bytes}, 2 ≤ b → ¬ (start ≤ b :: rest ∧ b :: rest < stop) := by
    rintro b rest hb ⟨-, hlt⟩
    rcases cons_lt_cons.1 (lt_of_lt_of_le hlt hstop) with hlt | ⟨-, hlt⟩
    · exact absurd hb (not_le.2 hlt)
    · exact ByteOrder.not_lt_nil _ hlt
  rw [kept, records, loadMeta_congr (get_deleteRange_of_out (hout (by decide))),
    loadCommitIndex_congr (get_deleteRange_of_out (hout (by decide))),
    loadSnapshot_congr (get_deleteRange_of_out (hout (by decide))),
    loadAdmin_congr (fun _ => get_deleteRange_of_out (hout (by decide))), loadLog_deleteRange h]
  rfl

/-- **Every call** does to the rows what it is to do. -/
theorem run_call (st : EngineRows n δ) (call : Call n δ) (h : call.Fits) :
    ∃ st', call.onEngine st = .ok st' ∧ st'.kept = call.act st.kept := by
  cases call with
  | saveMeta t v =>
    refine ⟨st.put [2] (.vote t v) (.vote _ _), ?_, ?_⟩
    · rw [Call.onEngine, saveMeta, packInt_ok h.1]
      cases v with
      | none => rfl
      | some i =>
        simp only [packInt_ok (h.2 i rfl)]
        rfl
    · rw [kept, records, loadCommitIndex_congr (get_put_of_ne _ (by decide)),
        loadSnapshot_congr (get_put_of_ne _ (by decide)),
        loadAdmin_congr (fun _ => get_put_of_ne _ (by simp)),
        loadLog_congr (fun _ => get_put_of_ne _ (by simp))]
      have hmeta : (st.put [2] (.vote t v) (.vote _ _)).loadMeta = (t, v) := by
        rw [loadMeta, get_put, if_pos rfl]
      rw [hmeta]
      rfl
  | appendLogEntry e =>
    have hindex : e.index < 256 ^ 8 := h.1
    refine ⟨st.put (1 :: bigEndian 8 e.index) (.entry e.term e.command) (.entry hindex _ _), ?_, ?_⟩
    · rw [Call.onEngine, appendLogEntry, dif_pos hindex, packInt_ok h.2]
      rfl
    rw [kept, records, loadMeta_congr (get_put_of_ne _ (by simp)),
      loadCommitIndex_congr (get_put_of_ne _ (by simp)),
      loadSnapshot_congr (get_put_of_ne _ (by simp)),
      loadAdmin_congr (fun _ => get_put_of_ne _ (by simp)), loadLog_appendLogEntry hindex]
    rfl
  | truncateLog i =>
    refine ⟨st.deleteRange (1 :: bigEndian 8 i) [2], ?_, ?_⟩
    · rw [Call.onEngine, truncateLog, toBytes_ok h]
      rfl
    refine kept_deleteRange (fun e => e.index < i) le_rfl fun e he => ?_
    rw [decide_eq_true_iff, ← not_lt, logKey_lt he h]
    have hlt : (1 :: bigEndian 8 e.index : Bytes) < [2] :=
      cons_lt_cons.2 (.inl (by decide))
    simp [hlt]
  | compactLog i =>
    refine ⟨st.deleteRange (1 :: bigEndian 8 0) (1 :: bigEndian 8 (i + 1)), ?_, ?_⟩
    · rw [Call.onEngine, compactLog, toBytes_ok (by decide), toBytes_ok h]
      rfl
    refine kept_deleteRange (fun e => i < e.index) ?_ fun e he => ?_
    · exact (cons_lt_cons.2 (.inl (by decide))).le
    · rw [decide_eq_true_iff, ← not_lt, logKey_lt he (by decide), logKey_lt he h]
      omega
  | saveSnapshot s =>
    refine ⟨st.put [4] (.snapshot s) (.snapshot _), ?_, ?_⟩
    · rw [Call.onEngine, saveSnapshot, packInt_ok h.1, packInt_ok h.2]
      rfl
    rw [kept, records, loadMeta_congr (get_put_of_ne _ (by decide)),
      loadCommitIndex_congr (get_put_of_ne _ (by decide)),
      loadAdmin_congr (fun _ => get_put_of_ne _ (by simp)),
      loadLog_congr (fun _ => get_put_of_ne _ (by simp))]
    have hsnapshot : (st.put [4] (.snapshot s) (.snapshot _)).loadSnapshot = some s := by
      rw [loadSnapshot, get_put, if_pos rfl]
    rw [hsnapshot]
    rfl
  | saveCommitIndex c =>
    have hc : c < 256 ^ 8 := h
    refine ⟨st.put [3] (.raw (bigEndian 8 c)) (.commit hc), dif_pos hc, ?_⟩
    rw [kept, records, loadMeta_congr (get_put_of_ne _ (by decide)),
      loadSnapshot_congr (get_put_of_ne _ (by decide)),
      loadAdmin_congr (fun _ => get_put_of_ne _ (by simp)),
      loadLog_congr (fun _ => get_put_of_ne _ (by simp))]
    have hcommit : (st.put [3] (.raw (bigEndian 8 c)) (.commit hc)).loadCommitIndex = c := by
      rw [loadCommitIndex, get_put, if_pos rfl]
      exact ofBigEndian_bigEndian hc
    rw [hcommit]
    rfl
  | saveAdmin key value =>
    refine ⟨_, rfl, ?_⟩
    rw [kept, records, saveAdmin, loadMeta_congr (get_put_of_ne _ (by simp)),
      loadCommitIndex_congr (get_put_of_ne _ (by simp)),
      loadSnapshot_congr (get_put_of_ne _ (by simp)),
      loadLog_congr (fun _ => get_put_of_ne _ (by simp))]
    refine congrArg (Kept.mk _) ?_
    funext name
    rw [loadAdmin, get_put]
    by_cases hname : name = key
    · rw [if_pos (by rw [hname]), if_pos hname]
    · rw [if_neg fun heq => hname (utf8_injective (cons.inj heq).2), if_neg hname]
      rfl
  | deleteAdmin key =>
    have hget : ∀ key', key' ≠ 5 :: utf8 key →
        (st.deleteAdmin key).engine.get key' = st.engine.get key' := fun key' hne =>
      (get_erase _ _ _).trans (if_neg hne)
    refine ⟨_, rfl, ?_⟩
    rw [kept, records, loadMeta_congr (hget _ (by simp)), loadCommitIndex_congr (hget _ (by simp)),
      loadSnapshot_congr (hget _ (by simp)), loadLog_congr (fun _ => hget _ (by simp))]
    refine congrArg (Kept.mk _) ?_
    funext name
    by_cases hname : name = key
    · have hgone : (st.deleteAdmin key).engine.get (5 :: utf8 name) = none :=
        (get_erase _ _ _).trans (if_pos (by rw [hname]))
      rw [loadAdmin, hgone, if_pos hname]
    · rw [loadAdmin, hget _ fun heq => hname (utf8_injective (cons.inj heq).2), if_neg hname]
      rfl
  | reopen => exact ⟨st, rfl, rfl⟩

end EngineRows
end OxideDB.Raft
