import OxideDB.Storage.OneWrite
import OxideDB.Storage.Pointwise

/-!
# The SQL executor

`sql/executor.py` over the replicas of a cluster: an `INSERT` is one `SET` proposed to the leader
of the row's shard, a `SELECT` by `=` one read there, and every other `SELECT` a range read of
all shards, of which the rows under the table's keys are kept.  Texts are their UTF-8 bytes.
-/

namespace OxideDB.Sql

open List ByteOrder
open Raft (Bytes)
open Storage (ValidKey ReadResult MVCCStateMachine)
open Storage.MVCCStateMachine (History ScanFailure replay orRaise tidy_replay get_passed
  readVersion_valid not_get_of_invalid)

variable {k key : Bytes} {log : History}

/-! ## The cluster -/

/-- A replica of a shard, as a client finds it. -/
inductive Replica where
  | missing
  | refuses (code : Raft.ErrorCode)
  /-- The leader, with what its group has applied. -/
  | leads (log : History)
  deriving DecidableEq

namespace Replica

/-- `client.scan`, if there is a client. -/
def scan (lo hi : Bytes) : Replica → Option (Except ScanFailure (List (Bytes × Bytes)))
  | missing => none
  | refuses code => some (.error (.refused code "refused" none))
  | leads log => some ((replay log).scan lo hi none)

/-- `client.get`. -/
def get (key : Bytes) : Replica → Except String ReadResult
  | leads log => (replay log).get key none
  | _ => .ok { success := false }

end Replica

/-- The replicas of the shards, shard by shard, and the client `leader_for_key` finds. -/
structure Cluster where
  replicas : List Replica
  leaderForKey : Bytes → Option Replica

namespace Cluster

/-- One turn of the loop over the replicas. -/
def extend (lo hi : Bytes) (rows : List (Bytes × Bytes)) (replica : Replica) :
    Except ScanFailure (List (Bytes × Bytes)) :=
  match replica.scan lo hi with
  | none => .ok rows
  | some (.ok more) => .ok (rows ++ more)
  | some (.error (.refused .errNotLeader _ _)) => .ok rows
  | some (.error e) => .error e

/-- `_rows_from_every_shard`. -/
def rowsFromEveryShard (c : Cluster) (lo hi : Bytes) : Except ScanFailure (List (Bytes × Bytes)) :=
  c.replicas.foldlM (extend lo hi) []

/-- A leader reads `row`. -/
def Holds (c : Cluster) (row : Bytes × Bytes) : Prop :=
  ∃ log, .leads log ∈ c.replicas ∧ ∃ t, (replay log).get row.1 none = .ok (.ok (some row.2) t)

end Cluster

/-! ## What the statements come to -/

/-- What a row of a statement holds. -/
inductive Value where
  | int (n : ℕ)
  | str (text : Bytes)
  | null
  deriving DecidableEq

/-- A row as a client sees it. -/
abbrev Row := Dict Bytes Value

/-- Python's texts, which are their UTF-8 bytes here, and `msgpack`. -/
structure Format where
  /-- `bytes.decode()` does not raise. -/
  decodes : Bytes → Bool
  upper : Bytes → Bytes
  lower : Bytes → Bytes
  /-- `str(value)`. -/
  str : Value → Bytes
  packb : Row → Bytes
  /-- `msgpack.unpackb`, or `none` when it raises or has no dict. -/
  unpackb : Bytes → Option Row

/-- No byte of a text is `0xff`. -/
def Format.Utf8 (f : Format) : Prop := ∀ b, f.decodes b = true → (255 : UInt8) ∉ b

variable (f : Format)

/-- `UnicodeDecodeError`. -/
def undecodable : ScanFailure := .raised "invalid start byte"

/-- `:`, between the table and the id. -/
def colon : UInt8 := 58

/-- `next_key`. -/
def nextKey (key : Bytes) : Bytes :=
  match key.reverse.dropWhile (· = 255) with
  | [] => [255]
  | last :: front => front.reverse ++ [last + 1]

inductive Operator where
  | lt
  | le
  | eq
  | ge
  | gt
  deriving DecidableEq

/-- The half-open range `_execute_range_scan` reads, by the key of the value. -/
def Operator.range (key : Bytes) : Operator → Bytes × Bytes
  | .gt => (nextKey key, [255])
  | .ge => (key, [255])
  | .lt => ([], key)
  | .le => ([], nextKey key)
  | .eq => ([], [255])

/-- The rows of a range that are under the keys of `table`, in their order. -/
def tableRows (c : Cluster) (table : Bytes) (range : Bytes × Bytes) :
    Except ScanFailure (List (Bytes × Bytes)) := do
  let rows ← c.rowsFromEveryShard range.1 range.2
  if rows.all (f.decodes ·.1) then
    return (rows.filter ((table ++ [colon]).isPrefixOf ·.1)).insertionSort (·.1 ≤ ·.1)
  else throw undecodable

/-- What a read of one key selects: an empty value counts as none. -/
def pointRow (key : Bytes) (result : ReadResult) : List (Bytes × Bytes) :=
  match result.value with
  | some stored => if result.success ∧ stored ≠ [] then [(key, stored)] else []
  | none => []

/-- The stored rows `_execute_select` reads for `WHERE id <op> value`. -/
def selectRows (c : Cluster) (table value : Bytes) (op : Operator) :
    Except ScanFailure (List (Bytes × Bytes)) :=
  let key := f.lower table ++ [colon] ++ value
  if op = .eq then
    match c.leaderForKey key with
    | none => .ok []
    | some client => do return pointRow key (← orRaise (client.get key))
  else tableRows f c (f.lower table) (op.range key)

/-- The row a client gets for what is stored. -/
def unpackRow (column stored : Bytes) : Except ScanFailure Row :=
  match f.unpackb stored with
  | some row => .ok row
  | none => if f.decodes stored then .ok (.ofList [(column, .str stored)]) else .error undecodable

/-- `key.decode().split(":", 1)[1]`. -/
def columnValue (key : Bytes) : Bytes := (key.dropWhile (· ≠ colon)).drop 1

/-- `_execute_select` with a condition on `column`. -/
def executeSelect (c : Cluster) (table column value : Bytes) (op : Operator) :
    Except ScanFailure (List Row) := do
  let rows ← selectRows f c table value op
  rows.mapM fun row =>
    unpackRow f (if op = .eq then f.lower column else columnValue row.1) row.2

/-! ## Reading the cluster -/

section Reading

variable {f} {c : Cluster} {log : History} {lo hi : Bytes}

theorem lastApplied_ge (log : History) :
    -1 ≤ (none : Option ℤ).getD (replay log).lastAppliedTimestamp := by
  have := MVCCStateMachine.lastApplied_nonneg log
  rw [Option.getD_none]
  omega

/-- A range read of a leader has what the leader reads, where no lock is in the way. -/
theorem scan_spec (hlo : ValidKey lo) (hhi : ValidKey hi)
    (hfree : ∀ k, (replay log).get k none ≠ .ok .locked) :
    ∃ rows, (replay log).scan lo hi none = .ok rows ∧ ∀ row : Bytes × Bytes, row ∈ rows ↔
      lo ≤ row.1 ∧ row.1 < hi ∧ ∃ t, (replay log).get row.1 none = .ok (.ok (some row.2) t) := by
  obtain ⟨rows, hrows, -, hmem⟩ := MVCCStateMachine.scanVersions_pointwise
    (tidy_replay log) (lastApplied_ge log) hlo hhi fun ⟨k, _, _, h⟩ => hfree k h
  refine ⟨rows.map fun row => (row.1, row.2.1), ?_, fun row => ?_⟩
  · rw [MVCCStateMachine.scan, hrows]
    rfl
  rw [mem_map]
  constructor
  · rintro ⟨⟨k, v, t⟩, hrow, rfl⟩
    obtain ⟨h, h', hget⟩ := (hmem k v t).1 hrow
    exact ⟨h, h', t, hget⟩
  · rintro ⟨h, h', t, hget⟩
    exact ⟨(row.1, row.2, t), (hmem _ _ _).2 ⟨h, h', hget⟩, rfl⟩

/-- What a leader says of a key, where no lock is in the way. -/
theorem get_cases (hk : ValidKey k) (hfree : (replay log).get k none ≠ .ok .locked) :
    (replay log).get k none = .ok (.ok none) ∨
      ∃ v t, (replay log).get k none = .ok (.ok (some v) t) := by
  have hm := tidy_replay log
  have hlock : ∀ s l, (replay log).maps.lock k s = some l →
      (none : Option ℤ).all (s < ·) = false ∧ (none : Option ℤ) ≠ some s :=
    fun s l hl => absurd (MVCCStateMachine.get_blocked hm hl rfl) hfree
  obtain ⟨newest, -, hread⟩ := readVersion_valid (replay log) hk
    (lastApplied_ge log)
  rw [get_passed hm hk hlock, hread]
  rcases newest with _ | ⟨t, _ | v⟩
  · exact .inl rfl
  · exact .inl rfl
  · exact .inr ⟨v, t, rfl⟩

/-- The cluster answers: of each shard one replica leads and the others say that they do not, no
lock is in the way, and each row is where its key is looked for. -/
structure Serves (c : Cluster) : Prop where
  replicas : ∀ r ∈ c.replicas, r = .missing ∨ r = .refuses .errNotLeader ∨ ∃ log, r = .leads log
  free : ∀ log, .leads log ∈ c.replicas → ∀ k, (replay log).get k none ≠ .ok .locked
  located : ∀ k, ∃ log, c.leaderForKey k = some (.leads log) ∧ .leads log ∈ c.replicas
  own : ∀ log, .leads log ∈ c.replicas → ∀ k v t,
    (replay log).get k none = .ok (.ok (some v) t) → c.leaderForKey k = some (.leads log)

variable (h : Serves c) (hlo : ValidKey lo) (hhi : ValidKey hi)
include h hlo hhi

/-- A turn of the loop adds what the replica reads, if it leads. -/
theorem extend_spec {r : Replica} (hr : r ∈ c.replicas) :
    ∃ more, (∀ rows, Cluster.extend lo hi rows r = .ok (rows ++ more)) ∧
      ∀ row : Bytes × Bytes, row ∈ more ↔ (∃ log, r = .leads log ∧
        ∃ t, (replay log).get row.1 none = .ok (.ok (some row.2) t)) ∧ lo ≤ row.1 ∧ row.1 < hi := by
  rcases h.replicas r hr with rfl | rfl | ⟨log, rfl⟩
  · exact ⟨[], fun rows => by rw [append_nil]; rfl, by simp⟩
  · exact ⟨[], fun rows => by rw [append_nil]; rfl, by simp⟩
  obtain ⟨more, hmore, hmem⟩ := scan_spec hlo hhi (h.free log hr)
  refine ⟨more, fun rows => by simp only [Cluster.extend, Replica.scan, hmore], fun row => ?_⟩
  rw [hmem]
  constructor
  · rintro ⟨hge, hlt, hget⟩
    exact ⟨⟨log, rfl, hget⟩, hge, hlt⟩
  · rintro ⟨⟨_, heq, hget⟩, hge, hlt⟩
    cases heq
    exact ⟨hge, hlt, hget⟩

/-- **A range read of every shard** has what the leaders read. -/
theorem rowsFromEveryShard_spec :
    ∃ rows, c.rowsFromEveryShard lo hi = .ok rows ∧
      ∀ row : Bytes × Bytes, row ∈ rows ↔ c.Holds row ∧ lo ≤ row.1 ∧ row.1 < hi := by
  suffices hloop : ∀ rs ⊆ c.replicas, ∀ acc, ∃ rows,
      rs.foldlM (Cluster.extend lo hi) acc = .ok rows ∧ ∀ row : Bytes × Bytes, row ∈ rows ↔
        row ∈ acc ∨ (∃ r ∈ rs, ∃ log, r = .leads log ∧
          ∃ t, (replay log).get row.1 none = .ok (.ok (some row.2) t)) ∧
          lo ≤ row.1 ∧ row.1 < hi by
    obtain ⟨rows, hrows, hmem⟩ := hloop c.replicas (List.Subset.refl _) []
    refine ⟨rows, hrows, fun row => (hmem row).trans ?_⟩
    simp [Cluster.Holds]
  intro rs
  induction rs with
  | nil => exact fun _ acc => ⟨acc, rfl, by simp⟩
  | cons r rs ih =>
    intro hrs acc
    obtain ⟨hr, hrs⟩ := cons_subset.1 hrs
    obtain ⟨more, hext, hmore⟩ := extend_spec h hlo hhi hr
    obtain ⟨rows, hrows, hmem⟩ := ih hrs (acc ++ more)
    refine ⟨rows, ?_, fun row => ?_⟩
    · rw [foldlM_cons, hext]
      exact hrows
    · rw [hmem, mem_append, hmore, exists_mem_cons_iff, or_and_right, or_assoc]

end Reading

/-! ## Comparisons -/

section Comparisons

variable {f} {c : Cluster} {table value : Bytes}

/-- Where the last byte is not `0xff`, it is the one that moves. -/
theorem nextKey_eq (hne : key ≠ []) (hff : (255 : UInt8) ∉ key) :
    ∃ front last, key = front ++ [last] ∧ nextKey key = front ++ [last + 1] ∧ last ⋖ last + 1 := by
  obtain ⟨front, last, rfl⟩ := (eq_nil_or_concat' key).resolve_left hne
  have hlast : last ≠ 255 := fun h => hff (h ▸ mem_append_right _ mem_cons_self)
  exact ⟨front, last, rfl, by simp [nextKey, hlast], covBy_add_one hlast⟩

/-- **Between a text and its `next_key`** is everything that begins with the text. -/
theorem nextKey_range (hne : key ≠ []) (hff : (255 : UInt8) ∉ key) :
    key ≤ k ∧ k < nextKey key ↔ key <+: k := by
  obtain ⟨front, last, rfl, hnext, hcov⟩ := nextKey_eq hne hff
  rw [hnext]
  exact prefix_iff_range hcov

theorem validKey_nextKey (hkey : ValidKey key) (hne : key ≠ []) (hff : (255 : UInt8) ∉ key) :
    ValidKey (nextKey key) := by
  obtain ⟨front, last, rfl, hnext, hcov⟩ := nextKey_eq hne hff
  rw [hnext, ValidKey, mem_append, mem_singleton]
  rintro (hmem | heq)
  · exact hkey (mem_append_left _ hmem)
  · have hlt := hcov.1
    rw [← heq, UInt8.lt_iff_toNat_lt] at hlt
    exact Nat.not_lt_zero _ hlt

theorem tableRows_spec (h : Serves c) (htext : ∀ row, c.Holds row → f.decodes row.1 = true)
    {lo hi : Bytes} (hlo : ValidKey lo) (hhi : ValidKey hi) :
    ∃ rows, tableRows f c table (lo, hi) = .ok rows ∧ ∀ row : Bytes × Bytes, row ∈ rows ↔
      (c.Holds row ∧ table ++ [colon] <+: row.1) ∧ lo ≤ row.1 ∧ row.1 < hi := by
  obtain ⟨rows, hrows, hmem⟩ := rowsFromEveryShard_spec h hlo hhi
  have hall : rows.all (f.decodes ·.1) = true :=
    all_eq_true.2 fun row hrow => htext row ((hmem row).1 hrow).1
  refine ⟨(rows.filter ((table ++ [colon]).isPrefixOf ·.1)).insertionSort (·.1 ≤ ·.1), ?_, ?_⟩
  · simp only [tableRows, hrows, bind, Except.bind, hall, if_true]
    rfl
  · intro row
    rw [(perm_insertionSort _ _).mem_iff, mem_filter, hmem, isPrefixOf_iff_prefix,
      and_right_comm]

/-- What `=` finds. -/
theorem selectRows_eq_spec (h : Serves c) (hkey : ValidKey (f.lower table ++ [colon] ++ value)) :
    ∃ rows, selectRows f c table value .eq = .ok rows ∧ ∀ row : Bytes × Bytes, row ∈ rows ↔
      c.Holds row ∧ row.1 = f.lower table ++ [colon] ++ value ∧ row.2 ≠ [] := by
  set key := f.lower table ++ [colon] ++ value with hdef
  obtain ⟨log, hlead, hin⟩ := h.located key
  -- the leader of the key's shard is the only one that has the row
  have hold : ∀ row : Bytes × Bytes, row.1 = key → (c.Holds row ↔
      ∃ t, (replay log).get key none = .ok (.ok (some row.2) t)) := by
    rintro ⟨_, v⟩ rfl
    constructor
    · rintro ⟨log', hin', t, hget⟩
      have hsame := (h.own log' hin' key v t hget).symm.trans hlead
      simp only [Option.some.injEq, Replica.leads.injEq] at hsame
      exact ⟨t, hsame ▸ hget⟩
    · exact fun hget => ⟨log, hin, hget⟩
  simp only [selectRows, if_true, ← hdef, hlead, Replica.get]
  rcases get_cases hkey (h.free log hin key) with hget | ⟨v, t, hget⟩
  · refine ⟨[], by rw [hget]; rfl, fun row => iff_of_false (by simp) ?_⟩
    rintro ⟨hrow, heq, -⟩
    obtain ⟨t, hrow⟩ := (hold row heq).1 hrow
    cases hget.symm.trans hrow
  · refine ⟨if v ≠ [] then [(key, v)] else [], ?_, fun row => ?_⟩
    · rw [hget]
      show Except.ok (pointRow key (.ok (some v) t)) = _
      simp [pointRow, ReadResult.ok]
    have hrow : row.1 = key → (c.Holds row ↔ row.2 = v) := by
      intro heq
      rw [hold row heq, hget]
      simp [ReadResult.ok, eq_comm]
    split
    · rename_i hne
      rw [mem_singleton, Prod.ext_iff]
      constructor
      · rintro ⟨heq, rfl⟩
        exact ⟨(hrow heq).2 rfl, heq, hne⟩
      · rintro ⟨h, heq, -⟩
        exact ⟨heq, (hrow heq).1 h⟩
    · rename_i hnil
      refine iff_of_false (by simp) ?_
      rintro ⟨h, heq, hne⟩
      exact hnil ((hrow heq).1 h ▸ hne)

theorem lt_end (h : (255 : UInt8) ∉ k) : k < [255] := by
  cases k with
  | nil => exact nil_lt_cons _ _
  | cons b k =>
    refine cons_lt_cons.2 (.inl (UInt8.lt_iff_toNat_lt.2 ?_))
    exact toNat_lt_of_ne fun heq => h (heq ▸ mem_cons_self)

/-- The comparisons with `value` divide the rows of `table`: `<`, `=` and `>` have each row once
between them, and `<=` and `>=` add what `=` has. -/
def Partitions (f : Format) (c : Cluster) (table value : Bytes) : Prop :=
  ∃ rows : Operator → List (Bytes × Bytes),
    (∀ op, selectRows f c table value op = .ok (rows op)) ∧
    (∀ row ∈ rows .lt, row ∉ rows .eq ∧ row ∉ rows .gt) ∧ (∀ row ∈ rows .eq, row ∉ rows .gt) ∧
    (∀ row, row ∈ rows .lt ∨ row ∈ rows .eq ∨ row ∈ rows .gt ↔
      c.Holds row ∧ f.lower table ++ [colon] <+: row.1) ∧
    (∀ row, row ∈ rows .le ↔ row ∈ rows .lt ∨ row ∈ rows .eq) ∧
    ∀ row, row ∈ rows .ge ↔ row ∈ rows .gt ∨ row ∈ rows .eq

theorem selectRows_spec (h : Serves c) (htext : ∀ row, c.Holds row → f.decodes row.1 = true)
    (hkey : ValidKey (f.lower table ++ [colon] ++ value))
    (hff : (255 : UInt8) ∉ f.lower table ++ [colon] ++ value) :
    ∃ rows : Operator → List (Bytes × Bytes),
      (∀ op, selectRows f c table value op = .ok (rows op)) ∧
      (∀ row, row ∈ rows .eq ↔ c.Holds row ∧ row.1 = f.lower table ++ [colon] ++ value ∧
        row.2 ≠ []) ∧
      ∀ op ≠ .eq, ∀ row, row ∈ rows op ↔ (c.Holds row ∧ f.lower table ++ [colon] <+: row.1) ∧
        (op.range (f.lower table ++ [colon] ++ value)).1 ≤ row.1 ∧
        row.1 < (op.range (f.lower table ++ [colon] ++ value)).2 := by
  set key := f.lower table ++ [colon] ++ value with hdef
  have hne : key ≠ [] := by simp [hdef]
  have hrange : ∀ op : Operator, ValidKey (op.range key).1 ∧ ValidKey (op.range key).2 := by
    have hnext := validKey_nextKey hkey hne hff
    have hfirst : ValidKey [] := by decide
    have hlast : ValidKey [255] := by decide
    intro op
    cases op
    exacts [⟨hfirst, hkey⟩, ⟨hfirst, hnext⟩, ⟨hfirst, hlast⟩, ⟨hkey, hlast⟩, ⟨hnext, hlast⟩]
  have hrows : ∀ op, ∃ rows, selectRows f c table value op = .ok rows ∧
      (op = .eq → ∀ row, row ∈ rows ↔ c.Holds row ∧ row.1 = key ∧ row.2 ≠ []) ∧
      (op ≠ .eq → ∀ row, row ∈ rows ↔ (c.Holds row ∧ f.lower table ++ [colon] <+: row.1) ∧
        (op.range key).1 ≤ row.1 ∧ row.1 < (op.range key).2) := by
    intro op
    by_cases heq : op = .eq
    · obtain ⟨rows, hrows, hmem⟩ := selectRows_eq_spec h hkey
      exact ⟨rows, heq ▸ hrows, fun _ => hmem, fun hno => absurd heq hno⟩
    · obtain ⟨rows, hrows, hmem⟩ : ∃ rows, tableRows f c (f.lower table) _ = .ok rows ∧ _ :=
        tableRows_spec h htext (hrange op).1 (hrange op).2
      exact ⟨rows, by rw [selectRows, if_neg heq]; exact hrows, fun h => absurd h heq, fun _ => hmem⟩
  choose rows hok heq hmem using hrows
  exact ⟨rows, hok, heq .eq rfl, hmem⟩

/-- **When the comparisons divide a table**: the value has no NUL, and no stored id begins with
it but the value itself, whose row is not empty. -/
theorem comparisons_partition_iff (f : Format) (hf : f.Utf8) (c : Cluster) (table value : Bytes)
    (h : Serves c) (htext : ∀ row, c.Holds row → f.decodes row.1 = true)
    (htable : ValidKey (f.lower table ++ [colon]))
    (hvalue : f.decodes (f.lower table ++ [colon] ++ value) = true) :
    Partitions f c table value ↔ ValidKey value ∧ ∀ row, c.Holds row →
      f.lower table ++ [colon] ++ value <+: row.1 →
      row.1 = f.lower table ++ [colon] ++ value ∧ row.2 ≠ [] := by
  set key := f.lower table ++ [colon] ++ value with hdef
  have hff := hf _ hvalue
  have hne : key ≠ [] := by simp [hdef]
  by_cases hnul : ValidKey value
  swap
  · refine iff_of_false ?_ fun h => hnul h.1
    rintro ⟨rows, hrows, -⟩
    obtain ⟨log, hlead, -⟩ := h.located key
    have hbad : ¬ ValidKey key := fun hkey => hnul fun hmem => hkey (mem_append_right _ hmem)
    have heq := hrows .eq
    simp only [selectRows, if_true, ← hdef, hlead, Replica.get] at heq
    rcases hget : (replay log).get key none with e | r
    · rw [hget] at heq
      cases heq
    · exact not_get_of_invalid hbad r hget
  have hkey : ValidKey key := by
    rw [hdef, ValidKey, mem_append, not_or]
    exact ⟨htable, hnul⟩
  rw [and_iff_right hnul]
  obtain ⟨rows, hrows, hmemEq, hmem⟩ := selectRows_spec h htext hkey hff
  have hend : ∀ row, c.Holds row → row.1 < [255] := fun row hrow => lt_end (hf _ (htext row hrow))
  have hbegin : ∀ k : Bytes, [] ≤ k := fun k => not_lt.1 (ByteOrder.not_lt_nil k)
  have hrange := fun k => nextKey_range (k := k) hne hff
  constructor
  · rintro ⟨rows', hrows', -, -, hall, -, -⟩ row hrow hpre
    obtain rfl : rows' = rows := funext fun op => Except.ok.inj ((hrows' op).symm.trans (hrows op))
    obtain ⟨hge, hlt⟩ := (hrange row.1).2 hpre
    have htab : f.lower table ++ [colon] <+: row.1 := (prefix_append _ _).trans hpre
    rcases (hall row).2 ⟨hrow, htab⟩ with hin | hin | hin
    · exact absurd ((hmem .lt (by decide) row).1 hin).2.2 (not_lt.2 hge)
    · exact ((hmemEq row).1 hin).2
    · exact absurd ((hmem .gt (by decide) row).1 hin).2.1 (not_le.2 hlt)
  · intro hids
    have hself := ((hrange key).2 (prefix_refl key)).2
    have hlt : ∀ row, row ∈ rows .lt ↔ (c.Holds row ∧ f.lower table ++ [colon] <+: row.1) ∧
        row.1 < key := fun row => by
      rw [hmem .lt (by decide) row, Operator.range, and_iff_right (hbegin row.1)]
    have hgt : ∀ row, row ∈ rows .gt ↔ (c.Holds row ∧ f.lower table ++ [colon] <+: row.1) ∧
        nextKey key ≤ row.1 := fun row => by
      rw [hmem .gt (by decide) row]
      exact and_congr_right fun hrow => and_iff_left (hend row hrow.1)
    have hcases : ∀ row, c.Holds row →
        row.1 < key ∨ (row.1 = key ∧ row.2 ≠ []) ∨ nextKey key ≤ row.1 := by
      intro row hrow
      rcases lt_or_ge row.1 key with hless | hge
      · exact .inl hless
      rcases lt_or_ge row.1 (nextKey key) with hless | hge'
      · exact .inr (.inl (hids row hrow ((hrange row.1).1 ⟨hge, hless⟩)))
      · exact .inr (.inr hge')
    refine ⟨rows, hrows, fun row hin => ?_, fun row hin => ?_, fun row => ?_, fun row => ?_,
      fun row => ?_⟩
    · rw [hlt] at hin
      rw [hmemEq, hgt]
      exact ⟨fun h => hin.2.ne h.2.1, fun h => (hin.2.trans hself).not_ge h.2⟩
    · rw [hmemEq] at hin
      rw [hgt, hin.2.1]
      exact fun h => hself.not_ge h.2
    · rw [hlt, hmemEq, hgt]
      constructor
      · rintro (hin | ⟨hrow, heq, -⟩ | hin)
        exacts [hin.1, ⟨hrow, heq ▸ prefix_append _ _⟩, hin.1]
      · intro hin
        rcases hcases row hin.1 with h | h | h
        exacts [.inl ⟨hin, h⟩, .inr (.inl ⟨hin.1, h⟩), .inr (.inr ⟨hin, h⟩)]
    · rw [hmem .le (by decide) row, hlt, hmemEq, Operator.range, and_iff_right (hbegin row.1)]
      constructor
      · rintro ⟨hin, hless⟩
        rcases hcases row hin.1 with h | h | h
        exacts [.inl ⟨hin, h⟩, .inr ⟨hin.1, h⟩, absurd hless (not_lt.2 h)]
      · rintro (⟨hin, hless⟩ | ⟨hrow, heq, -⟩)
        · exact ⟨hin, hless.trans hself⟩
        · exact ⟨⟨hrow, heq ▸ prefix_append _ _⟩, heq.trans_lt hself⟩
    · rw [hmem .ge (by decide) row, hgt, hmemEq, Operator.range]
      constructor
      · rintro ⟨hin, hge, -⟩
        rcases hcases row hin.1 with h | h | h
        exacts [absurd h (not_lt.2 hge), .inr ⟨hin.1, h⟩, .inl ⟨hin, h⟩]
      · rintro (⟨hin, hge⟩ | ⟨hrow, heq, -⟩)
        · exact ⟨hin, hself.le.trans hge, hend row hin.1⟩
        · exact ⟨⟨hrow, heq ▸ prefix_append _ _⟩, heq.ge, hend row hrow⟩

end Comparisons

/-! ## A cluster to run -/

/-- One shard, one replica. -/
def single (log : History) : Cluster := ⟨[.leads log], fun _ => some (.leads log)⟩

/-- A key no command names reads as nothing. -/
theorem get_unnamed (hno : ∀ e ∈ log, e.2.key ≠ some k) (hk : ValidKey k) :
    (replay log).get k none = .ok (.ok none) := by
  have huntouched : MVCCStateMachine.Untouched (replay log) k := by
    induction log using reverseRecOn with
    | nil => exact MVCCStateMachine.untouched_empty k
    | append_singleton log e ih =>
      rw [MVCCStateMachine.replay_concat]
      exact (ih fun e he => hno e (mem_append_left _ he)).alike
        (MVCCStateMachine.alike_apply _ _ (hno e (mem_append_right _ mem_cons_self)))
  have hlock : ∀ s l, (replay log).maps.lock k s = some l →
      (none : Option ℤ).all (s < ·) = false ∧ (none : Option ℤ) ≠ some s :=
    fun s l hl => by cases (huntouched.lock s).symm.trans hl
  obtain ⟨newest, hnew, hread⟩ := readVersion_valid (replay log) hk
    (lastApplied_ge log)
  rw [get_passed (tidy_replay log) hk hlock, hread]
  cases hnew with
  | none => rfl
  | some hv => cases (huntouched.version _).symm.trans (Storage.Maps.visible_eq_some.1 hv).2

/-- What is read under a key is under a key some command names. -/
theorem named_of_get {r : ReadResult} (h : (replay log).get k none = .ok r) (hne : r ≠ .ok none) :
    ∃ e ∈ log, e.2.key = some k := by
  by_contra hno
  have hk : ValidKey k := not_not.1 fun hk => not_get_of_invalid hk r h
  have hnone := get_unnamed (fun e he heq => hno ⟨e, he, heq⟩) hk
  exact hne (Except.ok.inj (h.symm.trans hnone))

theorem Cluster.Holds.named {row : Bytes × Bytes} (h : (single log).Holds row) :
    (∃ e ∈ log, e.2.key = some row.1) ∧ ∃ t, (replay log).get row.1 none = .ok (.ok (some row.2) t) := by
  obtain ⟨log', hin, t, hget⟩ := h
  cases mem_singleton.1 hin
  exact ⟨named_of_get hget (by simp [ReadResult.ok]), t, hget⟩

theorem serves_single
    (hfree : ∀ e ∈ log, ∀ k, e.2.key = some k → (replay log).get k none ≠ .ok .locked) :
    Serves (single log) where
  replicas r hr := .inr (.inr ⟨log, mem_singleton.1 hr⟩)
  free log' hin k hlocked := by
    cases mem_singleton.1 hin
    obtain ⟨e, he, hk⟩ := named_of_get hlocked (by simp [ReadResult.ok, ReadResult.locked])
    exact hfree e he k hk hlocked
  located k := ⟨log, rfl, mem_singleton.2 rfl⟩
  own log' hin _ _ _ _ := by cases mem_singleton.1 hin; rfl

/-- `SET`, as `_execute_insert` serialises it. -/
def set (key value : Bytes) (timestamp : ℤ) : Storage.Command :=
  { type := .set, key := some key, value := some value, timestamp := some timestamp }

/-- The texts of ASCII, with `msgpack` for what is short. -/
def ascii : Format where
  decodes b := b.all (· < 128)
  upper := List.map fun b => if 97 ≤ b ∧ b ≤ 122 then b - 32 else b
  lower := List.map fun b => if 65 ≤ b ∧ b ≤ 90 then b + 32 else b
  str
    | .int n => (Nat.toDigits 10 n).map fun ch => UInt8.ofNat ch.toNat
    | .str t => t
    | .null => [78, 111, 110, 101]
  packb row := UInt8.ofNat (128 + row.entries.length) :: row.entries.flatMap fun e =>
    UInt8.ofNat (160 + e.1.length) :: e.1 ++
      match e.2 with
      | .int n => [UInt8.ofNat n]
      | .str t => UInt8.ofNat (160 + t.length) :: t
      | .null => [192]
  unpackb _ := none

theorem ascii_utf8 : ascii.Utf8 := by
  intro b hb hmem
  have := all_eq_true.1 hb 255 hmem
  exact absurd this (by decide)

/-- `t:1` and `t:10`. -/
def tenLog : History := [(0, set [116, 58, 49] [120] 1), (0, set [116, 58, 49, 48] [121] 2)]

theorem mem_tenLog (h : ∃ e ∈ tenLog, e.2.key = some k) :
    k = [116, 58, 49] ∨ k = [116, 58, 49, 48] := by
  simpa [tenLog, set, eq_comm] using h

/-- `id < 1`, `id = 1` and `id > 1` leave out the row `10`, which `id <= 1` has. -/
theorem comparisons_lose_ten :
    selectRows ascii (single tenLog) [84] [49] .lt = .ok [] ∧
      selectRows ascii (single tenLog) [84] [49] .eq = .ok [([116, 58, 49], [120])] ∧
      selectRows ascii (single tenLog) [84] [49] .gt = .ok [] ∧
      selectRows ascii (single tenLog) [84] [49] .le =
        .ok [([116, 58, 49], [120]), ([116, 58, 49, 48], [121])] := by
  decide +kernel

/-- The comparisons with `10` divide the same rows. -/
theorem comparisons_partition_iff_ten : Partitions ascii (single tenLog) [84] [49, 48] := by
  have hfree : ∀ e ∈ tenLog, ∀ k, e.2.key = some k →
      (replay tenLog).get k none ≠ .ok .locked := by
    intro e he k hk
    rcases mem_tenLog ⟨e, he, hk⟩ with rfl | rfl <;> decide +kernel
  refine (comparisons_partition_iff ascii ascii_utf8 (single tenLog) [84] [49, 48]
    (serves_single hfree) (fun row hrow => ?_) (by decide) (by decide)).2 ⟨by decide, ?_⟩
  · rcases mem_tenLog hrow.named.1 with heq | heq <;> rw [heq] <;> decide
  · rintro ⟨k, v⟩ hrow hpre
    obtain ⟨hnamed, t, hget⟩ := hrow.named
    have hten : (replay tenLog).get [116, 58, 49, 48] none = .ok (.ok (some [121]) 2) := by
      decide +kernel
    dsimp only at hpre hget
    rcases mem_tenLog hnamed with rfl | rfl
    · exact absurd hpre (by decide)
    · cases hten.symm.trans hget
      exact ⟨rfl, cons_ne_nil _ _⟩

end OxideDB.Sql
