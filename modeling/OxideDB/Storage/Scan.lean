import OxideDB.Storage.Snapshot

/-!
# Range reads

`scan_versions` walks the versions of a range in the order of the engine, which is by key and
then by timestamp, and keeps for each key the last one it could see.  What comes out is one row
for each key of the range whose newest visible version is a value, in the order of the keys.
-/

namespace OxideDB.Storage

open List SortedTable ByteOrder
open Raft (Bytes)

variable {k : Bytes} {row : Bytes × Cell} {w : Option Bytes} {space : Space} {key : UserKey}

theorem sep_le (b : UInt8) : sep ≤ b := by
  rw [UInt8.le_iff_toNat_le]
  exact Nat.zero_le _

namespace MVCCStorage

/-! ## The loop -/

/-- A version the loop comes to: its key, its timestamp, and its value unless it is a
tombstone. -/
abbrev Seen := Bytes × ℤ × Option Bytes

namespace ScanState

variable {timestamp : ℤ} {rows : List Seen} {s : ScanState} {k : Bytes} {v : Bytes} {t : ℤ}
  {w : Option Bytes}

/-- The body of the loop, on a decoded row. -/
def step (timestamp : ℤ) (s : ScanState) (row : Seen) : ScanState :=
  if row.2.1 ≤ timestamp then
    { s.turn row.1 with
      currentValue := row.2.2
      currentTs := if row.2.2.isSome then row.2.1 else 0 }
  else s.turn row.1

/-- The last of some rows that is of a key and visible. -/
def latest (timestamp : ℤ) (rows : List Seen) (k : Bytes) : Option (ℤ × Option Bytes) :=
  (rows.filter fun row => row.1 = k ∧ row.2.1 ≤ timestamp).getLast?.map Prod.snd

theorem latest_concat (rows : List Seen) (row : Seen) (k : Bytes) :
    latest timestamp (rows ++ [row]) k =
      if row.1 = k ∧ row.2.1 ≤ timestamp then some row.2 else latest timestamp rows k := by
  rw [latest, filter_append]
  by_cases h : row.1 = k ∧ row.2.1 ≤ timestamp
  · rw [if_pos h, filter_cons_of_pos (by simpa using h), filter_nil,
      getLast?_append_cons]
    rfl
  · rw [if_neg h, filter_cons_of_neg (by simpa using h), filter_nil, append_nil,
      latest]

theorem latest_eq_none (h : ∀ row ∈ rows, row.1 ≠ k) : latest timestamp rows k = none := by
  rw [latest, filter_eq_nil_iff.2 fun row hrow => by simp [h row hrow]]
  rfl

/-- What the loop has found after some rows. -/
structure Swept (timestamp : ℤ) (rows : List Seen) (s : ScanState) : Prop where
  key : s.currentKey = rows.getLast?.map Prod.fst
  mem {k v : Bytes} {t : ℤ} : (k, v, t) ∈ s.result ↔
    s.currentKey ≠ some k ∧ latest timestamp rows k = some (t, some v)
  current {k : Bytes} (h : s.currentKey = some k) {v : Bytes} {t : ℤ} :
    s.currentValue = some v ∧ s.currentTs = t ↔ latest timestamp rows k = some (t, some v)
  sorted : s.result.Pairwise fun e e' => e.1 < e'.1
  below {k : Bytes} (h : s.currentKey = some k) : ∀ e ∈ s.result, e.1 < k

theorem Swept.nil : Swept timestamp [] {} where
  key := rfl
  mem {k v t} := by simp [latest]
  current h := by cases h
  sorted := List.Pairwise.nil
  below h := by cases h

theorem Swept.mem_flushed (h : Swept timestamp rows s) :
    (k, v, t) ∈ s.flushed ↔ latest timestamp rows k = some (t, some v) := by
  have hnokey : s.currentKey = none → rows = [] := fun hnone => by
    have hlast := h.key
    rw [hnone] at hlast
    exact getLast?_eq_none_iff.1 (Option.map_eq_none_iff.1 hlast.symm)
  unfold flushed
  split
  · next key value hkey hvalue =>
    rw [mem_append, h.mem, mem_singleton]
    by_cases hk : key = k
    · subst hk
      rw [← h.current hkey]
      simp [hkey, hvalue, eq_comm]
    · have hne : s.currentKey ≠ some k := fun heq => hk (Option.some.inj (hkey.symm.trans heq))
      simp [hne, Ne.symm hk]
  · next hnone =>
    rw [h.mem]
    refine ⟨fun hmem => hmem.2, fun hlatest => ⟨fun hkey => ?_, hlatest⟩⟩
    obtain ⟨hvalue, -⟩ := (h.current hkey).2 hlatest
    exact hnone k v hkey hvalue

theorem Swept.sorted_flushed (h : Swept timestamp rows s) :
    s.flushed.Pairwise fun e e' => e.1 < e'.1 := by
  unfold flushed
  split
  · next key value hkey hvalue =>
    refine pairwise_append.2 ⟨h.sorted, pairwise_singleton _ _, fun e he e' he' => ?_⟩
    rw [mem_singleton.1 he']
    exact h.below hkey e he
  · exact h.sorted

/-- The keys of the rows found are keys of the rows seen. -/
theorem latest_key (h : latest timestamp rows k = some (t, w)) : ∃ row ∈ rows, row.1 = k := by
  by_contra hno
  rw [latest_eq_none fun row hrow heq => hno ⟨row, hrow, heq⟩] at h
  cases h

section

variable {row : Seen} (h : Swept timestamp rows s)
  (hsorted : (rows ++ [row]).Pairwise fun r r' => r.1 ≤ r'.1)
include h hsorted

/-- The loop comes to the next row.  If its key is another one than the last, no row of it has
been seen, since the keys come in order. -/
theorem Swept.turn :
    (s.turn row.1).currentKey = some row.1 ∧
      (∀ {k v t}, (k, v, t) ∈ (s.turn row.1).result ↔
        row.1 ≠ k ∧ latest timestamp rows k = some (t, some v)) ∧
      (∀ {v t}, (s.turn row.1).currentValue = some v ∧ (s.turn row.1).currentTs = t ↔
        latest timestamp rows row.1 = some (t, some v)) ∧
      ((s.turn row.1).result.Pairwise fun e e' => e.1 < e'.1) ∧
      ∀ e ∈ (s.turn row.1).result, e.1 < row.1 := by
  obtain ⟨hrows, -, hle⟩ := pairwise_append.1 hsorted
  unfold ScanState.turn
  split
  · next hkey =>
    refine ⟨hkey, fun {k v t} => ?_, h.current hkey, h.sorted, h.below hkey⟩
    rw [h.mem, hkey, ne_eq, Option.some_inj]
  · next hkey =>
    have hnew : ∀ r ∈ rows, r.1 ≠ row.1 := by
      intro r hr heq
      rcases eq_nil_or_concat rows with rfl | ⟨front, last, rfl⟩
      · cases hr
      rw [concat_eq_append] at *
      refine hkey ?_
      rw [h.key, getLast?_concat, Option.map_some]
      have hlast : r.1 ≤ last.1 := by
        rcases mem_append.1 hr with hr | hr
        · exact (pairwise_append.1 hrows).2.2 r hr last mem_cons_self
        · rw [mem_singleton.1 hr]
      exact congrArg some (le_antisymm
        (hle last (mem_append_right _ mem_cons_self) row mem_cons_self)
        (heq ▸ hlast))
    have hlt : ∀ r ∈ rows, r.1 < row.1 := fun r hr =>
      lt_of_le_of_ne (hle r hr row mem_cons_self) (hnew r hr)
    have hnone : latest timestamp rows row.1 = none := latest_eq_none hnew
    refine ⟨rfl, fun {k v t} => ?_, fun {v t} => ?_, h.sorted_flushed, fun e he => ?_⟩
    · refine h.mem_flushed.trans ⟨fun hlatest => ⟨?_, hlatest⟩, fun hlatest => hlatest.2⟩
      obtain ⟨r, hr, rfl⟩ := latest_key hlatest
      exact (hnew r hr).symm
    · rw [hnone]
      exact iff_of_false (fun hv => by cases hv.1) nofun
    · obtain ⟨r, hr, heq⟩ := latest_key (h.mem_flushed.1 he)
      exact heq ▸ hlt r hr

theorem Swept.concat : Swept timestamp (rows ++ [row]) (step timestamp s row) := by
  obtain ⟨hkey, hmem, hcurrent, hres, hbelow⟩ := h.turn hsorted
  have hresult : (step timestamp s row).result = (s.turn row.1).result := by
    unfold step
    split <;> rfl
  have hcurrentKey : (step timestamp s row).currentKey = some row.1 := by
    unfold step
    split <;> exact hkey
  refine ⟨?_, fun {k v t} => ?_, fun {k} hk {v t} => ?_, hresult ▸ hres, fun {k} hk => ?_⟩
  · rw [hcurrentKey, getLast?_concat]
    rfl
  · rw [hresult, hmem, hcurrentKey, latest_concat, ne_eq, ne_eq, Option.some_inj]
    refine and_congr_right fun hne => ?_
    rw [if_neg fun hand => hne hand.1]
  · cases hcurrentKey.symm.trans hk
    rw [latest_concat]
    by_cases hvisible : row.2.1 ≤ timestamp
    · rw [if_pos (And.intro rfl hvisible), step, if_pos hvisible]
      obtain ⟨k, t', w⟩ := row
      cases w with
      | none => simp
      | some w => simp [and_comm]
    · rw [if_neg fun hand => hvisible hand.2, step, if_neg hvisible]
      exact hcurrent
  · cases hcurrentKey.symm.trans hk
    exact hresult ▸ hbelow

end

theorem swept_foldl (timestamp : ℤ) (rows : List Seen) (hsorted : rows.Pairwise fun r r' => r.1 ≤ r'.1) :
    Swept timestamp rows (rows.foldl (step timestamp) {}) := by
  induction rows using reverseRecOn with
  | nil => exact .nil
  | append_singleton rows row ih =>
    rw [foldl_concat]
    exact (ih (pairwise_append.1 hsorted).1).concat hsorted

end ScanState

/-! ## The rows of a range -/

variable {st : MVCCStorage} {timestamp : ℤ} {lo hi k : Bytes} {v : Bytes} {t : ℤ}

/-- A row, decoded. -/
def describe (row : Bytes × Cell) : Seen :=
  match splitVersionKey row.1 with
  | .ok (key, t) => (key, t, ((decodeVersion row.2 0).filter (!·.deleted)).map (·.value))
  | .error _ => ([], 0, none)

theorem visit_eq {s : ScanState} {key : Bytes} {t : ℤ} (h : splitVersionKey row.1 = .ok (key, t)) :
    s.visit timestamp row = .ok (s.step timestamp (describe row)) := by
  simp only [ScanState.visit, ScanState.step, describe, h, bind, Except.bind, pure, Except.pure]
  split
  · rw [ScanState.see, Option.isSome_map]
  · rfl

variable {t : Stamp}

/-- A version of a key, where the engine has it. -/
theorem describe_rowKey {cell : Cell} (h : st.cellAt .version key.1 t.1 = some cell) :
    ∃ w, describe (rowKey .version key t, cell) = (key.1, t.1, w) ∧
      st.versionAt key.1 t.1 = some w := by
  obtain ⟨r, hdecode, hversion⟩ := versionAt_of_cellAt h
  refine ⟨_, ?_, hversion⟩
  simp only [describe, splitVersionKey_rowKey, hdecode]
  by_cases hdel : r.deleted = true <;> simp [hdel]

/-- Rows of one namespace stand in the order of their keys, and then of their timestamps. -/
theorem rowKey_lt {key' : UserKey} {t' : Stamp} :
    rowKey space key t < rowKey space key' t' ↔ key.1 < key'.1 ∨ key.1 = key'.1 ∧ t.1 < t'.1 := by
  simp only [rowKey, rowPrefix, cons_append, append_assoc, nil_append,
    cons_lt_cons, lt_irrefl, false_or, true_and]
  rw [append_least_lt_append_least sep_le key.2 key'.2, Stamp.bytes_lt]

theorem mem_scan_range {lo hi : UserKey} :
    row ∈ st.engine.scan (space.byte :: lo.1) (space.byte :: hi.1) ↔
      ∃ (key : UserKey) (t : Stamp), row.1 = rowKey space key t ∧
        st.cellAt space key.1 t.1 = some row.2 ∧ lo.1 ≤ key.1 ∧ key.1 < hi.1 := by
  have hbounds : ∀ {key : UserKey} {t : Stamp}, space.byte :: lo.1 ≤ rowKey space key t ∧
      rowKey space key t < space.byte :: hi.1 ↔ lo.1 ≤ key.1 ∧ key.1 < hi.1 := by
    intro key t
    simp only [rowKey, rowPrefix, cons_append, append_assoc, nil_append,
      cons_lt_cons, ByteOrder.cons_le_cons, lt_irrefl, false_or, true_and]
    rw [append_least_lt sep_le hi.2, ← not_lt, ByteOrder.append_least_lt sep_le lo.2,
      not_lt]
  rw [mem_scan]
  constructor
  · rintro ⟨hrow, hlo, hhi⟩
    obtain ⟨space', key, t, heq, -⟩ := st.formed row hrow
    have hspace : space' = space := by
      rw [heq, rowKey, rowPrefix, cons_append, cons_append] at hlo hhi
      refine Space.byte_injective (le_antisymm ?_ ?_)
      · rcases cons_lt_cons.1 hhi with hlt | ⟨heq, -⟩
        · exact hlt.le
        · exact heq.le
      · rcases cons_le_cons.1 hlo with hlt | ⟨heq, -⟩
        · exact hlt.le
        · exact heq.le
    subst hspace
    refine ⟨key, t, heq, ?_, hbounds.1 ⟨heq ▸ hlo, heq ▸ hhi⟩⟩
    rw [cellAt_stamp, get_eq_some, ← heq]
    exact hrow
  · rintro ⟨key, t, heq, hcell, hrange⟩
    rw [cellAt_stamp, get_eq_some, ← heq] at hcell
    exact ⟨hcell, heq ▸ hbounds.2 hrange⟩

/-- The rows of a range, decoded. -/
def seen (st : MVCCStorage) (lo hi : UserKey) : List Seen :=
  (st.engine.scan (Space.version.byte :: lo.1) (Space.version.byte :: hi.1)).map describe

theorem mem_seen {lo hi : UserKey} {t : ℤ} :
    (k, t, w) ∈ st.seen lo hi ↔ lo.1 ≤ k ∧ k < hi.1 ∧ st.versionAt k t = some w := by
  rw [seen, mem_map]
  constructor
  · rintro ⟨row, hrow, hdesc⟩
    obtain ⟨key, t', heq, hcell, hrange⟩ := mem_scan_range.1 hrow
    obtain ⟨w', hdesc', hversion⟩ := describe_rowKey hcell
    rw [← heq, Prod.mk.eta, hdesc] at hdesc'
    cases hdesc'
    exact ⟨hrange.1, hrange.2, hversion⟩
  · rintro ⟨hlo, hhi, hversion⟩
    rcases hcell : st.cellAt .version k t with _ | cell
    · rw [versionAt_eq_none.2 hcell] at hversion
      cases hversion
    obtain ⟨hk, ht⟩ := valid_of_cellAt hcell
    have hcell' : st.cellAt .version (⟨k, hk⟩ : UserKey).1 (⟨t, ht⟩ : Stamp).1 = some cell := hcell
    obtain ⟨w', hdesc, hversion'⟩ := describe_rowKey hcell'
    cases hversion.symm.trans hversion'
    exact ⟨_, mem_scan_range.2 ⟨⟨k, hk⟩, ⟨t, ht⟩, rfl, hcell, hlo, hhi⟩, hdesc⟩

theorem sorted_seen (st : MVCCStorage) (lo hi : UserKey) :
    (st.seen lo hi).Pairwise fun r r' => r.1 < r'.1 ∨ r.1 = r'.1 ∧ r.2.1 < r'.2.1 := by
  refine pairwise_map.2 ((st.engine.sorted.filter _).imp_of_mem fun {row row'} hr hr' hlt => ?_)
  obtain ⟨key, t, heq, hcell, -⟩ := mem_scan_range.1 hr
  obtain ⟨key', t', heq', hcell', -⟩ := mem_scan_range.1 hr'
  obtain ⟨w, hdesc, -⟩ := describe_rowKey hcell
  obtain ⟨w', hdesc', -⟩ := describe_rowKey hcell'
  rw [← heq, Prod.mk.eta] at hdesc
  rw [← heq', Prod.mk.eta] at hdesc'
  rw [heq, heq', rowKey_lt] at hlt
  rw [hdesc, hdesc']
  exact hlt

/-- The last visible version of a key of the range is its newest. -/
theorem latest_seen {lo hi : UserKey} {t : ℤ} :
    ScanState.latest timestamp (st.seen lo hi) k = some (t, w) ↔
      lo.1 ≤ k ∧ k < hi.1 ∧ Newest (st.visibleAt k timestamp) (some (t, w)) := by
  have hmem : ∀ {t w}, (k, t, w) ∈ (st.seen lo hi).filter (fun row => row.1 = k ∧ row.2.1 ≤ timestamp) ↔
      lo.1 ≤ k ∧ k < hi.1 ∧ st.visibleAt k timestamp t = some w := by
    intro t w
    rw [mem_filter, mem_seen, visibleAt]
    by_cases hle : t ≤ timestamp <;> simp [hle]
  have hfst : ∀ row ∈ (st.seen lo hi).filter (fun row => row.1 = k ∧ row.2.1 ≤ timestamp), row.1 = k := by
    intro row hrow
    have h := (mem_filter.1 hrow).2
    simp only [decide_eq_true_eq] at h
    exact h.1
  -- the visible versions of one key are in the order of their timestamps
  have hsorted : (((st.seen lo hi).filter fun row => row.1 = k ∧ row.2.1 ≤ timestamp).map
      Prod.snd).Pairwise fun r r' => r.1 < r'.1 := by
    refine pairwise_map.2 (((sorted_seen st lo hi).filter _).imp_of_mem
      fun {r r'} hr hr' h => ?_)
    rcases h with h | h
    · exact absurd h (by rw [hfst r hr, hfst r' hr']; exact lt_irrefl k)
    · exact h.2
  rw [ScanState.latest]
  constructor
  · intro h
    obtain ⟨row, hrow, heq⟩ := Option.map_eq_some_iff.1 h
    have hin := mem_of_getLast? hrow
    have hrowk := hfst row hin
    obtain ⟨k', t', w'⟩ := row
    cases heq
    subst hrowk
    obtain ⟨hlo, hhi, hv⟩ := hmem.1 hin
    refine ⟨hlo, hhi, .some hv fun t'' hlt => ?_⟩
    rcases hv' : st.visibleAt k' timestamp t'' with _ | w''
    · rfl
    have hle := le_getLast hsorted
      (by rw [getLast?_map, hrow]; rfl)
      (mem_map_of_mem (f := Prod.snd) (hmem.2 ⟨hlo, hhi, hv'⟩))
    exact absurd hle (not_le.2 hlt)
  · rintro ⟨hlo, hhi, hnew⟩
    obtain ⟨hv, hmax⟩ : st.visibleAt k timestamp t = some w ∧
        ∀ t', t < t' → st.visibleAt k timestamp t' = none := by
      cases hnew with
      | some hv hmax => exact ⟨hv, hmax⟩
    have hin := hmem.2 ⟨hlo, hhi, hv⟩
    obtain ⟨row, hrow⟩ : ∃ row, ((st.seen lo hi).filter fun row =>
        row.1 = k ∧ row.2.1 ≤ timestamp).getLast? = some row :=
      Option.ne_none_iff_exists'.1 fun hnone => by
        rw [getLast?_eq_none_iff.1 hnone] at hin
        cases hin
    have hrowk := hfst row (mem_of_getLast? hrow)
    obtain ⟨k', t', w'⟩ := row
    subst hrowk
    obtain ⟨-, -, hv'⟩ := hmem.1 (mem_of_getLast? hrow)
    have hlast : (((st.seen lo hi).filter fun row => row.1 = k' ∧ row.2.1 ≤ timestamp).map
        Prod.snd).getLast? = some (t', w') := by
      rw [getLast?_map, hrow]
      rfl
    have hle : t ≤ t' :=
      le_getLast hsorted hlast (mem_map_of_mem (f := Prod.snd) hin)
    rcases hle.lt_or_eq with hlt | rfl
    · rw [hmax t' hlt] at hv'
      cases hv'
    · rw [hrow, Option.map_some, ← Option.some.inj (hv.symm.trans hv')]

/-- The loop, over a range whose bounds are keys. -/
theorem scanVersions_eq (st : MVCCStorage) (lo hi : UserKey) (timestamp : ℤ) :
    st.scanVersions lo.1 hi.1 timestamp =
      .ok ((st.seen lo hi).foldl (ScanState.step timestamp) {}).flushed := by
  have hfold : ∀ (rows : List (Bytes × Cell)) (s : ScanState),
      (∀ row ∈ rows, ∃ key t, splitVersionKey row.1 = .ok (key, t)) →
      rows.foldlM (ScanState.visit timestamp) s =
        .ok ((rows.map describe).foldl (ScanState.step timestamp) s) := by
    intro rows
    induction rows with
    | nil => exact fun s _ => rfl
    | cons row rows ih =>
      intro s h
      obtain ⟨key, t, hsplit⟩ := h row mem_cons_self
      rw [foldlM_cons, visit_eq hsplit]
      exact ih _ fun row hrow => h row (mem_cons_of_mem _ hrow)
  rw [scanVersions, checkUserKey_valid lo.2, checkUserKey_valid hi.2]
  have hrows := hfold (st.engine.scan (Space.version.byte :: lo.1) (Space.version.byte :: hi.1)) {}
    fun row hrow => by
      obtain ⟨key, t, heq, -⟩ := mem_scan_range.1 hrow
      exact ⟨key.1, t.1, by rw [heq, splitVersionKey_rowKey]⟩
  simp only [bind, Except.bind, hrows]
  rfl

/-- **The rows of a range read**: one for each key of the range whose newest visible version is
a value. -/
theorem scanVersions_valid (st : MVCCStorage) (hlo : ValidKey lo) (hhi : ValidKey hi)
    (timestamp : ℤ) : ∃ rows, st.scanVersions lo hi timestamp = .ok rows ∧
      (rows.Pairwise fun e e' => e.1 < e'.1) ∧
      ∀ k v t, (k, v, t) ∈ rows ↔
        lo ≤ k ∧ k < hi ∧ Newest (st.visibleAt k timestamp) (some (t, some v)) := by
  have hswept := ScanState.swept_foldl timestamp (st.seen ⟨lo, hlo⟩ ⟨hi, hhi⟩)
    ((sorted_seen st ⟨lo, hlo⟩ ⟨hi, hhi⟩).imp fun h => h.elim le_of_lt fun h => h.1.le)
  refine ⟨_, scanVersions_eq st ⟨lo, hlo⟩ ⟨hi, hhi⟩ timestamp, hswept.sorted_flushed,
    fun k v t => ?_⟩
  rw [hswept.mem_flushed, latest_seen]

end MVCCStorage
end OxideDB.Storage
