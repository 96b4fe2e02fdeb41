import OxideDB.Storage.Mvcc

/-!
# The keyspace as three maps

What a caller of `MVCCStorage` sees is three maps from a key and a timestamp: the versions,
the write records and the locks.  The encoding is forgotten here: a row is found at the key
and timestamp it was written at and nowhere else, and the last row of a key is the newest.

* `set_ok`, `delete_ok`, `writeWriteRecord_ok`, `putLock_ok`, `removeLock_ok` — what an
  update that succeeds leaves.
* `getLatestVersion_valid`, `getLatestWrite_valid`, `getNewestLock_valid`, `getLock_valid`,
  `getVersionAt_valid` — what the lookups answer.
-/

namespace OxideDB.Storage

open List SortedTable ByteOrder
open Raft (Bytes)
open ByteOrder (bigEndian ofBigEndian)

variable {hi : Bytes} {value : Option Bytes} {timestamp : Option ℤ} {space space' : Space}
  {t t' : Stamp} {s : ℤ}

/-! ## The encoding is injective and ordered -/

theorem Stamp.toNat_lt (t : Stamp) : t.1.toNat < 256 ^ 8 := by
  have h := t.2
  simp only [maxTs] at h
  omega

@[simp] theorem Stamp.length_bytes (t : Stamp) : t.bytes.length = 8 :=
  length_bigEndian 8 _

@[simp] theorem Stamp.ofBigEndian_bytes (t : Stamp) : (ofBigEndian t.bytes : ℤ) = t.1 := by
  rw [Stamp.bytes, ofBigEndian_bigEndian t.toNat_lt, Int.toNat_of_nonneg t.2.1]

theorem Stamp.bytes_injective (h : t.bytes = t'.bytes) : t = t' := by
  refine Subtype.ext ?_
  rw [← t.ofBigEndian_bytes, h, t'.ofBigEndian_bytes]

theorem Stamp.bytes_lt : t.bytes < t'.bytes ↔ t.1 < t'.1 := by
  rw [Stamp.bytes, Stamp.bytes, bigEndian_lt_bigEndian t.toNat_lt t'.toNat_lt]
  have h := t.2
  have h' := t'.2
  omega

theorem Stamp.bytes_le : t.bytes ≤ t'.bytes ↔ t.1 ≤ t'.1 := by
  rw [← not_lt, Stamp.bytes_lt, not_lt]

theorem Space.byte_injective (h : space.byte = space'.byte) : space = space' := by
  cases space <;> cases space' <;> first | rfl | exact absurd h (by decide)

theorem rowKey_injective {key key' : UserKey} (h : rowKey space key t = rowKey space' key' t') :
    space = space' ∧ key = key' ∧ t = t' := by
  obtain ⟨hpre, hts⟩ := append_inj' h (by simp)
  obtain ⟨hspace, hkey⟩ := cons.inj hpre
  exact ⟨Space.byte_injective hspace, Subtype.ext (append_inj' hkey rfl).1,
    Stamp.bytes_injective hts⟩

/-- The rows that begin with a key's prefix are that key's: the separator ends the key. -/
theorem rowPrefix_isPrefix {key key' : UserKey} (h : rowPrefix space key <+: rowKey space' key' t) :
    space = space' ∧ key = key' := by
  obtain ⟨rest, hrest⟩ := h
  simp only [rowPrefix, rowKey, cons_append, append_assoc, nil_append,
    cons.injEq] at hrest
  refine ⟨Space.byte_injective hrest.1, Subtype.ext ?_⟩
  -- whichever key is longer holds the separator of the other
  rcases append_eq_append_iff.1 hrest.2 with ⟨mid, hkey, hsep⟩ | ⟨mid, hkey, hsep⟩
  · cases mid with
    | nil => simpa using hkey.symm
    | cons b mid =>
      obtain ⟨rfl, -⟩ := cons.inj hsep
      exact absurd (hkey ▸ mem_append_right _ mem_cons_self) key'.2
  · cases mid with
    | nil => simpa using hkey
    | cons b mid =>
      obtain ⟨rfl, -⟩ := cons.inj hsep
      exact absurd (hkey ▸ mem_append_right _ mem_cons_self) key.2

theorem sep_covBy : (sep : UInt8) ⋖ 1 := covBy_add_one (by decide)

theorem rowPrefix_isPrefix_rowKey (space : Space) (key : UserKey) (t : Stamp) :
    rowPrefix space key <+: rowKey space key t :=
  prefix_append _ _

/-- `splitVersionKey` undoes `rowKey`. -/
@[simp] theorem splitVersionKey_rowKey (space : Space) (key : UserKey) (t : Stamp) :
    MVCCStorage.splitVersionKey (rowKey space key t) = .ok (key.1, t.1) := by
  have hbody : (rowKey space key t).drop 1 = key.1 ++ sep :: t.bytes := by
    simp [rowKey, rowPrefix]
  have hlen : (key.1 ++ sep :: t.bytes).length = key.1.length + 9 := by simp
  rw [MVCCStorage.splitVersionKey]
  simp only [hbody, hlen]
  rw [if_neg (by omega)]
  have hdrop : (key.1 ++ sep :: t.bytes).drop (key.1.length + 1) = t.bytes := by
    simp [drop_append]
  simp [hdrop]

/-! ## The maps -/

/-- A key the storage takes. -/
def ValidKey (key : Bytes) : Prop := sep ∉ key

/-- A timestamp the storage takes. -/
def ValidTs (t : ℤ) : Prop := 0 ≤ t ∧ t ≤ maxTs

instance (key : Bytes) : Decidable (ValidKey key) := inferInstanceAs (Decidable (_ ∉ _))

instance (t : ℤ) : Decidable (ValidTs t) := inferInstanceAs (Decidable (_ ∧ _))

/-- The entry of a map with the greatest timestamp, if there is one. -/
inductive Newest {α : Type} (f : ℤ → Option α) : Option (ℤ × α) → Prop
  | none : (∀ t, f t = none) → Newest f none
  | some {t : ℤ} {a : α} : f t = some a → (∀ t', t < t' → f t' = none) → Newest f (some (t, a))

/-- The three maps of a keyspace. -/
@[ext]
structure Maps where
  /-- The versions: a value, or a tombstone. -/
  version : Bytes → ℤ → Option (Option Bytes)
  /-- The write records: the `start_ts` a commit timestamp belongs to. -/
  record : Bytes → ℤ → Option ℤ
  /-- The locks, by their `start_ts`. -/
  lock : Bytes → ℤ → Option LockFields

namespace Maps

variable (M : Maps) (key : Bytes) (t : ℤ)

/-- One version written. -/
def putVersion (v : Option Bytes) : Maps :=
  { M with version := fun k t' => if k = key ∧ t' = t then some v else M.version k t' }

/-- One write record written. -/
def putRecord (startTs : ℤ) : Maps :=
  { M with record := fun k t' => if k = key ∧ t' = t then some startTs else M.record k t' }

/-- One lock put or removed. -/
def setLock (lock? : Option LockFields) : Maps :=
  { M with lock := fun k t' => if k = key ∧ t' = t then lock? else M.lock k t' }

@[simp] theorem putVersion_record (v : Option Bytes) : (M.putVersion key t v).record = M.record := rfl

@[simp] theorem putVersion_lock (v : Option Bytes) : (M.putVersion key t v).lock = M.lock := rfl

@[simp] theorem putRecord_version (s : ℤ) : (M.putRecord key t s).version = M.version := rfl

@[simp] theorem putRecord_lock (s : ℤ) : (M.putRecord key t s).lock = M.lock := rfl

variable (l : Option LockFields)

@[simp] theorem setLock_version : (M.setLock key t l).version = M.version :=
  rfl

@[simp] theorem setLock_record : (M.setLock key t l).record = M.record := rfl

theorem putVersion_version (v : Option Bytes) (k : Bytes) (t' : ℤ) :
    (M.putVersion key t v).version k t' =
      if k = key ∧ t' = t then some v else M.version k t' := rfl

theorem putRecord_record (s : ℤ) (k : Bytes) (t' : ℤ) :
    (M.putRecord key t s).record k t' = if k = key ∧ t' = t then some s else M.record k t' := rfl

theorem setLock_lock (k : Bytes) (t' : ℤ) :
    (M.setLock key t l).lock k t' = if k = key ∧ t' = t then l else M.lock k t' := rfl

end Maps

namespace MVCCStorage

variable (st : MVCCStorage)

/-- The row of a key at a timestamp. -/
def cellAt (space : Space) (key : Bytes) (t : ℤ) : Option Cell :=
  if h : ValidKey key ∧ ValidTs t then
    st.engine.get (rowKey space ⟨key, h.1⟩ ⟨t, h.2⟩)
  else none

/-- The version of a key at a timestamp. -/
def versionAt (key : Bytes) (t : ℤ) : Option (Option Bytes) :=
  match st.cellAt .version key t with
  | some (.raw (flag :: payload)) => some (if flag = 0 then none else some payload)
  | _ => none

/-- The write record of a key at a commit timestamp. -/
def recordAt (key : Bytes) (t : ℤ) : Option ℤ :=
  match st.cellAt .write key t with
  | some (.raw raw) => some (ofBigEndian raw)
  | _ => none

/-- The lock on a key of the transaction that began at a timestamp. -/
def lockAt (key : Bytes) (t : ℤ) : Option LockFields :=
  match st.cellAt .lock key t with
  | some (.packed fields) => some fields
  | _ => none

/-- The keyspace, as its maps. -/
def maps : Maps := ⟨st.versionAt, st.recordAt, st.lockAt⟩

@[simp] theorem maps_version : st.maps.version = st.versionAt := rfl

@[simp] theorem maps_record : st.maps.record = st.recordAt := rfl

@[simp] theorem maps_lock : st.maps.lock = st.lockAt := rfl

variable {st}

@[simp] theorem cellAt_empty (space : Space) (key : Bytes) (t : ℤ) :
    empty.cellAt space key t = none := by
  unfold cellAt
  split <;> rfl

@[simp] theorem versionAt_empty (key : Bytes) (t : ℤ) : empty.versionAt key t = none := by
  simp [versionAt]

@[simp] theorem recordAt_empty (key : Bytes) (t : ℤ) : empty.recordAt key t = none := by
  simp [recordAt]

@[simp] theorem lockAt_empty (key : Bytes) (t : ℤ) : empty.lockAt key t = none := by
  simp [lockAt]

theorem cellAt_stamp (st : MVCCStorage) (space : Space) (key : UserKey) (t : Stamp) :
    st.cellAt space key.1 t.1 = st.engine.get (rowKey space key t) := by
  rw [cellAt, dif_pos ⟨key.2, t.2⟩]

variable {key : Bytes} {t : ℤ} {cell : Cell}

theorem valid_of_cellAt (h : st.cellAt space key t = some cell) : ValidKey key ∧ ValidTs t := by
  unfold cellAt at h
  split at h
  · assumption
  · cases h

theorem fits_of_cellAt (h : st.cellAt space key t = some cell) : cell.Fits space := by
  obtain ⟨hkey, ht⟩ := valid_of_cellAt h
  have hrow := get_eq_some.1 ((cellAt_stamp st space ⟨key, hkey⟩ ⟨t, ht⟩).symm.trans h)
  obtain ⟨space', key', t', heq, hfits⟩ := st.formed _ hrow
  exact (rowKey_injective heq).1 ▸ hfits

/-! ## Updates -/

section

variable {space : Space} {key : UserKey} {t : Stamp} (space' : Space) (key' : Bytes) (t' : ℤ)

theorem cellAt_put {fits : cell.Fits space} :
    (st.put space key t cell fits).cellAt space' key' t' =
      if space' = space ∧ key' = key.1 ∧ t' = t.1 then some cell else st.cellAt space' key' t' := by
  by_cases hvalid : ValidKey key' ∧ ValidTs t'
  · rw [cellAt, dif_pos hvalid, cellAt, dif_pos hvalid, put, get_put]
    by_cases heq : space' = space ∧ key' = key.1 ∧ t' = t.1
    · obtain ⟨rfl, rfl, rfl⟩ := heq
      simp
    rw [if_neg heq, if_neg]
    intro hrow
    obtain ⟨hs, hk, ht⟩ := rowKey_injective hrow
    exact heq ⟨hs, congrArg Subtype.val hk, congrArg Subtype.val ht⟩
  · rw [cellAt, dif_neg hvalid, cellAt, dif_neg hvalid, if_neg]
    rintro ⟨-, rfl, rfl⟩
    exact hvalid ⟨key.2, t.2⟩

theorem cellAt_remove :
    (st.remove space key t).cellAt space' key' t' =
      if space' = space ∧ key' = key.1 ∧ t' = t.1 then none else st.cellAt space' key' t' := by
  by_cases hvalid : ValidKey key' ∧ ValidTs t'
  · rw [cellAt, dif_pos hvalid, cellAt, dif_pos hvalid, remove, get_erase]
    by_cases heq : space' = space ∧ key' = key.1 ∧ t' = t.1
    · obtain ⟨rfl, rfl, rfl⟩ := heq
      simp
    rw [if_neg heq, if_neg]
    intro hrow
    obtain ⟨hs, hk, ht⟩ := rowKey_injective hrow
    exact heq ⟨hs, congrArg Subtype.val hk, congrArg Subtype.val ht⟩
  · rw [cellAt, dif_neg hvalid, cellAt, dif_neg hvalid, ite_self]

end

theorem maps_putVersion (key : UserKey) (t : Stamp) (flag : UInt8) (payload : Bytes) :
    (st.put .version key t (.raw (flag :: payload)) (Cell.fits_version flag payload)).maps =
      st.maps.putVersion key.1 t.1 (if flag = 0 then none else some payload) := by
  ext1
  · funext k t'
    by_cases h : k = key.1 ∧ t' = t.1
    · simp [maps, Maps.putVersion, versionAt, cellAt_put, h]
    · simp [maps, Maps.putVersion, versionAt, cellAt_put, h]
  · funext k t'
    simp [maps, Maps.putVersion, recordAt, cellAt_put]
  · funext k t'
    simp [maps, Maps.putVersion, lockAt, cellAt_put]

theorem maps_putRecord (key : UserKey) (s c : Stamp) :
    (st.put .write key c (.raw s.bytes) (Cell.fits_write s)).maps =
      st.maps.putRecord key.1 c.1 s.1 := by
  ext1
  · funext k t'
    simp [maps, Maps.putRecord, versionAt, cellAt_put]
  · funext k t'
    by_cases h : k = key.1 ∧ t' = c.1
    · simp [maps, Maps.putRecord, recordAt, cellAt_put, h]
    · simp [maps, Maps.putRecord, recordAt, cellAt_put, h]
  · funext k t'
    simp [maps, Maps.putRecord, lockAt, cellAt_put]

theorem maps_putLock (key : UserKey) (s : Stamp) (fields : LockFields) :
    (st.put .lock key s (.packed fields) (Cell.fits_lock fields)).maps =
      st.maps.setLock key.1 s.1 (some fields) := by
  ext1
  · funext k t'
    simp [maps, Maps.setLock, versionAt, cellAt_put]
  · funext k t'
    simp [maps, Maps.setLock, recordAt, cellAt_put]
  funext k t'
  by_cases h : k = key.1 ∧ t' = s.1
  · simp [maps, Maps.setLock, lockAt, cellAt_put, h]
  · simp [maps, Maps.setLock, lockAt, cellAt_put, h]

theorem maps_removeLock (key : UserKey) (s : Stamp) :
    (st.remove .lock key s).maps = st.maps.setLock key.1 s.1 none := by
  ext1
  · funext k t'
    simp [maps, Maps.setLock, versionAt, cellAt_remove]
  · funext k t'
    simp [maps, Maps.setLock, recordAt, cellAt_remove]
  funext k t'
  by_cases h : k = key.1 ∧ t' = s.1
  · simp [maps, Maps.setLock, lockAt, cellAt_remove, h]
  · simp [maps, Maps.setLock, lockAt, cellAt_remove, h]

/-! ## What the checks let through -/

theorem checkUserKey_valid (h : ValidKey key) : checkUserKey (some key) = .ok ⟨key, h⟩ := by
  have h' : ¬ sep ∈ key := h
  simp [checkUserKey, h']

theorem tsBytes_valid (h : ValidTs t) : tsBytes (some t) = .ok ⟨t, h⟩ :=
  dif_pos h

theorem checkUserKey_ok {key : Option Bytes} {k : UserKey} (h : checkUserKey key = .ok k) :
    key = some k.1 := by
  cases key with
  | none => cases h
  | some key =>
    rw [checkUserKey] at h
    split at h
    · cases h
    · cases h; rfl

theorem tsBytes_ok {t : Option ℤ} {s : Stamp} (h : tsBytes t = .ok s) : t = some s.1 := by
  cases t with
  | none => cases h
  | some t =>
    rw [tsBytes] at h
    split at h
    · cases h; rfl
    · cases h

theorem asBytes_ok {v : Bytes} (h : asBytes value = .ok v) : value = some v := by
  cases value with
  | none => cases h
  | some value => cases h; rfl

variable {st' : MVCCStorage}

theorem set_ok {key : Option Bytes} (h : st.set key value timestamp = .ok st') :
    ∃ k v t, key = some k ∧ value = some v ∧ timestamp = some t ∧ ValidKey k ∧ ValidTs t ∧
      st'.maps = st.maps.putVersion k t (some v) := by
  obtain ⟨k, hk, h⟩ := bind_ok h
  obtain ⟨t, ht, h⟩ := bind_ok h
  obtain ⟨v, hv, h⟩ := bind_ok h
  cases h
  exact ⟨k.1, v, t.1, checkUserKey_ok hk, asBytes_ok hv, tsBytes_ok ht, k.2, t.2,
    maps_putVersion k t 1 v⟩

theorem delete_ok {key : Option Bytes} (h : st.delete key timestamp = .ok st') :
    ∃ k t, key = some k ∧ timestamp = some t ∧ ValidKey k ∧ ValidTs t ∧
      st'.maps = st.maps.putVersion k t none := by
  obtain ⟨k, hk, h⟩ := bind_ok h
  obtain ⟨t, ht, h⟩ := bind_ok h
  cases h
  exact ⟨k.1, t.1, checkUserKey_ok hk, tsBytes_ok ht, k.2, t.2, maps_putVersion k t 0 []⟩

section

variable {key : Option Bytes} {startTs : Option ℤ}

theorem writeWriteRecord_ok {commitTs : Option ℤ}
    (h : st.writeWriteRecord key startTs commitTs = .ok st') :
    ∃ k s c, key = some k ∧ startTs = some s ∧ commitTs = some c ∧ ValidKey k ∧ ValidTs s ∧
      ValidTs c ∧ st'.maps = st.maps.putRecord k c s := by
  obtain ⟨k, hk, h⟩ := bind_ok h
  obtain ⟨c, hc, h⟩ := bind_ok h
  obtain ⟨s, hs, h⟩ := bind_ok h
  cases h
  exact ⟨k.1, s.1, c.1, checkUserKey_ok hk, tsBytes_ok hs, tsBytes_ok hc, k.2, s.2, c.2,
    maps_putRecord k s c⟩

theorem putLock_ok {status : LockStatus} {primaryKey : Option Bytes} {lockTime : Time}
    (h : st.putLock key startTs status primaryKey lockTime value = .ok st') :
    ∃ k s p v, key = some k ∧ startTs = some s ∧ primaryKey = some p ∧ value = some v ∧
      ValidKey k ∧ ValidTs s ∧ st'.maps = st.maps.setLock k s (some ⟨status, p, lockTime, v⟩) := by
  obtain ⟨k, hk, h⟩ := bind_ok h
  obtain ⟨p, hp, h⟩ := bind_ok h
  obtain ⟨v, hv, h⟩ := bind_ok h
  obtain ⟨s, hs, h⟩ := bind_ok h
  cases h
  exact ⟨k.1, s.1, p, v, checkUserKey_ok hk, tsBytes_ok hs, asBytes_ok hp, asBytes_ok hv, k.2, s.2,
    maps_putLock k s _⟩

theorem removeLock_ok (h : st.removeLock key startTs = .ok st') :
    ∃ k s, key = some k ∧ startTs = some s ∧ ValidKey k ∧ ValidTs s ∧
      st'.maps = st.maps.setLock k s none := by
  obtain ⟨k, hk, h⟩ := bind_ok h
  obtain ⟨s, hs, h⟩ := bind_ok h
  cases h
  exact ⟨k.1, s.1, checkUserKey_ok hk, tsBytes_ok hs, k.2, s.2, maps_removeLock k s⟩

end

/-! ## Lookups -/

theorem mem_rowsOf {key : UserKey} {row : Bytes × Cell} :
    row ∈ st.rowsOf space key ↔ ∃ t : Stamp, row.1 = rowKey space key t ∧
      st.cellAt space key.1 t.1 = some row.2 := by
  rw [rowsOf, mem_scan, rowPrefix, keyUpperBound,
    prefix_iff_range sep_covBy]
  constructor
  · rintro ⟨hrow, hpre⟩
    obtain ⟨space', key', t, heq, -⟩ := st.formed row hrow
    have hpre' : rowPrefix space key <+: rowKey space' key' t := heq ▸ hpre
    obtain ⟨rfl, rfl⟩ := rowPrefix_isPrefix hpre'
    exact ⟨t, heq, by rw [cellAt_stamp, get_eq_some, ← heq]; exact hrow⟩
  · rintro ⟨t, heq, hcell⟩
    rw [cellAt_stamp, get_eq_some, ← heq] at hcell
    exact ⟨hcell, heq ▸ rowPrefix_isPrefix_rowKey space key t⟩

/-- The last row of a part of a key's range is the one with the greatest timestamp there. -/
theorem getLast?_scan_rows (P : ℤ → Prop) {key : UserKey}
    (hscan : ∀ row, row ∈ st.engine.scan (rowPrefix space key) hi ↔
      ∃ t : Stamp, row.1 = rowKey space key t ∧ st.cellAt space key.1 t.1 = some row.2 ∧ P t.1) :
    (st.engine.scan (rowPrefix space key) hi).getLast? = none ∧
      (∀ t, P t → st.cellAt space key.1 t = none) ∨
    ∃ (t : Stamp) (cell : Cell),
      (st.engine.scan (rowPrefix space key) hi).getLast? = some (rowKey space key t, cell) ∧
      st.cellAt space key.1 t.1 = some cell ∧ P t.1 ∧
      ∀ t', t.1 < t' → P t' → st.cellAt space key.1 t' = none := by
  rcases hlast : (st.engine.scan (rowPrefix space key) hi).getLast? with _ | row
  · refine .inl ⟨rfl, fun t hP => ?_⟩
    rcases hcell : st.cellAt space key.1 t with _ | cell
    · rfl
    have hvalid := valid_of_cellAt hcell
    have hmem := (hscan (rowKey space key ⟨t, hvalid.2⟩, cell)).2 ⟨⟨t, hvalid.2⟩, rfl, hcell, hP⟩
    rw [getLast?_eq_none_iff.1 hlast] at hmem
    exact absurd hmem not_mem_nil
  · obtain ⟨hmem, hmax⟩ := getLast?_scan hlast
    obtain ⟨t, heq, hcell, hP⟩ := (hscan row).1 hmem
    refine .inr ⟨t, row.2, by rw [← heq], hcell, hP, fun t' hlt hP' => ?_⟩
    rcases hcell' : st.cellAt space key.1 t' with _ | cell'
    · rfl
    -- a row above the last one would be a row after it
    have hvalid := valid_of_cellAt hcell'
    have hle := hmax (rowKey space key ⟨t', hvalid.2⟩, cell')
      ((hscan _).2 ⟨⟨t', hvalid.2⟩, rfl, hcell', hP'⟩)
    rw [heq, rowKey, rowKey, append_le_append, Stamp.bytes_le] at hle
    exact absurd hle (not_le.2 hlt)

/-- The last row of a key, and the row with the greatest timestamp. -/
theorem getLast?_rowsOf (st : MVCCStorage) (space : Space) (key : UserKey) :
    (st.rowsOf space key).getLast? = none ∧ (∀ t, st.cellAt space key.1 t = none) ∨
    ∃ (t : Stamp) (cell : Cell), (st.rowsOf space key).getLast? = some (rowKey space key t, cell) ∧
      st.cellAt space key.1 t.1 = some cell ∧
      ∀ t', t.1 < t' → st.cellAt space key.1 t' = none := by
  have hscan : ∀ row, row ∈ st.engine.scan (rowPrefix space key) (keyUpperBound space key) ↔
      ∃ t : Stamp, row.1 = rowKey space key t ∧ st.cellAt space key.1 t.1 = some row.2 ∧ True :=
    fun row => by simpa only [and_true, rowsOf] using mem_rowsOf
  rcases getLast?_scan_rows (fun _ => True) hscan with
    ⟨hlast, hall⟩ | ⟨t, cell, hlast, hcell, -, hmax⟩
  · exact .inl ⟨hlast, fun t => hall t trivial⟩
  · exact .inr ⟨t, cell, hlast, hcell, fun t' ht' => hmax t' ht' trivial⟩

theorem versionAt_of_cellAt (h : st.cellAt .version key t = some cell) :
    ∃ r : MVCCRecord, (∀ t', decodeVersion cell t' = some { r with timestamp := t' }) ∧
      st.versionAt key t = some (if r.deleted then none else some r.value) := by
  have hfits := fits_of_cellAt h
  cases cell with
  | packed fields => exact hfits.elim
  | raw bytes =>
    cases bytes with
    | nil => exact absurd rfl hfits
    | cons flag payload =>
      exact ⟨⟨payload, t, flag = 0⟩, fun _ => rfl, by simp [versionAt, h]⟩

theorem versionAt_eq_none : st.versionAt key t = none ↔ st.cellAt .version key t = none := by
  constructor
  · intro h
    rcases hcell : st.cellAt .version key t with _ | cell
    · rfl
    · obtain ⟨r, -, hv⟩ := versionAt_of_cellAt hcell
      rw [h] at hv
      cases hv
  · intro h
    simp [versionAt, h]

theorem recordAt_of_cellAt (h : st.cellAt .write key t = some cell) :
    ∃ raw, cell = .raw raw ∧ st.recordAt key t = some (ofBigEndian raw) := by
  have hfits := fits_of_cellAt h
  cases cell with
  | packed fields => exact hfits.elim
  | raw raw => exact ⟨raw, rfl, by simp [recordAt, h]⟩

theorem lockAt_of_cellAt (h : st.cellAt .lock key t = some cell) :
    ∃ fields, cell = .packed fields ∧ st.lockAt key t = some fields := by
  have hfits := fits_of_cellAt h
  cases cell with
  | raw raw => exact hfits.elim
  | packed fields => exact ⟨fields, rfl, by simp [lockAt, h]⟩

theorem valid_of_lockAt {fields : LockFields} (h : st.lockAt key t = some fields) :
    ValidKey key ∧ ValidTs t := by
  unfold lockAt at h
  split at h
  · exact valid_of_cellAt ‹_›
  · cases h

theorem valid_of_versionAt {w : Option Bytes} (h : st.versionAt key t = some w) :
    ValidKey key ∧ ValidTs t := by
  unfold versionAt at h
  split at h
  · exact valid_of_cellAt ‹_›
  · cases h

theorem valid_of_recordAt {c : ℤ} (h : st.recordAt key c = some s) : ValidTs c ∧ ValidTs s := by
  rcases hcell : st.cellAt .write key c with _ | cell
  · simp [recordAt, hcell] at h
  obtain ⟨raw, rfl, hrecord⟩ := recordAt_of_cellAt hcell
  obtain ⟨t, ht⟩ := fits_of_cellAt hcell
  have hs : s = t.1 := by
    rw [← t.ofBigEndian_bytes, ← ht]
    exact Option.some.inj (h.symm.trans hrecord)
  exact ⟨(valid_of_cellAt hcell).2, hs ▸ t.2⟩

/-- A decoded lock, from its fields. -/
def lockOf (key : Bytes) (startTs : ℤ) (f : LockFields) : Lock :=
  ⟨f.status, f.primaryKey, f.lockTime, f.value, key, startTs⟩

section

variable (st : MVCCStorage) (hkey : ValidKey key)
include hkey

theorem getLatestVersion_valid :
    ∃ r, st.getLatestVersion (some key) = .ok r ∧
      Newest (st.versionAt key)
        (r.map fun r => (r.timestamp, if r.deleted then none else some r.value)) := by
  rcases getLast?_rowsOf st .version ⟨key, hkey⟩ with ⟨hlast, hnone⟩ | ⟨t, cell, hlast, hcell, hmax⟩
  · refine ⟨none, ?_, .none fun t => versionAt_eq_none.2 (hnone t)⟩
    simp [getLatestVersion, checkUserKey_valid hkey, hlast, bind, Except.bind, pure, Except.pure]
  obtain ⟨r, hdecode, hv⟩ := versionAt_of_cellAt hcell
  refine ⟨some { r with timestamp := t.1 }, ?_,
    .some hv fun t' ht' => versionAt_eq_none.2 (hmax t' ht')⟩
  simp [getLatestVersion, checkUserKey_valid hkey, hlast, hdecode, bind, Except.bind, pure,
    Except.pure]

theorem getLatestWrite_valid :
    ∃ r, st.getLatestWrite (some key) = .ok r ∧
      Newest (st.recordAt key) (r.map fun r => (r.commitTs, r.startTs)) := by
  have hnone : ∀ {t}, st.cellAt .write key t = none → st.recordAt key t = none :=
    fun h => by simp [recordAt, h]
  rcases getLast?_rowsOf st .write ⟨key, hkey⟩ with ⟨hlast, hall⟩ | ⟨t, cell, hlast, hcell, hmax⟩
  · refine ⟨none, ?_, .none fun t => hnone (hall t)⟩
    simp [getLatestWrite, checkUserKey_valid hkey, hlast, bind, Except.bind, pure, Except.pure]
  obtain ⟨raw, rfl, hv⟩ := recordAt_of_cellAt hcell
  refine ⟨some ⟨ofBigEndian raw, t.1⟩, ?_, .some hv fun t' ht' => hnone (hmax t' ht')⟩
  have hdrop : (rowKey .write ⟨key, hkey⟩ t).drop (1 + key.length + 1) = t.bytes := by
    rw [rowKey]
    exact drop_left' (by simp [rowPrefix]; omega)
  simp [getLatestWrite, checkUserKey_valid hkey, hlast, hdrop, bind, Except.bind, pure,
    Except.pure]

theorem getNewestLock_valid :
    ∃ r, st.getNewestLock (some key) = .ok (r.map fun p => lockOf key p.1 p.2) ∧
      Newest (st.lockAt key) r := by
  have hnone : ∀ {t}, st.cellAt .lock key t = none → st.lockAt key t = none :=
    fun h => by simp [lockAt, h]
  rcases getLast?_rowsOf st .lock ⟨key, hkey⟩ with ⟨hlast, hall⟩ | ⟨t, cell, hlast, hcell, hmax⟩
  · refine ⟨none, ?_, .none fun t => hnone (hall t)⟩
    simp [getNewestLock, checkUserKey_valid hkey, hlast, bind, Except.bind, pure, Except.pure]
  obtain ⟨fields, rfl, hv⟩ := lockAt_of_cellAt hcell
  refine ⟨some (t.1, fields), ?_, .some hv fun t' ht' => hnone (hmax t' ht')⟩
  simp [getNewestLock, checkUserKey_valid hkey, hlast, decodeLock, lockOf, bind, Except.bind,
    pure, Except.pure]

end

theorem getLock_valid (hkey : ValidKey key) (hs : ValidTs s) :
    st.getLock (some key) (some s) = .ok ((st.lockAt key s).map (lockOf key s)) := by
  have hcell := cellAt_stamp st .lock ⟨key, hkey⟩ ⟨s, hs⟩
  rcases hget : st.cellAt .lock key s with _ | cell
  · rw [hget] at hcell
    simp [getLock, checkUserKey_valid hkey, tsBytes_valid hs, ← hcell, lockAt, hget, bind,
      Except.bind, pure, Except.pure]
  · rw [hget] at hcell
    obtain ⟨fields, rfl, hv⟩ := lockAt_of_cellAt hget
    simp [getLock, checkUserKey_valid hkey, tsBytes_valid hs, ← hcell, hv, decodeLock, lockOf,
      bind, Except.bind, pure, Except.pure]

theorem mem_scan_below (st : MVCCStorage) (space : Space) (key : UserKey) (t : Stamp)
    (row : Bytes × Cell) :
    row ∈ st.engine.scan (rowPrefix space key) (rowPrefix space key ++ t.bytes) ↔
      ∃ t' : Stamp, row.1 = rowKey space key t' ∧ st.cellAt space key.1 t'.1 = some row.2 ∧
        t'.1 < t.1 := by
  constructor
  · intro h
    obtain ⟨hrow, hlo, hhi⟩ := mem_scan.1 h
    -- the end of the range is still inside the key's own
    have hstop : rowPrefix space key ++ t.bytes < keyUpperBound space key := by
      rw [rowPrefix, keyUpperBound, append_assoc, append_lt_append,
        singleton_append, cons_lt_cons]
      exact .inl sep_covBy.1
    obtain ⟨t', heq, hcell⟩ := mem_rowsOf.1 (mem_scan.2 ⟨hrow, hlo, hhi.trans hstop⟩)
    refine ⟨t', heq, hcell, ?_⟩
    rwa [heq, rowKey, append_lt_append, Stamp.bytes_lt] at hhi
  · rintro ⟨t', heq, hcell, hlt⟩
    obtain ⟨hrow, hlo, -⟩ := mem_scan.1 (mem_rowsOf.2 ⟨t', heq, hcell⟩)
    refine mem_scan.2 ⟨hrow, hlo, ?_⟩
    rwa [heq, rowKey, append_lt_append, Stamp.bytes_lt]

/-- The versions a snapshot shows. -/
def visibleAt (st : MVCCStorage) (key : Bytes) (timestamp t : ℤ) : Option (Option Bytes) :=
  if t ≤ timestamp then st.versionAt key t else none

variable {timestamp : ℤ}

/-- What a scan that covers the visible versions decodes to. -/
theorem newest_visible {key : UserKey}
    (hscan : ∀ row, row ∈ st.engine.scan (rowPrefix .version key) hi ↔
      ∃ t : Stamp, row.1 = rowKey .version key t ∧ st.cellAt .version key.1 t.1 = some row.2 ∧
        t.1 ≤ timestamp) :
    ∃ r : Option MVCCRecord,
      (match (st.engine.scan (rowPrefix .version key) hi).getLast? with
        | none => pure none
        | some (lastKey, lastValue) => pure (decodeVersion lastValue
            (ofBigEndian (lastKey.drop (rowPrefix .version key).length)))) =
          (.ok r : Except String (Option MVCCRecord)) ∧
      Newest (st.visibleAt key.1 timestamp)
        (r.map fun r => (r.timestamp, if r.deleted then none else some r.value)) := by
  rcases getLast?_scan_rows (· ≤ timestamp) hscan with
    ⟨hlast, hall⟩ | ⟨t, cell, hlast, hcell, hle, hmax⟩
  · refine ⟨none, by rw [hlast]; rfl, .none fun t => ?_⟩
    rw [visibleAt]
    split
    · rename_i hle
      exact versionAt_eq_none.2 (hall t hle)
    · rfl
  · obtain ⟨r, hdecode, hv⟩ := versionAt_of_cellAt hcell
    refine ⟨some { r with timestamp := t.1 }, ?_, .some ?_ fun t' hlt => ?_⟩
    · rw [hlast]
      simp only [rowKey, drop_left, Stamp.ofBigEndian_bytes, hdecode]
      rfl
    · rw [visibleAt, if_pos hle, hv]
    · rw [visibleAt]
      split
      · rename_i hle'
        exact versionAt_eq_none.2 (hmax t' hlt hle')
      · rfl

theorem getVersionAt_valid (st : MVCCStorage) (hkey : ValidKey key) (ht : -1 ≤ timestamp) :
    ∃ r, st.getVersionAt (some key) timestamp = .ok r ∧
      Newest (st.visibleAt key timestamp)
        (r.map fun r => (r.timestamp, if r.deleted then none else some r.value)) := by
  by_cases hmax : timestamp < maxTs
  · have hnext : ValidTs (timestamp + 1) := ⟨by omega, by omega⟩
    have hscan := mem_scan_below st .version ⟨key, hkey⟩ ⟨timestamp + 1, hnext⟩
    simp only [Int.lt_add_one_iff] at hscan
    obtain ⟨r, hr, hnew⟩ := newest_visible hscan
    refine ⟨r, ?_, hnew⟩
    rw [getVersionAt, checkUserKey_valid hkey]
    simp only [bind, Except.bind, if_pos hmax, tsBytes_valid hnext, pure, Except.pure] at hr ⊢
    exact hr
  · have hscan : ∀ row, row ∈ st.engine.scan (rowPrefix .version ⟨key, hkey⟩)
        (keyUpperBound .version ⟨key, hkey⟩) ↔ ∃ t : Stamp,
          row.1 = rowKey .version ⟨key, hkey⟩ t ∧ st.cellAt .version key t.1 = some row.2 ∧
          t.1 ≤ timestamp := by
      intro row
      rw [← rowsOf, mem_rowsOf]
      refine exists_congr fun t => and_congr_right fun _ => ?_
      have h := t.2.2
      exact ⟨fun hcell => ⟨hcell, by omega⟩, fun hcell => hcell.1⟩
    obtain ⟨r, hr, hnew⟩ := newest_visible hscan
    refine ⟨r, ?_, hnew⟩
    rw [getVersionAt, checkUserKey_valid hkey]
    simp only [bind, Except.bind, if_neg hmax, pure, Except.pure] at hr ⊢
    exact hr

end MVCCStorage
end OxideDB.Storage
