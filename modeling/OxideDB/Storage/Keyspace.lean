import OxideDB.Storage.Scan

/-!
# The keyspace is three maps

Rows of three namespaces on one byte-ordered engine, and the three maps they stand for:
versions, write records and locks.  `Maps` is the abstract keyspace, `Write` the calls that
change it, and `Answers` what the calls that read it have to say.
-/

namespace OxideDB.Storage

open Raft (Bytes)

variable {key : Bytes} {timestamp : ℤ}

namespace Maps

/-- No version, no write record, no lock. -/
def empty : Maps := ⟨fun _ _ => none, fun _ _ => none, fun _ _ => none⟩

end Maps

/-- The calls that change the keyspace, with a key that has no separator byte and a timestamp of
64 bits. -/
inductive Write where
  | set (key : UserKey) (value : Bytes) (timestamp : Stamp)
  | delete (key : UserKey) (timestamp : Stamp)
  | putLock (key : UserKey) (startTs : Stamp) (fields : LockFields)
  | removeLock (key : UserKey) (startTs : Stamp)
  | writeWriteRecord (key : UserKey) (startTs commitTs : Stamp)

namespace Write

/-- The call. -/
def run (st : MVCCStorage) : Write → Except String MVCCStorage
  | .set key value timestamp => st.set (some key.1) (some value) (some timestamp.1)
  | .delete key timestamp => st.delete (some key.1) (some timestamp.1)
  | .putLock key startTs f =>
    st.putLock (some key.1) (some startTs.1) f.status (some f.primaryKey) f.lockTime (some f.value)
  | .removeLock key startTs => st.removeLock (some key.1) (some startTs.1)
  | .writeWriteRecord key startTs commitTs =>
    st.writeWriteRecord (some key.1) (some startTs.1) (some commitTs.1)

/-- What it is to do to the maps. -/
def act (M : Maps) : Write → Maps
  | .set key value timestamp => M.putVersion key.1 timestamp.1 (some value)
  | .delete key timestamp => M.putVersion key.1 timestamp.1 none
  | .putLock key startTs f => M.setLock key.1 startTs.1 (some f)
  | .removeLock key startTs => M.setLock key.1 startTs.1 none
  | .writeWriteRecord key startTs commitTs => M.putRecord key.1 commitTs.1 startTs.1

end Write

namespace MVCCStorage

variable {st st' : MVCCStorage}

/-- A call succeeds, and does what it is to do. -/
theorem run_write (st : MVCCStorage) (w : Write) :
    ∃ st', w.run st = .ok st' ∧ st'.maps = w.act st.maps := by
  cases w with
  | set key value t =>
    refine ⟨_, ?_, maps_putVersion key t 1 value⟩
    simp only [Write.run, set, checkUserKey_valid key.2, tsBytes_valid t.2, asBytes]
    rfl
  | delete key t =>
    refine ⟨_, ?_, maps_putVersion key t 0 []⟩
    simp only [Write.run, delete, checkUserKey_valid key.2, tsBytes_valid t.2]
    rfl
  | putLock key s f =>
    refine ⟨_, ?_, maps_putLock key s f⟩
    simp only [Write.run, putLock, checkUserKey_valid key.2, tsBytes_valid s.2, asBytes]
    rfl
  | removeLock key s =>
    refine ⟨_, ?_, maps_removeLock key s⟩
    simp only [Write.run, removeLock, checkUserKey_valid key.2, tsBytes_valid s.2]
    rfl
  | writeWriteRecord key s c =>
    refine ⟨_, ?_, maps_putRecord key s c⟩
    simp only [Write.run, writeWriteRecord, checkUserKey_valid key.2, tsBytes_valid s.2,
      tsBytes_valid c.2]
    rfl

theorem maps_empty : empty.maps = Maps.empty := by
  refine Maps.ext ?_ ?_ ?_
  · funext k t
    exact versionAt_empty k t
  · funext k t
    exact recordAt_empty k t
  · funext k t
    exact lockAt_empty k t

theorem run_writes (st : MVCCStorage) (ws : List Write) :
    ∃ st', ws.foldlM Write.run st = .ok st' ∧ st'.maps = ws.foldl Write.act st.maps := by
  induction ws generalizing st with
  | nil => exact ⟨st, rfl, rfl⟩
  | cons w ws ih =>
    obtain ⟨st₁, hrun, hmaps⟩ := run_write st w
    obtain ⟨st₂, hrest, hmaps₂⟩ := ih st₁
    refine ⟨st₂, ?_, ?_⟩
    · rw [List.foldlM_cons, hrun]
      exact hrest
    · rw [hmaps₂, hmaps, List.foldl_cons]

/-! ## Reads -/

/-- A list all of whose elements a function that may raise answers for. -/
theorem mapM_ok {α β : Type} {l : List α} {f : α → Except String β} {g : α → β}
    (h : ∀ a ∈ l, f a = .ok (g a)) : l.mapM f = .ok (l.map g) := by
  induction l with
  | nil => rfl
  | cons a l ih =>
    rw [List.mapM_cons, h a List.mem_cons_self, ih fun b hb => h b (List.mem_cons_of_mem a hb)]
    rfl

/-- The version a snapshot shows, as a record. -/
def shown (newest : Option (ℤ × Option Bytes)) : Option MVCCRecord :=
  newest.bind fun (t, w) => w.map fun v => ⟨v, t, false⟩

theorem getVersion_valid (st : MVCCStorage) (hkey : ValidKey key) (ht : -1 ≤ timestamp) :
    ∃ newest, Newest (st.maps.visible key timestamp) newest ∧
      st.getVersion (some key) timestamp = .ok (shown newest) := by
  obtain ⟨r, hr, hnew⟩ := getVersionAt_valid st hkey ht
  refine ⟨_, hnew, ?_⟩
  simp only [getVersion, hr, bind, Except.bind, pure, Except.pure]
  cases r with
  | none => rfl
  | some r =>
    obtain ⟨value, t, deleted⟩ := r
    cases deleted <;> rfl

theorem checkUserKey_invalid (h : ¬ ValidKey key) :
    checkUserKey (some key) = .error "keys must not contain the 0x00 separator byte" :=
  dif_pos (not_not.1 h)

/-- A read that raises does so for its key or its timestamp, not for what is stored. -/
theorem getVersion_invalid (h : ¬ (ValidKey key ∧ -1 ≤ timestamp)) :
    ∃ e, ∀ st : MVCCStorage, st.getVersion (some key) timestamp = .error e := by
  by_cases hkey : ValidKey key
  · have ht : ¬ -1 ≤ timestamp := fun ht => h ⟨hkey, ht⟩
    have hinvalid : ¬ ValidTs (timestamp + 1) := fun hvalid => ht (by have := hvalid.1; omega)
    obtain ⟨e, hbytes⟩ : ∃ e, tsBytes (some (timestamp + 1)) = .error e := ⟨_, dif_neg hinvalid⟩
    refine ⟨e, fun st => ?_⟩
    simp only [getVersion, getVersionAt, checkUserKey_valid hkey, hbytes,
      if_pos (show timestamp < maxTs by unfold maxTs; omega)]
    rfl
  · refine ⟨"keys must not contain the 0x00 separator byte", fun st => ?_⟩
    rw [getVersion, getVersionAt, checkUserKey_invalid hkey]
    rfl

theorem getVersion_ok {r : Option MVCCRecord} (h : st.getVersion (some key) timestamp = .ok r) :
    ∃ newest, Newest (st.maps.visible key timestamp) newest ∧ r = shown newest := by
  by_cases hvalid : ValidKey key ∧ -1 ≤ timestamp
  · obtain ⟨newest, hnew, heq⟩ := getVersion_valid st hvalid.1 hvalid.2
    exact ⟨newest, hnew, Except.ok.inj (h.symm.trans heq)⟩
  · obtain ⟨e, he⟩ := getVersion_invalid hvalid
    rw [he st] at h
    cases h

theorem mem_scan_locks {row : Bytes × Cell} :
    row ∈ st.engine.scan [Space.lock.byte] [5] ↔ ∃ (key : UserKey) (t : Stamp),
      row.1 = rowKey .lock key t ∧ st.cellAt .lock key.1 t.1 = some row.2 := by
  rw [SortedTable.mem_scan]
  constructor
  · rintro ⟨hrow, hlo, hhi⟩
    obtain ⟨space, key, t, heq, -⟩ := st.formed row hrow
    have hspace : space = .lock := by
      rw [heq, rowKey, rowPrefix, List.cons_append, List.cons_append] at hlo hhi
      cases space with
      | lock => rfl
      | _ =>
        rcases ByteOrder.cons_le_cons.1 hlo with hlt | ⟨hbyte, -⟩
        · exact absurd hlt (by decide)
        · exact absurd hbyte (by decide)
    subst hspace
    refine ⟨key, t, heq, ?_⟩
    rw [cellAt_stamp, SortedTable.get_eq_some, ← heq]
    exact hrow
  · rintro ⟨key, t, heq, hcell⟩
    rw [cellAt_stamp, SortedTable.get_eq_some, ← heq] at hcell
    refine ⟨hcell, ?_⟩
    rw [heq, rowKey, rowPrefix, List.cons_append, List.cons_append, ByteOrder.cons_le_cons,
      ByteOrder.cons_lt_cons]
    exact ⟨.inr ⟨rfl, not_lt.1 (ByteOrder.not_lt_nil _)⟩, .inl (by decide)⟩

/-- A row of a lock, decoded. -/
def describeLock (row : Bytes × Cell) : Bytes × Lock :=
  match splitVersionKey row.1, row.2 with
  | .ok (key, startTs), .packed f => (key, lockOf key startTs f)
  | _, _ => ([], lockOf [] 0 ⟨.locked, [], 0, []⟩)

theorem describeLock_rowKey {key : UserKey} {s : Stamp} {cell : Cell}
    (h : st.cellAt .lock key.1 s.1 = some cell) : ∃ f, cell = .packed f ∧
      st.lockAt key.1 s.1 = some f ∧
      describeLock (rowKey .lock key s, cell) = (key.1, lockOf key.1 s.1 f) := by
  obtain ⟨f, rfl, hlock⟩ := lockAt_of_cellAt h
  refine ⟨f, rfl, hlock, ?_⟩
  rw [describeLock, splitVersionKey_rowKey]

/-- **Every lock**, ordered by key and then by `start_ts`. -/
theorem iterLocks_valid (st : MVCCStorage) : ∃ locks, st.iterLocks = .ok locks ∧
    (locks.Pairwise fun e e' => e.1 < e'.1 ∨ e.1 = e'.1 ∧ e.2.startTs < e'.2.startTs) ∧
    ∀ k lock, (k, lock) ∈ locks ↔ ∃ s f, st.maps.lock k s = some f ∧ lock = lockOf k s f := by
  refine ⟨(st.engine.scan [Space.lock.byte] [5]).map describeLock, mapM_ok fun row hrow => ?_,
    List.pairwise_map.2 ((st.engine.sorted.filter _).imp_of_mem fun {row row'} hr hr' hlt => ?_),
    fun k lock => ?_⟩
  · obtain ⟨key, s, heq, hcell⟩ := mem_scan_locks.1 hrow
    obtain ⟨f, hf, -, hdesc⟩ := describeLock_rowKey hcell
    rw [← heq, Prod.mk.eta] at hdesc
    rw [hdesc, heq, splitVersionKey_rowKey, hf]
    rfl
  · obtain ⟨key, s, heq, hcell⟩ := mem_scan_locks.1 hr
    obtain ⟨key', s', heq', hcell'⟩ := mem_scan_locks.1 hr'
    obtain ⟨f, -, -, hdesc⟩ := describeLock_rowKey hcell
    obtain ⟨f', -, -, hdesc'⟩ := describeLock_rowKey hcell'
    rw [← heq, Prod.mk.eta] at hdesc
    rw [← heq', Prod.mk.eta] at hdesc'
    rw [heq, heq', rowKey_lt] at hlt
    rw [hdesc, hdesc']
    exact hlt
  · rw [List.mem_map]
    constructor
    · rintro ⟨row, hrow, hdesc⟩
      obtain ⟨key, s, heq, hcell⟩ := mem_scan_locks.1 hrow
      obtain ⟨f, -, hlock, hdesc'⟩ := describeLock_rowKey hcell
      rw [← heq, Prod.mk.eta, hdesc] at hdesc'
      cases hdesc'
      exact ⟨s.1, f, hlock, rfl⟩
    · rintro ⟨s, f, hlock, rfl⟩
      obtain ⟨hk, hs⟩ := valid_of_lockAt hlock
      rcases hcell : st.cellAt .lock k s with _ | cell
      · simp [lockAt, hcell] at hlock
      have hcell' : st.cellAt .lock (⟨k, hk⟩ : UserKey).1 (⟨s, hs⟩ : Stamp).1 = some cell := hcell
      obtain ⟨f', -, hlock', hdesc⟩ := describeLock_rowKey hcell'
      cases hlock.symm.trans hlock'
      exact ⟨_, mem_scan_locks.2 ⟨⟨k, hk⟩, ⟨s, hs⟩, rfl, hcell⟩, hdesc⟩

/-- What the reads answer, from the maps alone. -/
structure Answers (st : MVCCStorage) (M : Maps) : Prop where
  /-- A read at `t` takes the newest version at or below `t`. -/
  getVersion {key : Bytes} {t : ℤ} (hkey : ValidKey key) (ht : ValidTs t) :
    ∃ newest, Newest (M.visible key t) newest ∧ st.getVersion (some key) t = .ok (shown newest)
  /-- A scan has the live keys of the range, in key order. -/
  scanVersions {lo hi : Bytes} {t : ℤ} (hlo : ValidKey lo) (hhi : ValidKey hi) (ht : ValidTs t) :
    ∃ rows, st.scanVersions lo hi t = .ok rows ∧ (rows.Pairwise fun e e' => e.1 < e'.1) ∧
      ∀ k v c, (k, v, c) ∈ rows ↔ lo ≤ k ∧ k < hi ∧ Newest (M.visible k t) (some (c, some v))
  getLatestVersion {key : Bytes} (hkey : ValidKey key) :
    ∃ r, st.getLatestVersion (some key) = .ok r ∧ Newest (M.version key)
      (r.map fun r => (r.timestamp, if r.deleted then none else some r.value))
  getLatestWrite {key : Bytes} (hkey : ValidKey key) :
    ∃ r, st.getLatestWrite (some key) = .ok r ∧
      Newest (M.record key) (r.map fun r => (r.commitTs, r.startTs))
  getLock {key : Bytes} {s : ℤ} (hkey : ValidKey key) (hs : ValidTs s) :
    st.getLock (some key) (some s) = .ok ((M.lock key s).map (lockOf key s))
  getNewestLock {key : Bytes} (hkey : ValidKey key) :
    ∃ r, st.getNewestLock (some key) = .ok (r.map fun p => lockOf key p.1 p.2) ∧
      Newest (M.lock key) r
  iterLocks : ∃ locks, st.iterLocks = .ok locks ∧
    (locks.Pairwise fun e e' => e.1 < e'.1 ∨ e.1 = e'.1 ∧ e.2.startTs < e'.2.startTs) ∧
    ∀ k lock, (k, lock) ∈ locks ↔ ∃ s f, M.lock k s = some f ∧ lock = lockOf k s f

theorem answers_maps (st : MVCCStorage) : Answers st st.maps where
  getVersion hkey ht := getVersion_valid st hkey (by have := ht.1; omega)
  scanVersions hlo hhi _ := scanVersions_valid st hlo hhi _
  getLatestVersion hkey := getLatestVersion_valid st hkey
  getLatestWrite hkey := getLatestWrite_valid st hkey
  getLock hkey hs := getLock_valid hkey hs
  getNewestLock hkey := getNewestLock_valid st hkey
  iterLocks := iterLocks_valid st

/-- **The keyspace refines three maps**: any writes, on an empty engine, succeed, and every read
then answers as the maps do to which the writes were made. -/
theorem keyspace_refines_maps (ws : List Write) : ∃ st, ws.foldlM Write.run empty = .ok st ∧
    Answers st (ws.foldl Write.act .empty) := by
  obtain ⟨st, hrun, hmaps⟩ := run_writes empty ws
  refine ⟨st, hrun, ?_⟩
  rw [maps_empty] at hmaps
  exact hmaps ▸ answers_maps st

end MVCCStorage

namespace MVCCStateMachine

/-- A `SET` whose key and timestamps the storage accepts is done. -/
theorem apply_set (now : Time) (m : MVCCStateMachine) (key : UserKey) (value : Bytes) (t : Stamp)
    (startTs : Option Stamp) : ∃ m', m.apply now
      { type := .set, key := some key.1, value := some value, timestamp := some t.1,
        startTs := startTs.map Subtype.val } = (m', .ok) ∧
      m'.maps = startTs.elim (m.maps.putVersion key.1 t.1 (some value))
        (fun s => (m.maps.putVersion key.1 t.1 (some value)).putRecord key.1 t.1 s.1) ∧
      m'.lastAppliedTimestamp = max m.lastAppliedTimestamp t.1 := by
  obtain ⟨st, hset, hmaps⟩ := MVCCStorage.run_write m.storage (.set key value t)
  cases startTs with
  | none =>
    refine ⟨⟨st, max m.lastAppliedTimestamp t.1⟩, ?_, hmaps, rfl⟩
    simp only [apply_eq, dispatch, applySet, bind_run, change_run, Option.getD_some, Option.map_none]
    simp only [Write.run] at hset
    rw [hset]
    rfl
  | some s =>
    obtain ⟨st', hrec, hmaps'⟩ := MVCCStorage.run_write st (.writeWriteRecord key s t)
    refine ⟨⟨st', max m.lastAppliedTimestamp t.1⟩, ?_, ?_, rfl⟩
    · simp only [Write.run] at hset hrec
      simp only [apply_eq, dispatch, applySet, bind_run, change_run, Option.getD_some,
        Option.map_some, hset, ne_eq, reduceCtorEq, not_false_eq_true, if_true, hrec]
      rfl
    · exact hmaps'.trans (congrArg (fun M : Maps => M.putRecord key.1 t.1 s.1) hmaps)

end MVCCStateMachine
end OxideDB.Storage
