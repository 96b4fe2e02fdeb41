import OxideDB.Storage.Locking

/-!
# Replicas and their clocks

`PREWRITE` reads the wall clock, and the reading goes into the lock it takes.  Nothing else looks at
it: with the readings taken out of the locks (`unclock`), every command and every read does the
same.  Two replicas that apply one log under different clocks are therefore the same machine, but
for the readings in their locks.
-/

namespace OxideDB.Storage

open List SortedTable

open Raft (Bytes ApplyResult)

/-! ## The keyspace without clock readings -/

/-- The fields of a lock, without the clock reading. -/
def LockFields.unclock (f : LockFields) : LockFields := { f with lockTime := 0 }

def Cell.unclock : Cell → Cell
  | .raw bytes => .raw bytes
  | .packed f => .packed f.unclock

def Lock.unclock (lock : Lock) : Lock := { lock with lockTime := 0 }

theorem Cell.Fits.unclock {space : Space} {cell : Cell} (h : cell.Fits space) :
    cell.unclock.Fits space := by
  cases cell with
  | raw bytes => exact h
  | packed f => cases space <;> exact h

namespace MVCCStorage

/-- The keyspace with the clock readings taken out of its locks. -/
def unclock (st : MVCCStorage) : MVCCStorage where
  engine := st.engine.mapValues Cell.unclock
  formed row h := by
    obtain ⟨row, hrow, rfl⟩ := List.mem_map.1 h
    obtain ⟨space, key, t, heq, hfits⟩ := st.formed row hrow
    exact ⟨space, key, t, heq, hfits.unclock⟩

variable (st : MVCCStorage) (space : Space)

theorem rowsOf_unclock (key : UserKey) :
    st.unclock.rowsOf space key = (st.rowsOf space key).map fun r => (r.1, r.2.unclock) :=
  scan_mapValues ..

theorem put_unclock (key : UserKey) (t : Stamp) (cell : Cell) (fits : cell.Fits space)
    (fits' : cell.unclock.Fits space) :
    st.unclock.put space key t cell.unclock fits' = (st.put space key t cell fits).unclock :=
  ext_engine (put_mapValues ..)

theorem remove_unclock (key : UserKey) (t : Stamp) :
    st.unclock.remove space key t = (st.remove space key t).unclock :=
  ext_engine (erase_mapValues ..)

/-! ### Reads -/

theorem decodeVersion_unclock (cell : Cell) (t : ℤ) :
    decodeVersion cell.unclock t = decodeVersion cell t := by
  cases cell with
  | raw bytes => rfl
  | packed f => rfl

theorem decodeLock_unclock (cell : Cell) (key : Bytes) (t : ℤ) :
    decodeLock cell.unclock key t = (decodeLock cell key t).map Lock.unclock := by
  cases cell <;> rfl

variable (key : Option Bytes)

theorem getVersionAt_unclock (timestamp : ℤ) :
    st.unclock.getVersionAt key timestamp = st.getVersionAt key timestamp := by
  have hscan : ∀ lo hi, (st.unclock.engine.scan lo hi).getLast? =
      (st.engine.scan lo hi).getLast?.map fun r => (r.1, r.2.unclock) := fun lo hi => by
    rw [← getLast?_map]
    exact congrArg _ (scan_mapValues ..)
  simp only [getVersionAt, hscan]
  refine bind_congr fun key => ?_
  split
  · refine bind_congr fun t => ?_
    simp only [pure_bind]
    rcases (st.engine.scan _ _).getLast? with _ | ⟨lastKey, lastValue⟩
    · rfl
    · simp only [Option.map_some, decodeVersion_unclock]
  · simp only [pure_bind]
    rcases (st.engine.scan _ _).getLast? with _ | ⟨lastKey, lastValue⟩
    · rfl
    · simp only [Option.map_some, decodeVersion_unclock]

theorem getVersion_unclock (timestamp : ℤ) :
    st.unclock.getVersion key timestamp = st.getVersion key timestamp := by
  rw [getVersion, getVersion, getVersionAt_unclock]

theorem getLast?_rowsOf_unclock (key : UserKey) :
    (st.unclock.rowsOf space key).getLast? =
      (st.rowsOf space key).getLast?.map fun r => (r.1, r.2.unclock) := by
  rw [rowsOf_unclock, getLast?_map]

theorem getLatestVersion_unclock : st.unclock.getLatestVersion key = st.getLatestVersion key := by
  simp only [getLatestVersion, getLast?_rowsOf_unclock]
  refine bind_congr fun key => ?_
  rcases (st.rowsOf .version key).getLast? with _ | ⟨rowKey, raw⟩
  · rfl
  · simp only [Option.map_some, decodeVersion_unclock]

theorem getLatestWrite_unclock : st.unclock.getLatestWrite key = st.getLatestWrite key := by
  simp only [getLatestWrite, getLast?_rowsOf_unclock]
  refine bind_congr fun key => ?_
  rcases (st.rowsOf .write key).getLast? with _ | ⟨rowKey, raw | f⟩ <;> rfl

variable (startTs : Option ℤ)

theorem getLock_unclock :
    st.unclock.getLock key startTs = (st.getLock key startTs).map (Option.map Lock.unclock) := by
  have hget : ∀ k, st.unclock.engine.get k = (st.engine.get k).map Cell.unclock :=
    fun k => get_mapValues ..
  rw [getLock, getLock]
  rcases checkUserKey key with e | key
  · rfl
  rcases tsBytes startTs with e | s
  · rfl
  simp only [bind, Except.bind, hget]
  rcases st.engine.get (rowKey .lock key s) with _ | cell
  · rfl
  simp only [Option.map_some, decodeLock_unclock]
  rcases decodeLock cell key.1 s.1 with e | lock <;> rfl

theorem getNewestLock_unclock :
    st.unclock.getNewestLock key = (st.getNewestLock key).map (Option.map Lock.unclock) := by
  rw [getNewestLock, getNewestLock]
  rcases checkUserKey key with e | key
  · rfl
  simp only [bind, Except.bind, getLast?_rowsOf_unclock]
  rcases (st.rowsOf .lock key).getLast? with _ | ⟨rowKey, raw⟩
  · rfl
  simp only [Option.map_some, decodeLock_unclock]
  rcases splitVersionKey rowKey with e | ⟨_, startTs⟩
  · rfl
  dsimp only
  rcases decodeLock raw key.1 startTs with e | lock <;> rfl

theorem visit_unclock (timestamp : ℤ) (s : ScanState) (row : Bytes × Cell) :
    ScanState.visit timestamp s (row.1, row.2.unclock) = ScanState.visit timestamp s row := by
  simp only [ScanState.visit, decodeVersion_unclock]

theorem engine_scan_unclock (lo hi : Bytes) : st.unclock.engine.scan lo hi =
    (st.engine.scan lo hi).map fun r => (r.1, r.2.unclock) :=
  scan_mapValues ..

theorem scanVersions_unclock (startKey endKey : Bytes) (timestamp : ℤ) :
    st.unclock.scanVersions startKey endKey timestamp =
      st.scanVersions startKey endKey timestamp := by
  simp only [scanVersions, engine_scan_unclock, foldlM_map, visit_unclock]

theorem iterLocks_unclock : st.unclock.iterLocks =
    st.iterLocks.map fun locks => locks.map fun e => (e.1, e.2.unclock) := by
  rw [iterLocks, iterLocks, engine_scan_unclock]
  induction st.engine.scan [Space.lock.byte] [5] with
  | nil => rfl
  | cons row rows ih =>
    rw [map_cons, mapM_cons, mapM_cons, ih]
    simp only [bind, Except.bind, decodeLock_unclock]
    rcases splitVersionKey row.1 with e | ⟨key, startTs⟩
    · rfl
    dsimp only
    rcases decodeLock row.2 key startTs with e | lock
    · rfl
    generalize mapM (m := Except String) _ rows = rest
    rcases rest with e | rest <;> rfl

/-! ### Updates -/

theorem set_unclock (key value : Option Bytes) (timestamp : Option ℤ) :
    st.unclock.set key value timestamp = (st.set key value timestamp).map unclock := by
  rw [set, set]
  rcases checkUserKey key with e | key
  · rfl
  rcases tsBytes timestamp with e | t
  · rfl
  rcases asBytes value with e | value
  · rfl
  exact congrArg Except.ok
    (st.put_unclock .version key t (.raw (1 :: value)) (Cell.fits_version _ _) _)

theorem delete_unclock (timestamp : Option ℤ) :
    st.unclock.delete key timestamp = (st.delete key timestamp).map unclock := by
  rw [delete, delete]
  rcases checkUserKey key with e | key
  · rfl
  rcases tsBytes timestamp with e | t
  · rfl
  exact congrArg Except.ok (st.put_unclock .version key t (.raw [0]) (Cell.fits_version _ _) _)

theorem writeWriteRecord_unclock (startTs commitTs : Option ℤ) :
    st.unclock.writeWriteRecord key startTs commitTs =
      (st.writeWriteRecord key startTs commitTs).map unclock := by
  rw [writeWriteRecord, writeWriteRecord]
  rcases checkUserKey key with e | key
  · rfl
  rcases tsBytes commitTs with e | c
  · rfl
  rcases tsBytes startTs with e | s
  · rfl
  exact congrArg Except.ok (st.put_unclock .write key c (.raw s.bytes) (Cell.fits_write s) _)

theorem putLock_unclock (status : LockStatus) (primaryKey : Option Bytes) (now : Time)
    (value : Option Bytes) :
    st.unclock.putLock key startTs status primaryKey 0 value =
      (st.putLock key startTs status primaryKey now value).map unclock := by
  rw [putLock, putLock]
  rcases checkUserKey key with e | key
  · rfl
  rcases asBytes primaryKey with e | primaryKey
  · rfl
  rcases asBytes value with e | value
  · rfl
  rcases tsBytes startTs with e | s
  · rfl
  exact congrArg Except.ok (st.put_unclock .lock key s (.packed ⟨status, primaryKey, now, value⟩)
    (Cell.fits_lock _) (Cell.fits_lock _))

theorem removeLock_unclock :
    st.unclock.removeLock key startTs = (st.removeLock key startTs).map unclock := by
  rw [removeLock, removeLock]
  rcases checkUserKey key with e | key
  · rfl
  rcases tsBytes startTs with e | s
  · rfl
  exact congrArg Except.ok (st.remove_unclock ..)

/-! ### The maps -/

theorem cellAt_unclock (key : Bytes) (t : ℤ) :
    st.unclock.cellAt space key t = (st.cellAt space key t).map Cell.unclock := by
  unfold cellAt
  split
  · exact get_mapValues ..
  · rfl

theorem maps_unclock : st.unclock.maps =
    { st.maps with lock := fun k s => (st.maps.lock k s).map LockFields.unclock } := by
  refine Maps.ext ?_ ?_ ?_ <;> funext key t
  · show st.unclock.versionAt key t = st.versionAt key t
    rw [versionAt, versionAt, cellAt_unclock]
    rcases st.cellAt .version key t with _ | ⟨_ | ⟨flag, payload⟩⟩ | f <;> rfl
  · show st.unclock.recordAt key t = st.recordAt key t
    rw [recordAt, recordAt, cellAt_unclock]
    rcases st.cellAt .write key t with _ | bytes | f <;> rfl
  · show st.unclock.lockAt key t = (st.lockAt key t).map LockFields.unclock
    rw [lockAt, lockAt, cellAt_unclock]
    rcases st.cellAt .lock key t with _ | bytes | f <;> rfl

end MVCCStorage

namespace MVCCStateMachine

open Method

/-! ## Commands -/

/-- The machine with the clock readings taken out of its locks. -/
def unclock (m : MVCCStateMachine) : MVCCStateMachine := { m with storage := m.storage.unclock }

variable {α β γ δ : Type}

/-- On a machine without readings `x'` does what `x` does on the machine, and answers `g` of what it
answers. -/
def Shadows (g : α → β) (x : Method α) (x' : Method β) : Prop :=
  ∀ m, x' m.unclock = ((x m).1.map g, (x m).2.unclock)

theorem Shadows.answer (r : ApplyResult) :
    Shadows id (pure r : Method ApplyResult) (pure r : Method ApplyResult) :=
  fun _ => rfl

variable {g : α → β} {h : γ → δ}

theorem Shadows.bind {x : Method α} {x' : Method β} {f : α → Method γ} {f' : β → Method δ}
    (hx : Shadows g x x') (hf : ∀ a, Shadows h (f a) (f' (g a))) :
    Shadows h (x >>= f) (x' >>= f') := by
  intro m
  rw [bind_run, bind_run, hx m]
  rcases x m with ⟨e | a, m'⟩
  · rfl
  · exact hf a m'

theorem Shadows.ask {q : MVCCStorage → Except String α} {q' : MVCCStorage → Except String β}
    (h : ∀ st : MVCCStorage, q' st.unclock = (q st).map g) : Shadows g (ask q) (ask q') :=
  fun m => by rw [ask_run, ask_run]; exact Prod.ext (h m.storage) rfl

theorem Shadows.change {c c' : MVCCStorage → Except String MVCCStorage}
    (h : ∀ st : MVCCStorage, c' st.unclock = (c st).map MVCCStorage.unclock) :
    Shadows id (change c) (change c') := by
  intro m
  rw [change_run, change_run, show c' m.unclock.storage = _ from h m.storage]
  rcases c m.storage with e | st <;> rfl

theorem Shadows.raiseLastApplied (t : ℤ) : Shadows id (raiseLastApplied t) (raiseLastApplied t) :=
  fun _ => rfl

variable (cmd : Command)

theorem shadows_set : Shadows id (applySet cmd) (applySet cmd) := by
  let body (timestamp : ℤ) : Method ApplyResult := do
    Method.change (·.set cmd.key cmd.value (some timestamp))
    if cmd.startTs ≠ none then
      Method.change (·.writeWriteRecord cmd.key cmd.startTs (some timestamp))
    Method.raiseLastApplied timestamp
    return ApplyResult.ok
  have hbody : ∀ timestamp, Shadows id (body timestamp) (body timestamp) := by
    intro timestamp
    refine (Shadows.change fun st => st.set_unclock ..).bind fun _ => ?_
    split
    · exact (Shadows.change fun st => st.writeWriteRecord_unclock ..).bind fun _ =>
        (Shadows.raiseLastApplied timestamp).bind fun _ => Shadows.answer .ok
    · exact (Shadows.raiseLastApplied timestamp).bind fun _ => Shadows.answer .ok
  exact fun m => hbody _ m

theorem shadows_delete : Shadows id (applyDelete cmd) (applyDelete cmd) := by
  let body (timestamp : ℤ) : Method ApplyResult := do
    Method.change (·.delete cmd.key (some timestamp))
    Method.raiseLastApplied timestamp
    return ApplyResult.ok
  have hbody : ∀ timestamp, Shadows id (body timestamp) (body timestamp) := fun timestamp =>
    (Shadows.change fun st => st.delete_unclock ..).bind fun _ =>
      (Shadows.raiseLastApplied timestamp).bind fun _ => Shadows.answer .ok
  exact fun m => hbody _ m

/-- What `PREWRITE` refuses does not depend on the readings. -/
theorem prewriteRefusal_unclock (st : MVCCStorage) :
    prewriteRefusal cmd st.unclock = prewriteRefusal cmd st := by
  simp only [prewriteRefusal, newerWrite, newerVersion, st.getNewestLock_unclock,
    st.getLatestWrite_unclock, st.getLatestVersion_unclock]
  rcases st.getNewestLock cmd.key with e | _ | ⟨status, p, t, v, k, s⟩
  · rfl
  · rfl
  · cases status <;> rfl

theorem shadows_prewrite (now : Time) :
    Shadows id (applyPrewrite now cmd) (applyPrewrite 0 cmd) := by
  refine Shadows.bind (g := id) (Shadows.ask fun st => ?_) fun refusal => ?_
  · rw [prewriteRefusal_unclock]
    rcases prewriteRefusal cmd st with e | r <;> rfl
  · cases refusal with
    | some refusal => exact Shadows.answer refusal
    | none => exact (Shadows.change fun st => st.putLock_unclock ..).bind fun _ => Shadows.answer .ok

/-- Looking up the newest lock, whatever is done with it. -/
theorem Shadows.newestLock {f : Option Lock → Method γ} {f' : Option Lock → Method δ}
    (hf : ∀ lock?, Shadows h (f lock?) (f' (lock?.map Lock.unclock))) :
    Shadows h (Method.ask (·.getNewestLock cmd.key) >>= f)
      (Method.ask (·.getNewestLock cmd.key) >>= f') :=
  (Shadows.ask fun st => st.getNewestLock_unclock ..).bind hf

theorem shadows_commit : Shadows id (applyCommit cmd) (applyCommit cmd) := by
  refine (Shadows.ask fun st => st.getLock_unclock ..).bind fun lock? => ?_
  cases lock? with
  | none =>
    refine Shadows.newestLock cmd fun newest? => ?_
    cases newest? <;> exact Shadows.answer _
  | some lock =>
    by_cases hstatus : lock.status ≠ .locked
    · simp only [Option.map_some, Lock.unclock, if_pos hstatus]
      exact Shadows.answer _
    simp only [Option.map_some, Lock.unclock, if_neg hstatus]
    exact (Shadows.change fun st => st.set_unclock ..).bind fun _ =>
      (Shadows.change fun st => st.writeWriteRecord_unclock ..).bind fun _ =>
        (Shadows.change fun st => st.removeLock_unclock ..).bind fun _ =>
          (Shadows.raiseLastApplied _).bind fun _ => Shadows.answer .ok

theorem shadows_rollback : Shadows id (applyRollback cmd) (applyRollback cmd) := by
  refine (Shadows.ask fun st => st.getLock_unclock ..).bind fun lock? => ?_
  cases lock? with
  | none =>
    refine Shadows.newestLock cmd fun newest? => ?_
    cases newest? <;> exact Shadows.answer _
  | some lock =>
    exact (Shadows.change fun st => st.removeLock_unclock ..).bind fun _ => Shadows.answer .ok

theorem shadows_cleanLock : Shadows id (applyCleanLock cmd) (applyCleanLock cmd) := by
  refine Shadows.newestLock cmd fun newest? => ?_
  cases newest? with
  | none => exact Shadows.answer .ok
  | some lock =>
    by_cases hs : cmd.startTs = none ∨ cmd.startTs = some lock.startTs
    · simp only [Option.map_some, Lock.unclock, if_pos hs]
      exact (Shadows.change fun st => st.removeLock_unclock ..).bind fun _ => Shadows.answer .ok
    · simp only [Option.map_some, Lock.unclock, if_neg hs]
      exact Shadows.answer .ok

theorem shadows_dispatch (now : Time) : Shadows id (dispatch now cmd) (dispatch 0 cmd) := by
  unfold dispatch
  cases cmd.type with
  | set => exact shadows_set cmd
  | delete => exact shadows_delete cmd
  | prewrite => exact shadows_prewrite cmd now
  | commit => exact shadows_commit cmd
  | rollback => exact shadows_rollback cmd
  | cleanLock => exact shadows_cleanLock cmd
  | other name => exact Shadows.answer _

/-- **A command does the same without the readings**, its answer included. -/
theorem apply_unclock (now : Time) (m : MVCCStateMachine) :
    apply 0 m.unclock cmd = ((apply now m cmd).1.unclock, (apply now m cmd).2) := by
  rw [apply_eq, apply_eq, shadows_dispatch cmd now m]
  rcases (dispatch now cmd m).1 with e | r <;> rfl

/-! ## Reads -/

theorem get_unclock (m : MVCCStateMachine) (key : Bytes) (timestamp : Option ℤ) :
    m.unclock.get key timestamp = m.get key timestamp := by
  have hread : m.unclock.readVersion key timestamp = m.readVersion key timestamp := by
    simp only [readVersion, unclock, m.storage.getVersion_unclock]
  simp only [get, hread, show m.unclock.storage.getNewestLock (some key) = _ from
    m.storage.getNewestLock_unclock (some key)]
  rcases m.storage.getNewestLock (some key) with e | _ | lock <;> rfl

theorem scanLock_unclock (startKey endKey : Bytes) (timestamp : Option ℤ)
    (rows : Dict Bytes (Bytes × ℤ)) (lock : Bytes × Lock) :
    scanLock startKey endKey timestamp rows (lock.1, lock.2.unclock) =
      scanLock startKey endKey timestamp rows lock := rfl

section

variable (m : MVCCStateMachine) (startKey endKey : Bytes) (timestamp : Option ℤ)

theorem scanVersions_unclock :
    m.unclock.scanVersions startKey endKey timestamp =
      m.scanVersions startKey endKey timestamp := by
  simp only [scanVersions, unclock, m.storage.scanVersions_unclock, m.storage.iterLocks_unclock]
  refine bind_congr fun versions => ?_
  rcases m.storage.iterLocks with e | locks
  · rfl
  · simp only [Except.map, orRaise, bind, Except.bind, foldlM_map, scanLock_unclock]

theorem scan_unclock :
    m.unclock.scan startKey endKey timestamp = m.scan startKey endKey timestamp := by
  rw [scan, scan, scanVersions_unclock]

end

/-! ## Logs -/

/-- What the commands of a log are answered. -/
def answers (log : History) : List ApplyResult :=
  (log.foldl (fun (state : MVCCStateMachine × List ApplyResult) entry =>
    let (m, r) := apply entry.1 state.1 entry.2
    (m, state.2 ++ [r])) (empty, [])).2

theorem answers_concat (log : History) (now : Time) (cmd : Command) :
    answers (log ++ [(now, cmd)]) = answers log ++ [(apply now (replay log) cmd).2] := by
  have hfst : ∀ log : History, (log.foldl (fun (state : MVCCStateMachine × List ApplyResult) entry =>
      let (m, r) := apply entry.1 state.1 entry.2
      (m, state.2 ++ [r])) (empty, [])).1 = replay log := by
    intro log
    induction log using reverseRecOn with
    | nil => rfl
    | append_singleton log entry ih =>
      rw [replay_concat, ← ih, foldl_append]
      rfl
  rw [answers, foldl_append, ← hfst log]
  rfl

/-- A log, with the clock standing still. -/
def stopped (log : History) : History := log.map fun entry => (0, entry.2)

/-- **A log without readings** makes the machine without readings, and is answered the same. -/
theorem replay_stopped (log : History) :
    replay (stopped log) = (replay log).unclock ∧ answers (stopped log) = answers log := by
  induction log using reverseRecOn with
  | nil => exact ⟨rfl, rfl⟩
  | append_singleton log entry ih =>
    obtain ⟨hreplay, hanswers⟩ := ih
    rw [stopped, map_append, ← stopped, map_singleton, replay_concat, answers_concat,
      replay_concat, answers_concat, hreplay, hanswers, apply_unclock]
    exact ⟨rfl, rfl⟩

/-- **Replicas agree whatever their clocks say**: two replicas that have applied one log answered
every command alike, have the same versions and write records and, but for the readings in them, the
same locks, and answer every read alike. -/
theorem replicas_agree {log log' : History} (h : log.map Prod.snd = log'.map Prod.snd) :
    answers log = answers log' ∧
    (replay log).maps.version = (replay log').maps.version ∧
    (replay log).maps.record = (replay log').maps.record ∧
    (∀ k s, ((replay log).maps.lock k s).map LockFields.unclock =
      ((replay log').maps.lock k s).map LockFields.unclock) ∧
    (∀ key timestamp, (replay log).get key timestamp = (replay log').get key timestamp) ∧
    (∀ lo hi timestamp, (replay log).scanVersions lo hi timestamp =
      (replay log').scanVersions lo hi timestamp) ∧
    ∀ lo hi timestamp, (replay log).scan lo hi timestamp = (replay log').scan lo hi timestamp := by
  have hstopped : stopped log = stopped log' := by
    have hmap : ∀ log : History, stopped log = (log.map Prod.snd).map fun cmd => (0, cmd) :=
      fun log => (map_map ..).symm
    rw [hmap, hmap, h]
  obtain ⟨hreplay, hanswers⟩ := replay_stopped log
  obtain ⟨hreplay', hanswers'⟩ := replay_stopped log'
  have hsame : (replay log).unclock = (replay log').unclock := by
    rw [← hreplay, ← hreplay', hstopped]
  have hmaps := congrArg maps hsame
  simp only [maps, unclock, MVCCStorage.maps_unclock, Maps.mk.injEq] at hmaps
  obtain ⟨hversion, hrecord, hlock⟩ := hmaps
  refine ⟨by rw [← hanswers, ← hanswers', hstopped], hversion, hrecord, ?_, ?_, ?_, ?_⟩
  · exact fun k s => congrFun (congrFun hlock k) s
  · intro key timestamp
    rw [← get_unclock, hsame, get_unclock]
  · intro lo hi timestamp
    rw [← scanVersions_unclock, hsame, scanVersions_unclock]
  · intro lo hi timestamp
    rw [← scan_unclock, hsame, scan_unclock]

/-- A lock taken at two clocks. -/
theorem replicas_agree_lock :
    ([((3 : Time), Command.prewrite [97] [98] 1 [97])].map Prod.snd =
      [((8 : Time), Command.prewrite [97] [98] 1 [97])].map Prod.snd) ∧
    replay [(3, .prewrite [97] [98] 1 [97])] ≠ replay [(8, .prewrite [97] [98] 1 [97])] ∧
    answers [(3, .prewrite [97] [98] 1 [97])] = answers [(8, .prewrite [97] [98] 1 [97])] :=
  ⟨rfl, by decide +kernel, (replicas_agree rfl).1⟩

end MVCCStateMachine
end OxideDB.Storage
