import OxideDB.Dict
import OxideDB.Storage.Maps

/-!
# The machine of a shard

`MVCCStateMachine` of `raft/state_machine.py`: the six commands a shard's log carries, and
the reads that are answered from the keyspace they leave.  A command is a dictionary, so any
of its fields may be missing; a command that raises is answered as a failure, and what it had
changed by then stays changed.
-/

namespace OxideDB.Storage

open Raft (Bytes ApplyResult ErrorCode)
open MVCCStorage Option

variable {st : MVCCStorage} {α β : Type} {a : α} {t s : ℤ} {f : ℤ → Option α}

/-! ## Commands -/

inductive CommandType where
  | set
  | delete
  | prewrite
  | commit
  | rollback
  | cleanLock
  | other (name : String)
  deriving DecidableEq, Repr

/-- A command: its type and the fields it carries. -/
structure Command where
  type : CommandType
  key : Option Bytes := none
  value : Option Bytes := none
  timestamp : Option ℤ := none
  startTs : Option ℤ := none
  commitTs : Option ℤ := none
  primaryKey : Option Bytes := none
  deriving DecidableEq, Repr

namespace Command

/-- `PREWRITE`, as a coordinator serialises it. -/
def prewrite (key value : Bytes) (startTs : ℤ) (primaryKey : Bytes) : Command :=
  { type := .prewrite, key := some key, value := some value, startTs := some startTs,
    primaryKey := some primaryKey }

/-- `COMMIT`, as a coordinator or a resolver serialises it. -/
def commit (key : Bytes) (startTs commitTs : ℤ) : Command :=
  { type := .commit, key := some key, startTs := some startTs, commitTs := some commitTs }

/-- `ROLLBACK`, as a coordinator or a resolver serialises it. -/
def rollback (key : Bytes) (startTs : ℤ) : Command :=
  { type := .rollback, key := some key, startTs := some startTs }

end Command

structure MVCCStateMachine where
  storage : MVCCStorage
  lastAppliedTimestamp : ℤ
  deriving DecidableEq

namespace MVCCStateMachine

/-- The machine over an empty keyspace. -/
def empty : MVCCStateMachine := ⟨.empty, 0⟩

/-- A method of the machine.  It may raise, and what it changed before stays changed. -/
abbrev Method (α : Type) := MVCCStateMachine → Except String α × MVCCStateMachine

namespace Method

variable {α : Type}

instance : Monad Method where
  pure a := fun m => (.ok a, m)
  bind x f := fun m =>
    match x m with
    | (.ok a, m') => f a m'
    | (.error e, m') => (.error e, m')

/-- Ask the storage. -/
def ask (f : MVCCStorage → Except String α) : Method α := fun m => (f m.storage, m)

/-- Change the storage. -/
def change (f : MVCCStorage → Except String MVCCStorage) : Method Unit := fun m =>
  match f m.storage with
  | .ok storage => (.ok (), { m with storage := storage })
  | .error e => (.error e, m)

/-- `if timestamp > self._last_applied_timestamp: ...`. -/
def raiseLastApplied (timestamp : ℤ) : Method Unit := fun m =>
  (.ok (), { m with lastAppliedTimestamp := max m.lastAppliedTimestamp timestamp })

end Method

/-- `left > right`, where `right` may be `None`. -/
def greater (left : ℤ) : Option ℤ → Except String Bool
  | none => .error "'>' not supported between instances of 'int' and 'NoneType'"
  | some right => .ok (right < left)

/-- How `None` or a number is printed. -/
def reprInt : Option ℤ → String
  | none => "None"
  | some t => toString t

def reprKey : Option Bytes → String
  | none => "None"
  | some key => reprBytes key

open Method

/-- `_apply_set`. -/
def applySet (cmd : Command) : Method ApplyResult := fun m =>
  let timestamp := cmd.timestamp.getD (m.lastAppliedTimestamp + 1)
  (do
    change (·.set cmd.key cmd.value (some timestamp))
    -- a row moved here by a split carries the write record it had
    if cmd.startTs ≠ none then
      change (·.writeWriteRecord cmd.key cmd.startTs (some timestamp))
    raiseLastApplied timestamp
    return ApplyResult.ok : Method ApplyResult) m

/-- `_apply_delete`. -/
def applyDelete (cmd : Command) : Method ApplyResult := fun m =>
  let timestamp := cmd.timestamp.getD (m.lastAppliedTimestamp + 1)
  (do
    change (·.delete cmd.key (some timestamp))
    raiseLastApplied timestamp
    return ApplyResult.ok : Method ApplyResult) m

/-- The commit timestamp of a write that is newer than the transaction. -/
def newerWrite (cmd : Command) (st : MVCCStorage) : Except String (Option ℤ) := do
  match ← st.getLatestWrite cmd.key with
  | none => return none
  | some existing =>
    return if ← greater existing.commitTs cmd.startTs then some existing.commitTs else none

/-- The timestamp of a version that is newer than the transaction. -/
def newerVersion (cmd : Command) (st : MVCCStorage) : Except String (Option ℤ) := do
  match ← st.getLatestVersion cmd.key with
  | none => return none
  | some existing =>
    return if ← greater existing.timestamp cmd.startTs then some existing.timestamp else none

/-- What `_apply_prewrite` refuses before it takes the lock. -/
def prewriteRefusal (cmd : Command) (st : MVCCStorage) : Except String (Option ApplyResult) := do
  let key := reprKey cmd.key
  match ← st.getNewestLock cmd.key with
  | some ⟨.locked, _, _, _, _, startTs⟩ =>
    return some (.failure .errLocked s!"Key {key} is locked by transaction {startTs}")
  | _ =>
    match ← newerWrite cmd st with
    | some commitTs =>
      return some (.failure .errWriteConflict
        s!"Key {key} has newer write with commit_ts {commitTs}")
    | none =>
      match ← newerVersion cmd st with
      | some timestamp =>
        return some (.failure .errWriteConflict
          s!"Key {key} has newer version with timestamp {timestamp}")
      | none => return none

/-- `_apply_prewrite`: the lock is the write intent. -/
def applyPrewrite (now : Time) (cmd : Command) : Method ApplyResult := do
  match ← ask (prewriteRefusal cmd) with
  | some refusal => return refusal
  | none =>
    change (·.putLock cmd.key cmd.startTs .locked cmd.primaryKey now cmd.value)
    return ApplyResult.ok

/-- The refusal of a `COMMIT` or `ROLLBACK` whose lock is not there, while another's is. -/
def timestampMismatch (cmd : Command) (newest : Lock) : ApplyResult :=
  let expected := reprInt cmd.startTs
  let got := newest.startTs
  .failure .errTimestampMismatch s!"Start timestamp mismatch: expected {expected}, got {got}"

/-- `_apply_commit`. -/
def applyCommit (cmd : Command) : Method ApplyResult := do
  match ← ask (·.getLock cmd.key cmd.startTs) with
  | none =>
    match ← ask (·.getNewestLock cmd.key) with
    | none =>
      let key := reprKey cmd.key
      return .failure .errNoLock s!"No lock found for key {key}"
    | some newest => return timestampMismatch cmd newest
  | some lock =>
    if lock.status ≠ .locked then
      let status := lock.status.bytes
      return .failure .errLockStatusInvalid s!"Lock status is {status}, expected LOCKED"
    else
      change (·.set cmd.key (some lock.value) cmd.commitTs)
      change (·.writeWriteRecord cmd.key cmd.startTs cmd.commitTs)
      change (·.removeLock cmd.key cmd.startTs)
      -- `commit_ts` is a number here: the version was written at it
      raiseLastApplied (cmd.commitTs.getD 0)
      return ApplyResult.ok

/-- `_apply_rollback`. -/
def applyRollback (cmd : Command) : Method ApplyResult := do
  match ← ask (·.getLock cmd.key cmd.startTs) with
  | none =>
    match ← ask (·.getNewestLock cmd.key) with
    | none => return ApplyResult.ok
    | some newest => return timestampMismatch cmd newest
  | some _ =>
    change (·.removeLock cmd.key cmd.startTs)
    return ApplyResult.ok

/-- `_apply_clean_lock`. -/
def applyCleanLock (cmd : Command) : Method ApplyResult := do
  match ← ask (·.getNewestLock cmd.key) with
  | none => return ApplyResult.ok
  | some lock =>
    if cmd.startTs = none ∨ cmd.startTs = some lock.startTs then
      change (·.removeLock cmd.key (some lock.startTs))
    return ApplyResult.ok

/-- The method a command's type names. -/
def dispatch (now : Time) (cmd : Command) : Method ApplyResult :=
  match cmd.type with
  | .set => applySet cmd
  | .delete => applyDelete cmd
  | .prewrite => applyPrewrite now cmd
  | .commit => applyCommit cmd
  | .rollback => applyRollback cmd
  | .cleanLock => applyCleanLock cmd
  | .other name => return .failure .errUnknown s!"Unknown command type: {name}"

/-- `apply`, with the clock reading it would make. -/
def apply (now : Time) (m : MVCCStateMachine) (cmd : Command) : MVCCStateMachine × ApplyResult :=
  match dispatch now cmd m with
  | (.ok r, m') => (m', r)
  | (.error e, m') => (m', .failure .errApplyError s!"Apply error: {e}")

/-! ## What a command does to the maps -/

/-- The three maps of the machine's keyspace. -/
def maps (m : MVCCStateMachine) : Maps := m.storage.maps

/-- Everything a command can do. -/
inductive Applied (now : Time) (m : MVCCStateMachine) (cmd : Command) :
    MVCCStateMachine → ApplyResult → Prop
  /-- Refused, or raised before anything was changed. -/
  | refused {r : ApplyResult} (hr : r.success = false) : Applied now m cmd m r
  /-- Nothing to remove. -/
  | kept (htype : cmd.type = .rollback ∧ (∃ k, cmd.key = some k ∧ ∀ t, m.maps.lock k t = none) ∨
      cmd.type = .cleanLock) : Applied now m cmd m .ok
  | wrote {m' : MVCCStateMachine} {k v : Bytes} {t : ℤ} (htype : cmd.type = .set)
      (hkey : cmd.key = some k) (ht : t = cmd.timestamp.getD (m.lastAppliedTimestamp + 1))
      (hvalid : ValidKey k ∧ ValidTs t) (hs : cmd.startTs = none)
      (hmaps : m'.maps = m.maps.putVersion k t (some v))
      (hlast : m'.lastAppliedTimestamp = max m.lastAppliedTimestamp t) : Applied now m cmd m' .ok
  /-- A row and the write record it carried. -/
  | copied {m' : MVCCStateMachine} {k v : Bytes} {t s : ℤ} (htype : cmd.type = .set)
      (hkey : cmd.key = some k) (ht : t = cmd.timestamp.getD (m.lastAppliedTimestamp + 1))
      (hvalid : ValidKey k ∧ ValidTs t) (hs : cmd.startTs = some s)
      (hmaps : m'.maps = (m.maps.putVersion k t (some v)).putRecord k t s)
      (hlast : m'.lastAppliedTimestamp = max m.lastAppliedTimestamp t) : Applied now m cmd m' .ok
  /-- A row whose write record could not be written. -/
  | halfCopied {m' : MVCCStateMachine} {r : ApplyResult} {k v : Bytes} {t s : ℤ}
      (hr : r.success = false) (htype : cmd.type = .set) (hkey : cmd.key = some k)
      (ht : t = cmd.timestamp.getD (m.lastAppliedTimestamp + 1)) (hs : cmd.startTs = some s)
      (hinvalid : ¬ ValidTs s) (hmaps : m'.maps = m.maps.putVersion k t (some v))
      (hlast : m'.lastAppliedTimestamp = m.lastAppliedTimestamp) : Applied now m cmd m' r
  | deleted {m' : MVCCStateMachine} {k : Bytes} {t : ℤ} (htype : cmd.type = .delete)
      (hkey : cmd.key = some k) (ht : t = cmd.timestamp.getD (m.lastAppliedTimestamp + 1))
      (hvalid : ValidKey k ∧ ValidTs t) (hmaps : m'.maps = m.maps.putVersion k t none)
      (hlast : m'.lastAppliedTimestamp = max m.lastAppliedTimestamp t) : Applied now m cmd m' .ok
  | locked {m' : MVCCStateMachine} {k v p : Bytes} {s : ℤ} (htype : cmd.type = .prewrite)
      (hkey : cmd.key = some k) (hvalue : cmd.value = some v) (hs : cmd.startTs = some s)
      (hp : cmd.primaryKey = some p) (hvalid : ValidKey k ∧ ValidTs s)
      (hfree : ∀ t f, Newest (m.maps.lock k) (some (t, f)) → f.status ≠ .locked)
      (hrecord : ∀ c s', m.maps.record k c = some s' → c ≤ s)
      (hversion : ∀ t w, m.maps.version k t = some w → t ≤ s)
      (hmaps : m'.maps = m.maps.setLock k s (some ⟨.locked, p, now, v⟩))
      (hlast : m'.lastAppliedTimestamp = m.lastAppliedTimestamp) : Applied now m cmd m' .ok
  | committed {m' : MVCCStateMachine} {k : Bytes} {s c : ℤ} {f : LockFields}
      (htype : cmd.type = .commit) (hkey : cmd.key = some k) (hs : cmd.startTs = some s)
      (hc : cmd.commitTs = some c) (hvalid : ValidKey k ∧ ValidTs s ∧ ValidTs c)
      (hlock : m.maps.lock k s = some f) (hstatus : f.status = .locked)
      (hmaps : m'.maps =
        ((m.maps.putVersion k c (some f.value)).putRecord k c s).setLock k s none)
      (hlast : m'.lastAppliedTimestamp = max m.lastAppliedTimestamp c) : Applied now m cmd m' .ok
  | unlocked {m' : MVCCStateMachine} {k : Bytes} {s : ℤ} {f : LockFields}
      (htype : cmd.type = .rollback ∧ cmd.startTs = some s ∨
        cmd.type = .cleanLock ∧ (cmd.startTs = none ∨ cmd.startTs = some s) ∧
          Newest (m.maps.lock k) (some (s, f)))
      (hkey : cmd.key = some k) (hlock : m.maps.lock k s = some f)
      (hmaps : m'.maps = m.maps.setLock k s none)
      (hlast : m'.lastAppliedTimestamp = m.lastAppliedTimestamp) : Applied now m cmd m' .ok

variable {m m' : MVCCStateMachine} {cmd : Command} {now : Time}

/-- What `dispatch` did, as `apply` reports it. -/
def report (x : Except String ApplyResult) : ApplyResult :=
  match x with
  | .ok r => r
  | .error e => .failure .errApplyError s!"Apply error: {e}"

theorem apply_eq (now : Time) (m : MVCCStateMachine) (cmd : Command) :
    apply now m cmd = ((dispatch now cmd m).2, report (dispatch now cmd m).1) := by
  rw [apply]
  rcases dispatch now cmd m with ⟨_ | _, _⟩ <;> rfl

theorem bind_run (x : Method α) (f : α → Method β) (m : MVCCStateMachine) :
    (x >>= f) m = match x m with
      | (.ok a, m') => f a m'
      | (.error e, m') => (.error e, m') := rfl

theorem ask_run (f : MVCCStorage → Except String α) (m : MVCCStateMachine) :
    ask f m = (f m.storage, m) := rfl

theorem change_run (f : MVCCStorage → Except String MVCCStorage) (m : MVCCStateMachine) :
    change f m = match f m.storage with
      | .ok storage => (.ok (), { m with storage := storage })
      | .error e => (.error e, m) := rfl

theorem applySet_applied (htype : cmd.type = .set) :
    Applied now m cmd (applySet cmd m).2 (report (applySet cmd m).1) := by
  simp only [applySet, bind_run, change_run]
  generalize ht : cmd.timestamp.getD (m.lastAppliedTimestamp + 1) = t
  rcases hset : m.storage.set cmd.key cmd.value (some t) with e | st
  · exact .refused rfl
  obtain ⟨k, v, t', hkey, -, ht', hk, hvt, hmaps⟩ := set_ok hset
  cases ht'
  by_cases hs : cmd.startTs = none
  · simp only [hs, ne_eq, not_true_eq_false, if_false]
    exact .wrote htype hkey ht.symm ⟨hk, hvt⟩ hs hmaps rfl
  obtain ⟨s, hs'⟩ := ne_none_iff_exists'.1 hs
  simp only [hs, ne_eq, not_false_eq_true, if_true, bind_run, change_run]
  rcases hrec : st.writeWriteRecord cmd.key cmd.startTs (some t) with e | st'
  · refine .halfCopied rfl htype hkey ht.symm hs' (fun hvs => ?_) hmaps rfl
    rw [hkey, hs', writeWriteRecord, checkUserKey_valid hk, tsBytes_valid hvt,
      tsBytes_valid hvs] at hrec
    cases hrec
  · obtain ⟨k', s', t'', hkey', hs'', ht'', -, -, -, hmaps'⟩ := writeWriteRecord_ok hrec
    cases hkey.symm.trans hkey'
    cases ht''
    exact .copied htype hkey ht.symm ⟨hk, hvt⟩ hs'' (hmaps'.trans (by rw [hmaps]; rfl)) rfl

theorem applyDelete_applied (htype : cmd.type = .delete) :
    Applied now m cmd (applyDelete cmd m).2 (report (applyDelete cmd m).1) := by
  simp only [applyDelete, bind_run, change_run]
  generalize ht : cmd.timestamp.getD (m.lastAppliedTimestamp + 1) = t
  rcases hdel : m.storage.delete cmd.key (some t) with e | st
  · exact .refused rfl
  obtain ⟨k, t', hkey, ht', hk, hvt, hmaps⟩ := delete_ok hdel
  cases ht'
  exact .deleted htype hkey ht.symm ⟨hk, hvt⟩ hmaps rfl

theorem Newest.le (h : Newest f (some (t, a))) {t' : ℤ} {a' : α} (ha' : f t' = some a') :
    t' ≤ t := by
  cases h with
  | some ha hmax =>
    by_contra hlt
    rw [hmax t' (not_le.1 hlt)] at ha'
    cases ha'

/-- Where nothing is newer than a timestamp, nothing is above it. -/
theorem le_of_not_greater {r : Option β} {g : β → ℤ × α} (hnew : Newest f (r.map g))
    (hle : ∀ b, r = some b → (g b).1 ≤ s) (h : f t = some a) : t ≤ s := by
  cases r with
  | none =>
    cases hnew with
    | none hall => rw [hall t] at h; cases h
  | some b => exact (Newest.le hnew h).trans (hle b rfl)

theorem greater_false {left : ℤ} {right : Option ℤ} (h : greater left right = .ok false)
    (hs : right = some s) : left ≤ s := by
  subst hs
  have h' : ¬ s < left := by simpa [greater] using h
  omega

section

variable {st : MVCCStorage} {k : Bytes} {s : ℤ} (hkey : cmd.key = some k) (hk : ValidKey k)
include hkey hk

theorem newerWrite_none (h : newerWrite cmd st = .ok none) (hs : cmd.startTs = some s) {c s' : ℤ}
    (hrec : st.maps.record k c = some s') : c ≤ s := by
  obtain ⟨r, hr, hnew⟩ := getLatestWrite_valid st hk
  rw [newerWrite, hkey, hr] at h
  refine le_of_not_greater hnew ?_ hrec
  rintro w rfl
  obtain ⟨_, heq, h⟩ := bind_ok h
  cases heq
  obtain ⟨b, hb, h⟩ := bind_ok h
  cases b with
  | true => cases h
  | false => exact greater_false hb hs

theorem newerVersion_none (h : newerVersion cmd st = .ok none) (hs : cmd.startTs = some s)
    {w : Option Bytes} (hver : st.maps.version k t = some w) : t ≤ s := by
  obtain ⟨r, hr, hnew⟩ := getLatestVersion_valid st hk
  rw [newerVersion, hkey, hr] at h
  refine le_of_not_greater hnew ?_ hver
  rintro v rfl
  obtain ⟨_, heq, h⟩ := bind_ok h
  cases heq
  obtain ⟨b, hb, h⟩ := bind_ok h
  cases b with
  | true => cases h
  | false => exact greater_false hb hs

end

theorem Newest.unique {r r' : Option (ℤ × α)} (h : Newest f r) (h' : Newest f r') : r = r' := by
  cases h with
  | none hall =>
    cases h' with
    | none _ => rfl
    | some ha' _ => rw [hall] at ha'; cases ha'
  | @some t a ha hmax =>
    cases h' with
    | none hall => rw [hall] at ha; cases ha
    | @some t' a' ha' hmax' =>
      have hle := Newest.le (.some ha' hmax') ha
      have hge := Newest.le (.some ha hmax) ha'
      obtain rfl : t = t' := le_antisymm hle hge
      obtain rfl : a = a' := some.inj (ha.symm.trans ha')
      rfl

/-- What `_apply_prewrite` has found when it takes the lock. -/
theorem prewriteRefusal_none (h : prewriteRefusal cmd st = .ok none) :
    ∃ k, cmd.key = some k ∧ ValidKey k ∧
      (∀ t f, Newest (st.maps.lock k) (some (t, f)) → f.status ≠ .locked) ∧
      ∀ s, cmd.startTs = some s → (∀ c s', st.maps.record k c = some s' → c ≤ s) ∧
        ∀ t w, st.maps.version k t = some w → t ≤ s := by
  obtain ⟨newest, hnewest, h⟩ := bind_ok h
  obtain ⟨k, hk, -⟩ := bind_ok hnewest
  have hkey := checkUserKey_ok hk
  refine ⟨k.1, hkey, k.2, ?_⟩
  obtain ⟨r, hr, hnew⟩ := getNewestLock_valid st k.2
  rw [hkey, hr] at hnewest
  cases hnewest
  have hfree : ∀ t f, Newest (st.maps.lock k.1) (some (t, f)) → f.status ≠ .locked := by
    intro t f hn hstatus
    obtain rfl := Newest.unique hnew hn
    obtain ⟨status, p, time, v⟩ := f
    obtain rfl : status = .locked := hstatus
    cases h
  refine ⟨hfree, fun s hs => ?_⟩
  split at h
  · cases h
  obtain ⟨w, hw, h⟩ := bind_ok h
  cases w with
  | some c => cases h
  | none =>
    obtain ⟨v, hv, h⟩ := bind_ok h
    cases v with
    | some t => cases h
    | none =>
      exact ⟨fun c s' hrec => newerWrite_none hkey k.2 hw hs hrec,
        fun t w hver => newerVersion_none hkey k.2 hv hs hver⟩

theorem prewriteRefusal_some {r : ApplyResult} (h : prewriteRefusal cmd st = .ok (some r)) :
    r.success = false := by
  obtain ⟨newest, -, h⟩ := bind_ok h
  split at h
  · cases h; rfl
  obtain ⟨w, -, h⟩ := bind_ok h
  cases w with
  | some c => cases h; rfl
  | none =>
    obtain ⟨v, -, h⟩ := bind_ok h
    cases v with
    | some t => cases h; rfl
    | none => cases h

theorem applyPrewrite_applied (htype : cmd.type = .prewrite) :
    Applied now m cmd (applyPrewrite now cmd m).2 (report (applyPrewrite now cmd m).1) := by
  simp only [applyPrewrite, bind_run, ask_run]
  rcases href : prewriteRefusal cmd m.storage with e | refusal
  · exact .refused rfl
  cases refusal with
  | some r => exact .refused (prewriteRefusal_some href)
  | none =>
    obtain ⟨k, hkey, hk, hfree, hnewer⟩ := prewriteRefusal_none href
    simp only [bind_run, change_run]
    rcases hput : m.storage.putLock cmd.key cmd.startTs .locked cmd.primaryKey now cmd.value
      with e | st
    · exact .refused rfl
    obtain ⟨k', s, p, v, hkey', hs, hp, hv, -, hvs, hmaps⟩ := putLock_ok hput
    cases hkey.symm.trans hkey'
    obtain ⟨hrecord, hversion⟩ := hnewer s hs
    exact .locked htype hkey hv hs hp ⟨hk, hvs⟩ hfree hrecord hversion hmaps rfl

/-- What `get_lock` answered. -/
theorem getLock_ok {key : Option Bytes} {startTs : Option ℤ} {lock? : Option Lock}
    (h : st.getLock key startTs = .ok lock?) :
    ∃ k s, key = some k ∧ startTs = some s ∧ ValidKey k ∧ ValidTs s ∧
      lock? = (st.lockAt k s).map (lockOf k s) := by
  obtain ⟨k, hk, hrest⟩ := bind_ok h
  obtain ⟨s, hs, -⟩ := bind_ok hrest
  have hkey := checkUserKey_ok hk
  have hstart := tsBytes_ok hs
  rw [hkey, hstart, getLock_valid k.2 s.2] at h
  exact ⟨k.1, s.1, hkey, hstart, k.2, s.2, (Except.ok.inj h).symm⟩

theorem applyCommit_applied (htype : cmd.type = .commit) :
    Applied now m cmd (applyCommit cmd m).2 (report (applyCommit cmd m).1) := by
  simp only [applyCommit, bind_run, ask_run]
  rcases hget : m.storage.getLock cmd.key cmd.startTs with e | lock?
  · exact .refused rfl
  obtain ⟨k, s, hkey, hs, hk, hvs, rfl⟩ := getLock_ok hget
  rcases hlock : m.storage.lockAt k s with _ | f
  · simp only [map_none, bind_run, ask_run]
    rcases m.storage.getNewestLock cmd.key with e | _ | newest <;> exact .refused rfl
  simp only [map_some, lockOf]
  by_cases hstatus : f.status = .locked
  · simp only [hstatus, ne_eq, not_true_eq_false, if_false, bind_run, change_run]
    rcases hset : m.storage.set cmd.key (some f.value) cmd.commitTs with e | st₁
    · exact .refused rfl
    obtain ⟨k₁, v, c, hkey₁, hv, hc, -, hvc, hmaps₁⟩ := set_ok hset
    cases hkey.symm.trans hkey₁
    cases hv
    -- the timestamps have been checked by now: nothing else can raise
    rcases hrec : st₁.writeWriteRecord cmd.key cmd.startTs cmd.commitTs with e | st₂
    · rw [hkey, hs, hc, writeWriteRecord, checkUserKey_valid hk, tsBytes_valid hvc,
        tsBytes_valid hvs] at hrec
      cases hrec
    obtain ⟨k₂, s₂, c₂, hkey₂, hs₂, hc₂, -, -, -, hmaps₂⟩ := writeWriteRecord_ok hrec
    cases hkey.symm.trans hkey₂
    cases hs.symm.trans hs₂
    cases hc.symm.trans hc₂
    rcases hrem : st₂.removeLock cmd.key cmd.startTs with e | st₃
    · rw [hkey, hs, removeLock, checkUserKey_valid hk, tsBytes_valid hvs] at hrem
      cases hrem
    obtain ⟨k₃, s₃, hkey₃, hs₃, -, -, hmaps₃⟩ := removeLock_ok hrem
    cases hkey.symm.trans hkey₃
    cases hs.symm.trans hs₃
    simp only [hrec, hrem]
    show Applied now m cmd ⟨st₃, max m.lastAppliedTimestamp (cmd.commitTs.getD 0)⟩ .ok
    refine .committed htype hkey hs hc ⟨hk, hvs, hvc⟩ hlock hstatus ?_ (by rw [hc]; rfl)
    rw [maps, hmaps₃, hmaps₂, hmaps₁]
    rfl
  · simp only [hstatus, ne_eq, not_false_eq_true, if_true]
    exact .refused rfl

theorem applyRollback_applied (htype : cmd.type = .rollback) :
    Applied now m cmd (applyRollback cmd m).2 (report (applyRollback cmd m).1) := by
  simp only [applyRollback, bind_run, ask_run]
  rcases hget : m.storage.getLock cmd.key cmd.startTs with e | lock?
  · exact .refused rfl
  obtain ⟨k, s, hkey, hs, hk, hvs, rfl⟩ := getLock_ok hget
  rcases hlock : m.storage.lockAt k s with _ | f
  · obtain ⟨r, hr, hnew⟩ := getNewestLock_valid m.storage hk
    simp only [map_none, bind_run, ask_run, hkey, hr]
    cases r with
    | none =>
      cases hnew with
      | none hall => exact .kept (.inl ⟨htype, k, hkey, hall⟩)
    | some newest => exact .refused rfl
  · simp only [map_some, bind_run, change_run]
    rcases hrem : m.storage.removeLock cmd.key cmd.startTs with e | st
    · exact .refused rfl
    obtain ⟨k₃, s₃, hkey₃, hs₃, -, -, hmaps⟩ := removeLock_ok hrem
    cases hkey.symm.trans hkey₃
    cases hs.symm.trans hs₃
    exact .unlocked (.inl ⟨htype, hs⟩) hkey hlock hmaps rfl

theorem applyCleanLock_applied (htype : cmd.type = .cleanLock) :
    Applied now m cmd (applyCleanLock cmd m).2 (report (applyCleanLock cmd m).1) := by
  simp only [applyCleanLock, bind_run, ask_run]
  rcases hget : m.storage.getNewestLock cmd.key with e | lock?
  · exact .refused rfl
  obtain ⟨k, hk, -⟩ := bind_ok hget
  have hkey := checkUserKey_ok hk
  obtain ⟨r, hr, hnew⟩ := getNewestLock_valid m.storage k.2
  rw [hkey, hr] at hget
  cases hget
  cases r with
  | none => exact .kept (.inr htype)
  | some newest =>
    obtain ⟨s, f⟩ := newest
    have hlock : m.storage.lockAt k.1 s = some f := by cases hnew with | some h _ => exact h
    simp only [map_some, lockOf]
    by_cases hs : cmd.startTs = none ∨ cmd.startTs = some s
    · simp only [if_pos hs, bind_run, change_run]
      rcases hrem : m.storage.removeLock cmd.key (some s) with e | st
      · exact .refused rfl
      obtain ⟨k₃, s₃, hkey₃, hs₃, -, -, hmaps⟩ := removeLock_ok hrem
      cases hkey.symm.trans hkey₃
      cases hs₃
      exact .unlocked (.inr ⟨htype, hs, hnew⟩) hkey hlock hmaps rfl
    · simp only [if_neg hs]
      exact .kept (.inr htype)

/-- **A command does one of the things `Applied` lists.** -/
theorem apply_applied (now : Time) (m : MVCCStateMachine) (cmd : Command) :
    Applied now m cmd (apply now m cmd).1 (apply now m cmd).2 := by
  rw [apply_eq, dispatch]
  cases htype : cmd.type with
  | set => exact applySet_applied htype
  | delete => exact applyDelete_applied htype
  | prewrite => exact applyPrewrite_applied htype
  | commit => exact applyCommit_applied htype
  | rollback => exact applyRollback_applied htype
  | cleanLock => exact applyCleanLock_applied htype
  | other name => exact .refused rfl

end MVCCStateMachine

/-! ## Reads -/

/-- What a read answers. -/
structure ReadResult where
  success : Bool
  value : Option Bytes := none
  errorCode : Option ErrorCode := none
  errorMsg : Option String := none
  commitTs : ℤ := 0
  deriving DecidableEq, Repr

/-- `ReadResult.success`. -/
def ReadResult.ok (value : Option Bytes) (commitTs : ℤ := 0) : ReadResult :=
  { success := true, value := value, commitTs := commitTs }

/-- `ReadResult.locked`. -/
def ReadResult.locked : ReadResult :=
  { success := false, errorCode := some .errLocked,
    errorMsg := some "Key is locked by another transaction" }

namespace MVCCStateMachine

/-- The version part of `get`. -/
def readVersion (m : MVCCStateMachine) (key : Bytes) (timestamp : Option ℤ) :
    Except String ReadResult := do
  let readTimestamp := timestamp.getD m.lastAppliedTimestamp
  match ← m.storage.getVersion (some key) readTimestamp with
  | none => return .ok none
  | some version => return .ok (some version.value) version.timestamp

/-- `get`. -/
def get (m : MVCCStateMachine) (key : Bytes) (timestamp : Option ℤ) :
    Except String ReadResult := do
  match ← m.storage.getNewestLock (some key) with
  | none => m.readVersion key timestamp
  | some lock =>
    if timestamp = some lock.startTs then return .ok (some lock.value)
    else if timestamp.all (lock.startTs < ·) then return .locked
    else m.readVersion key timestamp

/-- What leaves a range read instead of rows: `ScanRefused`, or another exception. -/
inductive ScanFailure where
  | refused (code : ErrorCode) (msg : String) (key : Option Bytes)
  | raised (msg : String)
  deriving DecidableEq

/-- Any other exception goes through. -/
def orRaise {α : Type} (x : Except String α) : Except ScanFailure α :=
  match x with
  | .ok a => .ok a
  | .error e => .error (.raised e)

/-- What a lock makes of the rows of a range read. -/
def scanLock (startKey endKey : Bytes) (timestamp : Option ℤ) (rows : Dict Bytes (Bytes × ℤ))
    (lock : Bytes × Lock) : Except ScanFailure (Dict Bytes (Bytes × ℤ)) :=
  if ¬ (startKey ≤ lock.1 ∧ lock.1 < endKey) then .ok rows
  else if timestamp.all (lock.2.startTs < ·) then
    let key := reprBytes lock.1
    let startTs := lock.2.startTs
    .error (.refused .errLocked s!"Key {key} is locked by transaction {startTs}" (some lock.1))
  else if timestamp = some lock.2.startTs then .ok (rows.set lock.1 (lock.2.value, 0))
  else .ok rows

/-- `scan_versions`. -/
def scanVersions (m : MVCCStateMachine) (startKey endKey : Bytes) (timestamp : Option ℤ) :
    Except ScanFailure (List (Bytes × Bytes × ℤ)) := do
  let versions ← orRaise
    (m.storage.scanVersions startKey endKey (timestamp.getD m.lastAppliedTimestamp))
  let locks ← orRaise m.storage.iterLocks
  let rows ← locks.foldlM (scanLock startKey endKey timestamp)
    (Dict.ofList (versions.map fun row => (row.1, row.2)))
  return rows.sorted.entries.map fun row => (row.1, row.2)

/-- `scan`. -/
def scan (m : MVCCStateMachine) (startKey endKey : Bytes) (timestamp : Option ℤ) :
    Except ScanFailure (List (Bytes × Bytes)) := do
  return (← m.scanVersions startKey endKey timestamp).map fun row => (row.1, row.2.1)

/-- `get_lock_status`. -/
def getLockStatus (m : MVCCStateMachine) (key : Bytes) : Except String (Option Lock) :=
  m.storage.getNewestLock (some key)

/-- `get_write_record`. -/
def getWriteRecord (m : MVCCStateMachine) (key : Bytes) : Except String (Option WriteRecord) :=
  m.storage.getLatestWrite (some key)

end MVCCStateMachine
end OxideDB.Storage
