import OxideDB.Storage.Keyspace
import OxideDB.Storage.Locking

/-!
# When a command takes effect

`Applied` lists what a command can have done.  Here is the other direction: which state and which
arguments make it do so.  A `SET` or a `DELETE` looks at nothing but the last applied timestamp, a
`PREWRITE` at what its key admits, a `COMMIT` and a `ROLLBACK` at one lock.

* `Applied.keeps` — versions and write records are never removed.
-/

namespace OxideDB.Storage

open Option MVCCStateMachine MVCCStorage Maps

open Raft (Bytes ApplyResult)

/-- What a `SET` or a `DELETE` can do to the maps. -/
inductive Puts : (Maps → Maps) → Prop
  | nothing : Puts id
  | version (k : Bytes) (t : ℤ) (w : Option Bytes) : Puts fun M => M.putVersion k t w
  | row (k : Bytes) (t : ℤ) (w : Option Bytes) (s : ℤ) :
    Puts fun M => (M.putVersion k t w).putRecord k t s

/-- A transaction may lock the key: nobody holds it, and nothing at it is newer. -/
structure Maps.Admits (M : Maps) (k : Bytes) (s : ℤ) : Prop where
  lock (s' : ℤ) : M.lock k s' = none
  record {c s' : ℤ} (h : M.record k c = some s') : c ≤ s
  version {t : ℤ} {w : Option Bytes} (h : M.version k t = some w) : t ≤ s

namespace MVCCStateMachine

open MVCCStorage

variable {m : MVCCStateMachine} {cmd : Command} {now : Time} {k : Bytes} {s c t : ℤ}

/-- A key, a timestamp and a value are ones a `SET` accepts, on any storage, or it raises. -/
theorem set_uniform (key value : Option Bytes) (timestamp : ℤ) :
    (∃ e, ∀ st : MVCCStorage, st.set key value (some timestamp) = .error e) ∨
      ∃ (k : UserKey) (t : Stamp) (v : Bytes), key = some k.1 ∧ timestamp = t.1 ∧ value = some v := by
  rcases hk : checkUserKey key with e | k
  · exact .inl ⟨e, fun st => by rw [MVCCStorage.set, hk]; rfl⟩
  rcases ht : tsBytes (some timestamp) with e | t
  · exact .inl ⟨e, fun st => by rw [MVCCStorage.set, hk, ht]; rfl⟩
  rcases hv : asBytes value with e | v
  · exact .inl ⟨e, fun st => by rw [MVCCStorage.set, hk, ht, hv]; rfl⟩
  exact .inr ⟨k, t, v, checkUserKey_ok hk, some.inj (tsBytes_ok ht), asBytes_ok hv⟩

theorem delete_uniform (key : Option Bytes) (timestamp : ℤ) :
    (∃ e, ∀ st : MVCCStorage, st.delete key (some timestamp) = .error e) ∨
      ∃ (k : UserKey) (t : Stamp), key = some k.1 ∧ timestamp = t.1 := by
  rcases hk : checkUserKey key with e | k
  · exact .inl ⟨e, fun st => by rw [delete, hk]; rfl⟩
  rcases ht : tsBytes (some timestamp) with e | t
  · exact .inl ⟨e, fun st => by rw [delete, hk, ht]; rfl⟩
  exact .inr ⟨k, t, checkUserKey_ok hk, some.inj (tsBytes_ok ht)⟩

/-- What a command does to every machine with a given last applied timestamp. -/
def Does (cmd : Command) (last : ℤ) (f : Maps → Maps) (last' : ℤ) : Prop :=
  ∀ (now : Time) (m : MVCCStateMachine), m.lastAppliedTimestamp = last →
    (apply now m cmd).1.maps = f m.maps ∧ (apply now m cmd).1.lastAppliedTimestamp = last'

theorem does_set (htype : cmd.type = .set) (last : ℤ) :
    ∃ f last', Puts f ∧ Does cmd last f last' := by
  have hrun : ∀ now m, apply now m cmd = ((applySet cmd m).2, report (applySet cmd m).1) := by
    intro now m
    rw [apply_eq, dispatch, htype]
  rcases set_uniform cmd.key cmd.value (cmd.timestamp.getD (last + 1)) with
    ⟨e, he⟩ | ⟨k, t, v, hkey, ht, hv⟩
  · refine ⟨id, last, .nothing, fun now m hlast => ?_⟩
    rw [hrun]
    simp only [applySet, bind_run, change_run, hlast, he]
    exact ⟨rfl, trivial⟩
  have hset := fun m : MVCCStateMachine => run_write m.storage (.set k v t)
  simp only [Write.run, ← hkey, ← hv, ← ht] at hset
  rcases hs : cmd.startTs with _ | s
  · refine ⟨_, max last t.1, .version k.1 t.1 (some v), fun now m hlast => ?_⟩
    obtain ⟨st, hst, hmaps⟩ := hset m
    rw [hrun]
    simp only [applySet, bind_run, change_run, hlast, hst, hs, ne_eq, not_true_eq_false, if_false]
    exact ⟨hmaps, by rw [← ht, ← hlast]; rfl⟩
  rcases hstamp : tsBytes (some s) with e | s'
  · refine ⟨_, last, .version k.1 t.1 (some v), fun now m hlast => ?_⟩
    obtain ⟨st, hst, hmaps⟩ := hset m
    have hrec : st.writeWriteRecord cmd.key (some s) (some (cmd.timestamp.getD (last + 1))) =
        .error e := by
      rw [writeWriteRecord, hkey, ht, checkUserKey_valid k.2, tsBytes_valid t.2, hstamp]
      rfl
    rw [hrun]
    simp only [applySet, bind_run, change_run, hlast, hst, hs, ne_eq, reduceCtorEq,
      not_false_eq_true, if_true, hrec]
    exact ⟨hmaps, trivial⟩
  · obtain rfl : s = s'.1 := some.inj (tsBytes_ok hstamp)
    refine ⟨_, max last t.1, .row k.1 t.1 (some v) s'.1, fun now m hlast => ?_⟩
    obtain ⟨st, hst, hmaps⟩ := hset m
    obtain ⟨st', hst', hmaps'⟩ := run_write st (.writeWriteRecord k s' t)
    simp only [Write.run, ← hkey, ← ht] at hst'
    rw [hrun]
    simp only [applySet, bind_run, change_run, hlast, hst, hs, ne_eq, reduceCtorEq,
      not_false_eq_true, if_true, hst']
    refine ⟨?_, by rw [← ht, ← hlast]; rfl⟩
    exact hmaps'.trans (congrArg (fun M : Maps => M.putRecord k.1 t.1 s'.1) hmaps)

theorem does_delete (htype : cmd.type = .delete) (last : ℤ) :
    ∃ f last', Puts f ∧ Does cmd last f last' := by
  have hrun : ∀ now m, apply now m cmd = ((applyDelete cmd m).2, report (applyDelete cmd m).1) := by
    intro now m
    rw [apply_eq, dispatch, htype]
  rcases delete_uniform cmd.key (cmd.timestamp.getD (last + 1)) with ⟨e, he⟩ | ⟨k, t, hkey, ht⟩
  · refine ⟨id, last, .nothing, fun now m hlast => ?_⟩
    rw [hrun]
    simp only [applyDelete, bind_run, change_run, hlast, he]
    exact ⟨rfl, trivial⟩
  · refine ⟨_, max last t.1, .version k.1 t.1 none, fun now m hlast => ?_⟩
    obtain ⟨st, hst, hmaps⟩ := run_write m.storage (.delete k t)
    simp only [Write.run, ← hkey, ← ht] at hst
    rw [hrun]
    simp only [applyDelete, bind_run, change_run, hlast, hst]
    exact ⟨hmaps, by rw [← ht, ← hlast]; rfl⟩

/-- **A `SET` or a `DELETE`** does the same to every machine with one last applied timestamp. -/
theorem does_write (htype : cmd.type = .set ∨ cmd.type = .delete) (last : ℤ) :
    ∃ f last', Puts f ∧ Does cmd last f last' :=
  htype.elim (does_set · last) (does_delete · last)

section

variable (hkey : cmd.key = some k) (hs : cmd.startTs = some s) (hk : ValidKey k)
  (hm : m.maps.Admits k s)
include hkey hs hk hm

theorem newerWrite_of_admits : newerWrite cmd m.storage = .ok none := by
  obtain ⟨r, hr, hnew⟩ := getLatestWrite_valid m.storage hk
  rw [newerWrite, hkey, hr]
  cases r with
  | none => rfl
  | some r =>
    obtain - | ⟨hrecord, -⟩ := hnew
    have hle : ¬ s < r.commitTs := not_lt.2 (hm.record hrecord)
    simp only [bind, Except.bind, greater, hs, decide_eq_false hle]
    rfl

theorem newerVersion_of_admits : newerVersion cmd m.storage = .ok none := by
  obtain ⟨r, hr, hnew⟩ := getLatestVersion_valid m.storage hk
  rw [newerVersion, hkey, hr]
  cases r with
  | none => rfl
  | some r =>
    obtain - | ⟨hversion, -⟩ := hnew
    have hle : ¬ s < r.timestamp := not_lt.2 (hm.version hversion)
    simp only [bind, Except.bind, greater, hs, decide_eq_false hle]
    rfl

end

/-- **A `PREWRITE`** of a key that admits it takes the lock. -/
theorem apply_prewrite {v p : Bytes} (now : Time) (htype : cmd.type = .prewrite)
    (hkey : cmd.key = some k) (hvalue : cmd.value = some v) (hs : cmd.startTs = some s)
    (hp : cmd.primaryKey = some p) (hvalid : ValidKey k ∧ ValidTs s) (hm : m.maps.Admits k s) :
    (apply now m cmd).1.maps = m.maps.setLock k s (some ⟨.locked, p, now, v⟩) ∧
      (apply now m cmd).1.lastAppliedTimestamp = m.lastAppliedTimestamp ∧
      (apply now m cmd).2 = .ok := by
  obtain ⟨lock?, hlock, hnew⟩ := getNewestLock_valid m.storage hvalid.1
  obtain rfl : lock? = none := by
    cases hnew with
    | none => rfl
    | some h => cases (hm.lock _).symm.trans h
  have hrefusal : prewriteRefusal cmd m.storage = .ok none := by
    simp only [prewriteRefusal, newerWrite_of_admits hkey hs hvalid.1 hm,
      newerVersion_of_admits hkey hs hvalid.1 hm, hkey, hlock]
    rfl
  obtain ⟨st, hst, hmaps⟩ := run_write m.storage
    (.putLock ⟨k, hvalid.1⟩ ⟨s, hvalid.2⟩ ⟨.locked, p, now, v⟩)
  simp only [Write.run] at hst
  rw [apply_eq]
  simp only [dispatch, htype, applyPrewrite, bind_run, ask_run, hrefusal, change_run, hkey, hs, hp,
    hvalue, hst]
  exact ⟨hmaps, rfl, rfl⟩

/-- **A `COMMIT`** of a lock that is held writes the version and lets the lock go. -/
theorem apply_commit {f : LockFields} (now : Time) (htype : cmd.type = .commit)
    (hkey : cmd.key = some k) (hs : cmd.startTs = some s) (hc : cmd.commitTs = some c)
    (hvalid : ValidTs c) (hlock : m.maps.lock k s = some f) (hstatus : f.status = .locked) :
    (apply now m cmd).1.maps =
        ((m.maps.putVersion k c (some f.value)).putRecord k c s).setLock k s none ∧
      (apply now m cmd).1.lastAppliedTimestamp = max m.lastAppliedTimestamp c ∧
      (apply now m cmd).2 = .ok := by
  obtain ⟨hk, hvs⟩ := valid_of_lockAt hlock
  have hget : m.storage.getLock (some k) (some s) = .ok (some (lockOf k s f)) := by
    rw [getLock_valid hk hvs]
    exact congrArg (fun x => Except.ok (Option.map (lockOf k s) x)) hlock
  obtain ⟨st₁, hset, hmaps₁⟩ := run_write m.storage (.set ⟨k, hk⟩ f.value ⟨c, hvalid⟩)
  obtain ⟨st₂, hrec, hmaps₂⟩ :=
    run_write st₁ (.writeWriteRecord ⟨k, hk⟩ ⟨s, hvs⟩ ⟨c, hvalid⟩)
  obtain ⟨st₃, hrem, hmaps₃⟩ := run_write st₂ (.removeLock ⟨k, hk⟩ ⟨s, hvs⟩)
  simp only [Write.run] at hset hrec hrem
  rw [apply_eq]
  simp only [dispatch, htype, applyCommit, bind_run, ask_run, hkey, hs, hc, hget, lockOf, hstatus,
    ne_eq, not_true_eq_false, if_false, change_run, hset, hrec, hrem]
  refine ⟨?_, rfl, rfl⟩
  show st₃.maps = _
  rw [hmaps₃, hmaps₂, hmaps₁]
  rfl

/-- Removing a lock that is not there is no change. -/
theorem setLock_none {M : Maps} (h : M.lock k s = none) : M.setLock k s none = M := by
  refine Maps.ext rfl rfl ?_
  funext k' s'
  rw [setLock_lock]
  split
  · next heq => rw [heq.1, heq.2, h]
  · rfl

/-- The commands that let a lock go without a version. -/
def Releases (cmd : Command) : Prop := cmd.type = .rollback ∨ cmd.type = .cleanLock

instance decidableReleases (cmd : Command) : Decidable (Releases cmd) :=
  inferInstanceAs (Decidable (_ ∨ _))

/-- **A `ROLLBACK` or a `CLEAN_LOCK`** of a transaction leaves no lock of it on the key. -/
theorem apply_release (hm : Tidy m) (now : Time) (htype : Releases cmd) (hkey : cmd.key = some k)
    (hs : cmd.startTs = some s) : (apply now m cmd).1.maps = m.maps.setLock k s none ∧
      (apply now m cmd).1.lastAppliedTimestamp = m.lastAppliedTimestamp := by
  rcases hlock : m.maps.lock k s with _ | f
  · rw [setLock_none hlock]
    have happ := apply_applied now m cmd
    generalize apply now m cmd = result at happ ⊢
    obtain ⟨m', answer⟩ := result
    cases happ with
    | refused | kept => exact ⟨rfl, rfl⟩
    | unlocked hwhat hkey' hlock' =>
      cases hkey.symm.trans hkey'
      rcases hwhat with ⟨-, hs'⟩ | ⟨-, hs', -⟩
      · cases hs.symm.trans hs'
        cases hlock.symm.trans hlock'
      · obtain rfl := some.inj (hs.symm.trans (hs'.resolve_left (by rw [hs]; simp)))
        cases hlock.symm.trans hlock'
    | wrote h | copied h | halfCopied _ h | deleted h | locked h | committed h =>
      rcases htype with h' | h' <;> cases h.symm.trans h'
  · obtain ⟨hk, hvs⟩ := valid_of_lockAt hlock
    obtain ⟨st, hrem, hmaps⟩ := run_write m.storage (.removeLock ⟨k, hk⟩ ⟨s, hvs⟩)
    simp only [Write.run] at hrem
    rw [apply_eq]
    rcases htype with htype | htype
    · have hget : m.storage.getLock (some k) (some s) = .ok (some (lockOf k s f)) := by
        rw [getLock_valid hk hvs]
        exact congrArg (fun x => Except.ok (Option.map (lockOf k s) x)) hlock
      simp only [dispatch, htype, applyRollback, bind_run, ask_run, hkey, hs, hget, change_run,
        hrem]
      exact ⟨hmaps, rfl⟩
    · obtain ⟨newest, hnewest, hnew⟩ := getNewestLock_valid m.storage hk
      obtain rfl := Newest.unique hnew (hm.newest hlock)
      simp only [dispatch, htype, applyCleanLock, bind_run, ask_run, hkey, hs, hnewest,
        map_some, lockOf, or_true, if_true, change_run, hrem]
      exact ⟨hmaps, rfl⟩

/-! ## What no command takes away -/

variable {m' : MVCCStateMachine} {answer : ApplyResult}

/-- No command removes a version or a write record. -/
structure Keeps (M M' : Maps) : Prop where
  version {k : Bytes} {t : ℤ} (h : M.version k t ≠ none) : M'.version k t ≠ none
  record {k : Bytes} {c : ℤ} (h : M.record k c ≠ none) : M'.record k c ≠ none

theorem Keeps.refl (M : Maps) : Keeps M M := ⟨id, id⟩

theorem Keeps.trans {M M' M'' : Maps} (h : Keeps M M') (h' : Keeps M' M'') : Keeps M M'' :=
  ⟨fun hv => h'.version (h.version hv), fun hr => h'.record (h.record hr)⟩

theorem keeps_putVersion (M : Maps) (k : Bytes) (t : ℤ) (w : Option Bytes) :
    Keeps M (M.putVersion k t w) where
  version h := by
    rw [putVersion_version]
    split
    · exact some_ne_none _
    · exact h
  record h := h

theorem keeps_putRecord (M : Maps) (k : Bytes) (c s : ℤ) : Keeps M (M.putRecord k c s) where
  version h := h
  record h := by
    rw [putRecord_record]
    split
    · exact some_ne_none _
    · exact h

theorem keeps_setLock (M : Maps) (k : Bytes) (s : ℤ) (lock? : Option LockFields) :
    Keeps M (M.setLock k s lock?) :=
  ⟨id, id⟩

section

variable (h : Applied now m cmd m' answer)
include h

theorem Applied.keeps : Keeps m.maps m'.maps := by
  cases h with
  | refused | kept => exact .refl _
  | wrote _ _ _ _ _ hmaps | halfCopied _ _ _ _ _ _ hmaps | deleted _ _ _ _ hmaps =>
    exact hmaps ▸ keeps_putVersion _ _ _ _
  | copied _ _ _ _ _ hmaps =>
    exact hmaps ▸ (keeps_putVersion _ _ _ _).trans (keeps_putRecord _ _ _ _)
  | locked _ _ _ _ _ _ _ _ _ hmaps | unlocked _ _ _ hmaps => exact hmaps ▸ keeps_setLock _ _ _ _
  | committed _ _ _ _ _ _ _ hmaps =>
    exact hmaps ▸ ((keeps_putVersion _ _ _ _).trans (keeps_putRecord _ _ _ _)).trans
      (keeps_setLock _ _ _ _)

/-- Only a `PREWRITE` of the transaction takes its lock on a key. -/
theorem Applied.lock_none (hlock : m.maps.lock k s = none)
    (hcmd : cmd.type = .prewrite → ¬ (cmd.key = some k ∧ cmd.startTs = some s)) :
    m'.maps.lock k s = none := by
  have hset : ∀ {k' : Bytes} {s' : ℤ}, (m.maps.setLock k' s' none).lock k s = none := by
    intro k' s'
    rw [setLock_lock, hlock, ite_self]
  cases h with
  | refused | kept => exact hlock
  | wrote _ _ _ _ _ hmaps | halfCopied _ _ _ _ _ _ hmaps | deleted _ _ _ _ hmaps
  | copied _ _ _ _ _ hmaps => exact hmaps ▸ hlock
  | locked htype hkey _ hs _ _ _ _ _ hmaps =>
    rw [hmaps, setLock_lock, if_neg, hlock]
    rintro ⟨rfl, rfl⟩
    exact hcmd htype ⟨hkey, hs⟩
  | committed _ _ _ _ _ _ _ hmaps | unlocked _ _ _ hmaps => exact hmaps ▸ hset

theorem Applied.lastApplied_le : m.lastAppliedTimestamp ≤ m'.lastAppliedTimestamp := by
  cases h with
  | refused | kept => exact le_rfl
  | wrote _ _ _ _ _ _ hlast | copied _ _ _ _ _ _ hlast | deleted _ _ _ _ _ hlast
  | committed _ _ _ _ _ _ _ _ hlast => rw [hlast]; exact le_max_left _ _
  | halfCopied _ _ _ _ _ _ _ hlast | locked _ _ _ _ _ _ _ _ _ _ hlast
  | unlocked _ _ _ _ hlast => exact hlast.ge

end

/-! ## The version a command writes -/

/-- The key a command writes a version of, and at which timestamp. -/
def written (m : MVCCStateMachine) (cmd : Command) : Option (Bytes × ℤ) :=
  match cmd.type, cmd.key with
  | .set, some k | .delete, some k =>
    some (k, cmd.timestamp.getD (m.lastAppliedTimestamp + 1))
  | .commit, some k => cmd.commitTs.map fun c => (k, c)
  | _, _ => none

/-- The machine has a version of `k` at `t`, and shows it. -/
structure Written (m : MVCCStateMachine) (k : Bytes) (t : ℤ) : Prop where
  valid : ValidKey k ∧ ValidTs t
  version : m.maps.version k t ≠ none
  seen : t ≤ m.lastAppliedTimestamp

/-- **A command that succeeds writes its version.** -/
theorem Applied.written (h : Applied now m cmd m' answer) (hok : answer.success = true)
    (hw : m.written cmd = some (k, t)) : Written m' k t := by
  have hput : ∀ {w : Option Bytes}, (m.maps.putVersion k t w).version k t ≠ none := by
    intro w
    rw [putVersion_version, if_pos ⟨rfl, rfl⟩]
    exact some_ne_none w
  cases h with
  | refused hr => cases hr.symm.trans hok
  | halfCopied hr => cases hr.symm.trans hok
  | kept htype =>
    rcases htype with ⟨htype, -⟩ | htype <;> simp [written, htype] at hw
  | wrote htype hkey ht hvalid _ hmaps hlast | deleted htype hkey ht hvalid hmaps hlast
  | copied htype hkey ht hvalid _ hmaps hlast =>
    simp only [written, htype, hkey, some.injEq, Prod.mk.injEq] at hw
    obtain ⟨rfl, rfl⟩ := hw
    subst ht
    exact ⟨hvalid, by rw [hmaps]; exact hput, by rw [hlast]; exact le_max_right _ _⟩
  | locked htype => simp [written, htype] at hw
  | committed htype hkey _ hc hvalid _ _ hmaps hlast =>
    simp only [written, htype, hkey, hc, map_some, some.injEq,
      Prod.mk.injEq] at hw
    obtain ⟨rfl, rfl⟩ := hw
    exact ⟨⟨hvalid.1, hvalid.2.2⟩, by rw [hmaps]; exact hput, by rw [hlast]; exact le_max_right _ _⟩
  | unlocked htype =>
    rcases htype with ⟨htype, -⟩ | ⟨htype, -⟩ <;> simp [written, htype] at hw

theorem Written.applied (hm : Written m k t) (h : Applied now m cmd m' answer) : Written m' k t :=
  ⟨hm.valid, h.keeps.version hm.version, hm.seen.trans h.lastApplied_le⟩

/-- The newest version the machine shows is no older. -/
theorem Written.newest (hm : Written m k t) : ∃ t' w, t ≤ t' ∧
    Newest (m.maps.visible k m.lastAppliedTimestamp) (some (t', w)) := by
  have hlo := hm.valid.2.1
  have hseen := hm.seen
  obtain ⟨newest, hnew, -⟩ := getVersion_valid m.storage hm.valid.1
    (show -1 ≤ m.lastAppliedTimestamp by omega)
  obtain ⟨w, hw⟩ := ne_none_iff_exists'.1 hm.version
  have hv := visible_eq_some.2 ⟨hm.seen, hw⟩
  cases hnew with
  | none hall => cases (hall t).symm.trans hv
  | @some t' w' hv' hmax =>
    refine ⟨t', w', le_of_not_gt fun hlt => ?_, .some hv' hmax⟩
    cases (hmax t hlt).symm.trans hv

/-- Every write record is of a version. -/
def Recorded (m : MVCCStateMachine) : Prop :=
  ∀ k c s, m.maps.record k c = some s → m.maps.version k c ≠ none

theorem recorded_empty : Recorded empty := by
  intro k c s h
  simp [maps, empty] at h

/-- A version is written, and with it perhaps its write record. -/
theorem Recorded.put (hm : Recorded m) {w : Option Bytes}
    (hversion : m'.maps.version = (m.maps.putVersion k t w).version)
    (hrecord : ∀ k' c s, m'.maps.record k' c = some s →
      m.maps.record k' c = some s ∨ k' = k ∧ c = t) : Recorded m' := by
  intro k' c s h
  rw [hversion, putVersion_version]
  split
  · exact some_ne_none _
  · next hne => exact hm k' c s ((hrecord k' c s h).resolve_right hne)

theorem record_putRecord_cases {M : Maps} {k k' : Bytes} {c t s s' : ℤ}
    (h : (M.putRecord k t s).record k' c = some s') :
    M.record k' c = some s' ∨ k' = k ∧ c = t := by
  rw [putRecord_record] at h
  split at h
  · exact .inr ‹_›
  · exact .inl h

theorem Recorded.applied (hm : Recorded m) (h : Applied now m cmd m' answer) : Recorded m' := by
  cases h with
  | refused | kept => exact hm
  | wrote _ _ _ _ _ hmaps | halfCopied _ _ _ _ _ _ hmaps | deleted _ _ _ _ hmaps =>
    exact hm.put (by rw [hmaps]) fun k c s h => .inl (by rwa [hmaps] at h)
  | copied _ _ _ _ _ hmaps =>
    exact hm.put (by rw [hmaps]; rfl) fun k c s h => record_putRecord_cases (by rwa [hmaps] at h)
  | committed _ _ _ _ _ _ _ hmaps =>
    exact hm.put (by rw [hmaps]; rfl) fun k c s h => record_putRecord_cases (by rwa [hmaps] at h)
  | locked _ _ _ _ _ _ _ _ _ hmaps | unlocked _ _ _ hmaps =>
    intro k c s h
    rw [hmaps] at h ⊢
    exact hm k c s h

theorem recorded_replay (log : History) : Recorded (replay log) :=
  replay_invariant recorded_empty (fun now m cmd hm => hm.applied (apply_applied now m cmd)) log

end MVCCStateMachine
end OxideDB.Storage
