import OxideDB.Storage.Reproposal
import OxideDB.Storage.Transfer

/-!
# A key that is written once

The rows of one key through the only transaction that ever names it: nothing is there, then the
transaction's lock, then one version and no lock.  Commands on other keys leave a key where it is,
so the three states are carried through any log by `Alike`.
-/

namespace OxideDB.Storage.MVCCStateMachine

open Raft (Bytes)
open MVCCStorage Maps

variable {m m' m'' : MVCCStateMachine} {now : Time} {k v p : Bytes} {s c : ℤ}

/-! ## What other commands leave -/

/-- The rows of a key are what they were, and as much has been applied at least. -/
structure Alike (k : Bytes) (m m' : MVCCStateMachine) : Prop where
  version : m'.maps.version k = m.maps.version k
  record : m'.maps.record k = m.maps.record k
  lock : m'.maps.lock k = m.maps.lock k
  applied : m.lastAppliedTimestamp ≤ m'.lastAppliedTimestamp

theorem Alike.refl (k : Bytes) (m : MVCCStateMachine) : Alike k m m := ⟨rfl, rfl, rfl, le_rfl⟩

theorem Alike.trans (h : Alike k m m') (h' : Alike k m' m'') : Alike k m m'' where
  version := h'.version.trans h.version
  record := h'.record.trans h.record
  lock := h'.lock.trans h.lock
  applied := h.applied.trans h'.applied

theorem alike_apply (now : Time) (m : MVCCStateMachine) {cmd : Command} (hne : cmd.key ≠ some k) :
    Alike k m (apply now m cmd).1 := by
  obtain ⟨hversion, hrecord, hlock⟩ := (apply_applied now m cmd).frame hne
  exact ⟨hversion, hrecord, hlock, (apply_applied now m cmd).lastApplied_le⟩

/-! ## The states of the key -/

/-- Nothing was ever written at the key, and nobody holds it. -/
structure Untouched (m : MVCCStateMachine) (k : Bytes) : Prop where
  version (t : ℤ) : m.maps.version k t = none
  record (t : ℤ) : m.maps.record k t = none
  lock (t : ℤ) : m.maps.lock k t = none

/-- A transaction holds the key and is going to write a value, the first there. -/
structure Intended (m : MVCCStateMachine) (k : Bytes) (s : ℤ) (v : Bytes) : Prop where
  lock : ∃ f, m.maps.lock k s = some f ∧ f.status = .locked ∧ f.value = v
  only {t : ℤ} (h : t ≠ s) : m.maps.lock k t = none
  version (t : ℤ) : m.maps.version k t = none

/-- The value is the newest version, everybody sees it, and nobody holds the key. -/
structure Stored (m : MVCCStateMachine) (k v : Bytes) (c : ℤ) : Prop where
  version : Newest (m.maps.version k) (some (c, some v))
  lock (t : ℤ) : m.maps.lock k t = none
  applied : c ≤ m.lastAppliedTimestamp

theorem Untouched.alike (h : Untouched m k) (hm : Alike k m m') : Untouched m' k where
  version t := by rw [hm.version, h.version]
  record t := by rw [hm.record, h.record]
  lock t := by rw [hm.lock, h.lock]

theorem Untouched.of_alike (h : Untouched m' k) (hm : Alike k m m') : Untouched m k where
  version t := by rw [← hm.version, h.version]
  record t := by rw [← hm.record, h.record]
  lock t := by rw [← hm.lock, h.lock]

theorem Intended.not_untouched (h : Intended m k s v) : ¬ Untouched m k := fun hfree => by
  obtain ⟨f, hlock, -⟩ := h.lock
  cases (hfree.lock s).symm.trans hlock

theorem Intended.alike (h : Intended m k s v) (hm : Alike k m m') : Intended m' k s v where
  lock := by rw [hm.lock]; exact h.lock
  only hne := by rw [hm.lock, h.only hne]
  version t := by rw [hm.version, h.version]

theorem Stored.alike (h : Stored m k v c) (hm : Alike k m m') : Stored m' k v c where
  version := by rw [hm.version]; exact h.version
  lock t := by rw [hm.lock, h.lock]
  applied := h.applied.trans hm.applied

theorem untouched_empty (k : Bytes) : Untouched empty k where
  version t := by simp [maps, empty]
  record t := by simp [maps, empty]
  lock t := by simp [maps, empty]

/-! ## The commands of the transaction -/

/-- **`PREWRITE`** takes the key. -/
theorem Untouched.prewrite (h : Untouched m k) (hk : ValidKey k) (hs : ValidTs s) :
    (apply now m (.prewrite k v s p)).2 = .ok ∧
      Intended (apply now m (.prewrite k v s p)).1 k s v := by
  have hadmits : m.maps.Admits k s := by
    refine ⟨h.lock, fun {t s'} ht => ?_, fun {t w} ht => ?_⟩
    · cases (h.record t).symm.trans ht
    · cases (h.version t).symm.trans ht
  obtain ⟨hmaps, -, hok⟩ := @apply_prewrite m (.prewrite k v s p) k s v p now rfl rfl rfl rfl rfl
    ⟨hk, hs⟩ hadmits
  refine ⟨hok, ⟨⟨⟨.locked, p, now, v⟩, ?_, rfl, rfl⟩, fun {t} hne => ?_, fun t => ?_⟩⟩
  · rw [hmaps, setLock_lock, if_pos ⟨rfl, rfl⟩]
  · rw [hmaps, setLock_lock, if_neg fun heq => hne heq.2, h.lock]
  · rw [hmaps]
    exact h.version t

/-- A second `PREWRITE` is refused, and changes nothing. -/
theorem Intended.prewrite (h : Intended m k s v) (now : Time) (v' : Bytes) (s' : ℤ) (p : Bytes) :
    (apply now m (.prewrite k v' s' p)).2.success = false ∧
      (apply now m (.prewrite k v' s' p)).1 = m := by
  obtain ⟨f, hlock, hstatus, -⟩ := h.lock
  obtain ⟨hk, -⟩ := valid_of_lockAt hlock
  obtain ⟨newest, hget, hnew⟩ := getNewestLock_valid m.storage hk
  obtain rfl := Newest.unique hnew (.some hlock fun t ht => h.only ht.ne')
  obtain ⟨msg, heq⟩ := @apply_prewrite_held m (.prewrite k v' s' p) now k s f rfl rfl hget hstatus
  rw [heq]
  exact ⟨rfl, rfl⟩

/-- **`COMMIT`** makes the value the version. -/
theorem Intended.commit (h : Intended m k s v) (hc : ValidTs c) :
    (apply now m (.commit k s c)).2 = .ok ∧ Stored (apply now m (.commit k s c)).1 k v c := by
  obtain ⟨f, hlock, hstatus, rfl⟩ := h.lock
  obtain ⟨hmaps, hlast, hok⟩ := @apply_commit m (.commit k s c) k s c f now rfl rfl rfl rfl hc hlock
    hstatus
  refine ⟨hok, ⟨?_, fun t => ?_, ?_⟩⟩
  · rw [hmaps]
    refine .some ?_ fun t ht => ?_
    · show ((m.maps.putVersion k c (some f.value)).version k c) = _
      rw [putVersion_version, if_pos ⟨rfl, rfl⟩]
    · show ((m.maps.putVersion k c (some f.value)).version k t) = _
      rw [putVersion_version, if_neg fun heq => ht.ne' heq.2, h.version]
  · rw [hmaps, setLock_lock]
    split
    · rfl
    next hne => exact h.only fun heq => hne ⟨rfl, heq⟩
  · rw [hlast]
    exact le_max_right _ _

/-- A second `COMMIT` changes nothing. -/
theorem Stored.commit (h : Stored m k v c) (hk : ValidKey k) (hs : ValidTs s) :
    (apply now m (.commit k s c)).1 = m := by
  obtain ⟨msg, heq⟩ := @apply_commit_free m (.commit k s c) now k s rfl rfl rfl ⟨hk, hs⟩ h.lock
  rw [heq]

/-- A read of the key, at no timestamp or at one that is not before the commit. -/
theorem Stored.get (h : Stored m k v c) (hk : ValidKey k) (hc : ValidTs c) {timestamp : Option ℤ}
    (ht : ∀ t, timestamp = some t → c ≤ t) : m.get k timestamp = .ok (.ok (some v) c) := by
  have hle : c ≤ timestamp.getD m.lastAppliedTimestamp := by
    cases timestamp with
    | none => exact h.applied
    | some t => exact ht t rfl
  obtain ⟨newest, hnew, hread⟩ := @readVersion_valid k timestamp m hk
    ((neg_one_lt_zero.le.trans hc.1).trans hle)
  have hshown : Newest (m.maps.visible k (timestamp.getD m.lastAppliedTimestamp))
      (some (c, some v)) := by
    rcases h.version with - | ⟨hv, hmax⟩
    refine .some (visible_eq_some.2 ⟨hle, hv⟩) fun t hlt => ?_
    rw [visible, hmax t hlt, ite_self]
  obtain rfl := Newest.unique hnew hshown
  simp only [MVCCStateMachine.get, getNewestLock_free hk h.lock, bind, Except.bind]
  exact hread

end OxideDB.Storage.MVCCStateMachine
