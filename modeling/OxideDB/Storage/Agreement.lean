import OxideDB.Storage.Keyspace

/-!
# Machines that agree on a key

What a read of a key answers is a function of the maps at that key: two machines whose maps are the
same there read alike.
-/

namespace OxideDB.Storage

open Raft (Bytes)

namespace MVCCStateMachine

open MVCCStorage Option

/-- The maps of two machines are the same at a key. -/
structure Agree (m m' : MVCCStateMachine) (k : Bytes) : Prop where
  version : m.maps.version k = m'.maps.version k
  record : m.maps.record k = m'.maps.record k
  lock : m.maps.lock k = m'.maps.lock k

namespace Agree

variable {m m' : MVCCStateMachine} {k : Bytes}

variable (h : Agree m m' k)
include h

theorem getNewestLock : m.storage.getNewestLock (some k) = m'.storage.getNewestLock (some k) := by
  by_cases hk : ValidKey k
  · obtain ⟨r, hr, hnew⟩ := getNewestLock_valid m.storage hk
    obtain ⟨r', hr', hnew'⟩ := getNewestLock_valid m'.storage hk
    have hlock : m.storage.lockAt k = m'.storage.lockAt k := h.lock
    rw [hlock] at hnew
    rw [hr, hr', Newest.unique hnew hnew']
  · rw [MVCCStorage.getNewestLock, MVCCStorage.getNewestLock, checkUserKey_invalid hk]
    rfl

theorem getVersion (timestamp : ℤ) :
    m.storage.getVersion (some k) timestamp = m'.storage.getVersion (some k) timestamp := by
  by_cases hvalid : ValidKey k ∧ -1 ≤ timestamp
  · obtain ⟨r, hnew, hr⟩ := getVersion_valid m.storage hvalid.1 hvalid.2
    obtain ⟨r', hnew', hr'⟩ := getVersion_valid m'.storage hvalid.1 hvalid.2
    have hvisible : m.storage.maps.visible k timestamp = m'.storage.maps.visible k timestamp := by
      funext t
      exact congrArg (fun f : ℤ → Option (Option Bytes) => if t ≤ timestamp then f t else none)
        h.version
    rw [hvisible] at hnew
    rw [hr, hr', Newest.unique hnew hnew']
  · obtain ⟨e, he⟩ := getVersion_invalid hvalid
    rw [he, he]

/-- Reads of the newest version are the same when as much has been applied. -/
theorem get_newest (hlast : m.lastAppliedTimestamp = m'.lastAppliedTimestamp) :
    m.get k none = m'.get k none := by
  simp only [MVCCStateMachine.get, readVersion, h.getNewestLock, getD_none, hlast,
    h.getVersion]

end Agree
end MVCCStateMachine
end OxideDB.Storage
