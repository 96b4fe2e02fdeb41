import OxideDB.Storage.Locking

/-!
# Snapshot reads

What `get` answers at a timestamp, over the maps: the newest version at or below it, unless a
lock of an earlier transaction is in the way, or the reader's own.
-/

namespace OxideDB.Storage

open Raft (Bytes)

namespace Maps

/-- The versions of a key at or below a timestamp. -/
def visible (M : Maps) (k : Bytes) (s t : ℤ) : Option (Option Bytes) :=
  if t ≤ s then M.version k t else none

/-- The newest version of a key at or below a timestamp holds `v`; a tombstone and no version
at all hold nothing. -/
def Shows (M : Maps) (k : Bytes) (s : ℤ) (v : Option Bytes) : Prop :=
  ∃ r, Newest (M.visible k s) r ∧ v = r.bind Prod.snd

variable {M M' : Maps} {k : Bytes} {s : ℤ} {v v' : Option Bytes}

theorem visible_eq_some {t : ℤ} {w : Option Bytes} :
    M.visible k s t = some w ↔ t ≤ s ∧ M.version k t = some w := by
  unfold visible
  split <;> simp_all

theorem Shows.unique (h : M.Shows k s v) (h' : M.Shows k s v') : v = v' := by
  obtain ⟨r, hr, rfl⟩ := h
  obtain ⟨r', hr', rfl⟩ := h'
  rw [MVCCStateMachine.Newest.unique hr hr']

/-- Only the versions at or below the timestamp count. -/
theorem Shows.congr (h : M.Shows k s v) (heq : ∀ c ≤ s, M'.version k c = M.version k c) :
    M'.Shows k s v := by
  obtain ⟨r, hr, rfl⟩ := h
  have hvisible : M'.visible k s = M.visible k s := by
    funext c
    unfold visible
    split
    · exact heq c ‹_›
    · rfl
  exact ⟨r, hvisible ▸ hr, rfl⟩

end Maps

namespace MVCCStateMachine

open MVCCStorage

variable {m : MVCCStateMachine} {k : Bytes} {s : ℤ} {r : ReadResult}

theorem readVersion_shows (hs : 0 ≤ s) (hkey : ValidKey k)
    (h : m.readVersion k (some s) = .ok r) : m.maps.Shows k s r.value := by
  obtain ⟨record, hrecord, hnew⟩ := getVersionAt_valid m.storage hkey (by omega : -1 ≤ s)
  refine ⟨_, hnew, ?_⟩
  simp only [readVersion, getVersion, Option.getD_some, hrecord, bind, Except.bind, pure,
    Except.pure] at h
  cases record with
  | none =>
    cases h
    rfl
  | some record =>
    simp only [Option.map_some, Option.bind_some]
    by_cases hdel : record.deleted = true
    · simp only [hdel, if_true] at h ⊢
      cases h
      rfl
    · simp only [hdel] at h ⊢
      cases h
      rfl

/-- Every key has a newest version, or none. -/
theorem exists_newest_version (m : MVCCStateMachine) (k : Bytes) :
    ∃ r, Newest (m.maps.version k) r := by
  by_cases hkey : ValidKey k
  · obtain ⟨r, -, hnew⟩ := getLatestVersion_valid m.storage hkey
    exact ⟨_, hnew⟩
  refine ⟨none, .none fun t => versionAt_eq_none.2 ?_⟩
  rcases hcell : m.storage.cellAt .version k t with _ | cell
  · rfl
  · exact absurd (valid_of_cellAt hcell).1 hkey

/-- **A read that is answered**: no lock of an earlier transaction is on the key, and the
value is the snapshot's, or the reader's own. -/
theorem get_shows (hm : Tidy m) (hs : 0 ≤ s) (h : m.get k (some s) = .ok r)
    (hsucc : r.success = true) :
    (∀ s' f, m.maps.lock k s' = some f → s ≤ s') ∧
      ((∃ f, m.maps.lock k s = some f) ∨ m.maps.Shows k s r.value) := by
  obtain ⟨newest, hnewest, hrest⟩ := bind_ok h
  obtain ⟨key, hkey, -⟩ := bind_ok hnewest
  cases checkUserKey_ok hkey
  obtain ⟨newest', hnewest', hnew⟩ := getNewestLock_valid m.storage key.2
  cases hnewest.symm.trans hnewest'
  cases hnew with
  | none hall =>
    refine ⟨fun s' f hf => ?_, .inr (readVersion_shows hs key.2 hrest)⟩
    exact absurd hf (by rw [show m.maps.lock key.1 s' = none from hall s']; simp)
  | @some s₀ f₀ hlock _ =>
    -- the newest lock is the only one
    have hone : ∀ s' f, m.maps.lock key.1 s' = some f → s' = s₀ :=
      fun s' f hf => hm.single hf hlock
    simp only [Option.map_some, lockOf] at hrest
    split at hrest
    · rename_i hown
      cases hown
      exact ⟨fun s' f hf => (hone s' f hf).ge, .inl ⟨f₀, hlock⟩⟩
    split at hrest
    · cases hrest
      cases hsucc
    · rename_i hown hearly
      simp only [Option.all_some, decide_eq_true_iff, not_lt] at hearly
      exact ⟨fun s' f hf => (hone s' f hf) ▸ hearly, .inr (readVersion_shows hs key.2 hrest)⟩

end MVCCStateMachine

end OxideDB.Storage
