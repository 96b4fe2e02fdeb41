import OxideDB.Storage.Locking
import OxideDB.Transition

/-!
# What became of a transaction

`transaction/lock_resolver.py`: whoever meets a lock asks the shard of the lock's primary key
what happened, and rolls the lock forward or clears it.  The answer is read off the newest
write record of the primary key.  Where that record is the transaction's own, the verdict is
the history; once a later transaction has committed on the primary key, the record that says
so hides the earlier one and the verdict is that it aborted.
-/

namespace OxideDB.Txn

open Raft (Bytes ApplyResult)
open Storage MVCCStateMachine Option Maps

variable {key : Bytes} {c : ℤ}

/-! ## The resolver -/

/-- What the primary key's shard says about a transaction. -/
inductive PrimaryStatus where
  | committed
  | pending
  | aborted
  | unknown
  deriving DecidableEq, Repr

/-- What a resolver is configured with. -/
structure LockResolver where
  lockTtl : Time

namespace LockResolver

variable (resolver : LockResolver)

/-- `remaining_ttl`. -/
def remainingTtl (now : Time) (lock : Lock) : Time :=
  max 0 (resolver.lockTtl - (now - lock.lockTime))

/-- `primary_status`, asked of the machine of the primary's leader if there is one. -/
def primaryStatus (now : Time) (leader : Option MVCCStateMachine) (primaryKey : Bytes)
    (startTs : ℤ) : Except String PrimaryStatus :=
  match leader with
  | none => return .unknown
  | some m => do
    let record ← m.getWriteRecord primaryKey
    if record.any (·.startTs = startTs) then return .committed
    let lock ← m.getLockStatus primaryKey
    if lock.any fun lock => lock.startTs = startTs ∧ 0 < resolver.remainingTtl now lock then
      return .pending
    return .aborted

/-- `primary_commit_ts`. -/
def primaryCommitTs (leader : Option MVCCStateMachine) (primaryKey : Bytes) (startTs : ℤ) :
    Except String (Option ℤ) :=
  match leader with
  | none => return none
  | some m => do
    let record ← m.getWriteRecord primaryKey
    return (record.filter (·.startTs = startTs)).map (·.commitTs)

/-- `resolve_lock` of a lock, up to the command it proposes to the lock's shard.  The primary
is asked for the status and, if that is a commit, asked again for the timestamp. -/
def resolveLock (now : Time) (first second : Option MVCCStateMachine) (key : Bytes)
    (lock : Lock) : Except String (Option Command) := do
  match ← resolver.primaryStatus now first lock.primaryKey lock.startTs with
  | .committed =>
    match ← primaryCommitTs second lock.primaryKey lock.startTs with
    | none => return none
    | some commitTs => return some (.commit key lock.startTs commitTs)
  | .aborted => return some (.rollback key lock.startTs)
  | _ => return none

end LockResolver

/-! ## Records on the primary key -/

/-- One command of a log, as a step. -/
def logStep (m : MVCCStateMachine) (entry : Time × Command) : Option MVCCStateMachine :=
  some (apply entry.1 m entry.2).1

theorem run_logStep (log : History) : Transition.run logStep empty log = some (replay log) := by
  induction log using List.reverseRecOn with
  | nil => rfl
  | append_singleton log entry ih =>
    rw [replay_concat]
    exact Transition.run_concat ih rfl

/-- The write record a command that succeeds puts on its key: `start_ts` and commit timestamp. -/
def planted (m : MVCCStateMachine) (now : Time) (cmd : Command) : Option (ℤ × ℤ) :=
  if (apply now m cmd).2.success = false then none
  else match cmd.type with
  | .set => cmd.startTs.map fun s => (s, cmd.timestamp.getD (m.lastAppliedTimestamp + 1))
  | .commit => cmd.startTs.bind fun s => cmd.commitTs.map fun c => (s, c)
  | _ => none

/-- The newest write record of a key. -/
def latest (m : MVCCStateMachine) (key : Bytes) : Option WriteRecord :=
  match m.getWriteRecord key with
  | .ok record => record
  | .error _ => none

/-- A command leaves the record of transaction `s` the newest of its primary key: only a
`COMMIT` writes it, once and above the others, and nothing is written above it afterwards. -/
def Unshadowed (primaryKey : Bytes) (s : ℤ) (m : MVCCStateMachine) (entry : Time × Command) :
    Prop :=
  entry.2.key = some primaryKey → ∀ p ∈ planted m entry.1 entry.2,
    (p.1 = s → entry.2.type = .commit ∧
      ∀ w ∈ latest m primaryKey, w.startTs ≠ s ∧ w.commitTs < p.2) ∧
    (p.1 ≠ s → ∀ w ∈ latest m primaryKey, w.startTs = s → p.2 < w.commitTs)

instance (primaryKey : Bytes) (s : ℤ) (m : MVCCStateMachine) (entry : Time × Command) :
    Decidable (Unshadowed primaryKey s m entry) := by
  unfold Unshadowed
  infer_instance

variable {m m' : MVCCStateMachine} {cmd : Command} {now : Time} {r : ApplyResult}
  {primaryKey : Bytes} {s : ℤ}

theorem newest_latest (m : MVCCStateMachine) (hkey : ValidKey key) :
    Newest (m.maps.record key) ((latest m key).map fun w => (w.commitTs, w.startTs)) := by
  obtain ⟨w, hw, hnew⟩ := MVCCStorage.getLatestWrite_valid m.storage hkey
  rw [latest, getWriteRecord, hw]
  exact hnew

theorem latest_of_newest (hkey : ValidKey key) (h : Newest (m.maps.record key) (some (c, s))) :
    latest m key = some ⟨s, c⟩ := by
  have heq := Newest.unique (newest_latest m hkey) h
  obtain ⟨w, hw, hpair⟩ := map_eq_some_iff.1 heq
  obtain ⟨rfl, rfl⟩ := Prod.mk.inj hpair
  exact hw

theorem record_of_latest (hkey : ValidKey key) {w : WriteRecord} (h : latest m key = some w) :
    Newest (m.maps.record key) (some (w.commitTs, w.startTs)) := by
  have hnew := newest_latest m hkey
  rwa [h] at hnew

/-- The commits `C` of transaction `s` are its records on the primary key, and such a record
is the newest. -/
structure Decided (primaryKey : Bytes) (s : ℤ) (C : ℤ → Prop) (m : MVCCStateMachine) : Prop where
  record_iff (c : ℤ) : m.maps.record primaryKey c = some s ↔ C c
  newest {c c' s' : ℤ} (h : C c) (h' : m.maps.record primaryKey c' = some s') : c' ≤ c

variable {C : ℤ → Prop}

theorem decided_empty : Decided primaryKey s (fun _ => False) empty where
  record_iff c := by simp [maps, MVCCStateMachine.empty]
  newest h := h.elim

section

variable (h : Decided primaryKey s C m)
include h

theorem Decided.newest_some (hc : C c) : Newest (m.maps.record primaryKey) (some (c, s)) := by
  refine .some ((h.record_iff c).2 hc) fun c' hlt => ?_
  rcases hrec : m.maps.record primaryKey c' with _ | s'
  · rfl
  · exact absurd (h.newest hc hrec) (not_le.2 hlt)

/-- The records of the primary key are as they were. -/
theorem Decided.same (hrec : ∀ c, m'.maps.record primaryKey c = m.maps.record primaryKey c) :
    Decided primaryKey s C m' where
  record_iff c := by rw [hrec]; exact h.record_iff c
  newest hc h' := h.newest hc ((hrec _).symm.trans h')

/-- Another transaction's record goes below. -/
theorem Decided.below (hkey : ValidKey primaryKey) {s₀ t : ℤ} (hne : s₀ ≠ s)
    (hlow : ∀ w ∈ latest m primaryKey, w.startTs = s → t < w.commitTs)
    (hrec : ∀ c, m'.maps.record primaryKey c =
      if c = t then some s₀ else m.maps.record primaryKey c) :
    Decided primaryKey s C m' := by
  have hlt : ∀ {c}, C c → t < c := fun {c} hc =>
    hlow ⟨s, c⟩ (latest_of_newest hkey (h.newest_some hc)) rfl
  constructor
  · intro c
    rw [hrec]
    by_cases hct : c = t
    · subst hct
      refine ⟨fun heq => absurd (some.inj (by simpa using heq)) hne, fun hc => ?_⟩
      exact absurd (hlt hc) (lt_irrefl _)
    · rw [if_neg hct]
      exact h.record_iff c
  · intro c c' s' hc h'
    rw [hrec] at h'
    by_cases hct : c' = t
    · exact hct ▸ (hlt hc).le
    · rw [if_neg hct] at h'
      exact h.newest hc h'

/-- The transaction's own record goes on top. -/
theorem Decided.commit (hkey : ValidKey primaryKey) {c₀ : ℤ}
    (hhigh : ∀ w ∈ latest m primaryKey, w.startTs ≠ s ∧ w.commitTs < c₀)
    (hrec : ∀ c, m'.maps.record primaryKey c =
      if c = c₀ then some s else m.maps.record primaryKey c) :
    Decided primaryKey s (fun c => C c ∨ c = c₀) m' := by
  have hnone : ∀ {c}, ¬ C c := fun {c} hc =>
    (hhigh ⟨s, c⟩ (latest_of_newest hkey (h.newest_some hc))).1 rfl
  constructor
  · intro c
    rw [hrec]
    by_cases hc : c = c₀
    · simp [hc]
    · rw [if_neg hc, h.record_iff]
      exact ⟨.inl, fun h => h.resolve_right hc⟩
  · intro c c' s' hc h'
    obtain rfl := hc.resolve_left hnone
    rw [hrec] at h'
    by_cases heq : c' = c
    · exact heq.le
    rw [if_neg heq] at h'
    -- every record is at or below the newest, and the newest is below the commit
    have hnew := newest_latest m hkey
    rcases hw : latest m primaryKey with _ | w
    · rw [hw] at hnew
      cases hnew with
      | none hall => rw [hall] at h'; cases h'
    · rw [hw] at hnew
      exact (Newest.le hnew h').trans (hhigh w hw).2.le

end

/-- A command that is no successful commit of the transaction adds nothing to its history. -/
theorem Decided.quiet (h : Decided primaryKey s C m')
    (hno : ∀ c, ¬ CommitOf cmd r primaryKey s c) :
    Decided primaryKey s (fun c => C c ∨ CommitOf cmd r primaryKey s c) m' where
  record_iff c := (h.record_iff c).trans ⟨.inl, fun hc => hc.resolve_right (hno c)⟩
  newest hc h' := h.newest (hc.resolve_right (hno _)) h'

/-- **Step.**  A command that leaves the record uppermost keeps the verdict readable. -/
theorem Decided.applied (h : Decided primaryKey s C m)
    (hun : Unshadowed primaryKey s m (now, cmd)) (happ : Applied now m cmd m' r)
    (hr : (apply now m cmd).2 = r) :
    Decided primaryKey s (fun c => C c ∨ CommitOf cmd r primaryKey s c) m' := by
  have htyped : cmd.type ≠ .commit → ∀ c, ¬ CommitOf cmd r primaryKey s c :=
    fun hne c hc => hne hc.type
  cases happ with
  | refused hno =>
    exact h.quiet fun c hc => absurd (hno.symm.trans hc.success) Bool.false_ne_true
  | kept htype =>
    refine h.quiet (htyped fun hc => ?_)
    rcases htype with ⟨htype, -⟩ | htype <;> (rw [hc] at htype; cases htype)
  | wrote htype hkey ht hvalid hs hmaps =>
    exact (h.same fun c => by rw [hmaps]; rfl).quiet (htyped (by simp [htype]))
  | halfCopied hr htype hkey ht hs hinvalid hmaps =>
    exact (h.same fun c => by rw [hmaps]; rfl).quiet (htyped (by simp [htype]))
  | deleted htype hkey ht hvalid hmaps =>
    exact (h.same fun c => by rw [hmaps]; rfl).quiet (htyped (by simp [htype]))
  | locked htype hkey hvalue hs hp hvalid hfree hrecord hversion hmaps =>
    exact (h.same fun c => by rw [hmaps]; rfl).quiet (htyped (by simp [htype]))
  | unlocked htype hkey hlock hmaps =>
    refine (h.same fun c => by rw [hmaps]; rfl).quiet (htyped fun hc => ?_)
    rcases htype with ⟨htype, -⟩ | ⟨htype, -⟩ <;> (rw [hc] at htype; cases htype)
  | @copied _ k v t s₀ htype hkey ht hvalid hs hmaps =>
    refine Decided.quiet ?_ (htyped (by simp [htype]))
    by_cases hpk : k = primaryKey
    · subst hpk
      have hplant : planted m now cmd = some (s₀, t) := by
        simp [planted, hr, ApplyResult.ok, htype, hs, ht]
      obtain ⟨hown, hother⟩ := hun hkey (s₀, t) hplant
      have hne : s₀ ≠ s := fun heq => by simpa [htype] using (hown heq).1
      exact h.below hvalid.1 hne (hother hne) fun c => by
        rw [hmaps, putRecord_record]
        simp
    · exact h.same fun c => by
        rw [hmaps, putRecord_record, if_neg fun hc => hpk hc.1.symm]
        rfl
  | @committed _ k s₀ c₀ f htype hkey hs hc hvalid hlock hstatus hmaps =>
    by_cases hpk : k = primaryKey
    · subst hpk
      have hplant : planted m now cmd = some (s₀, c₀) := by
        simp [planted, hr, ApplyResult.ok, htype, hs, hc]
      obtain ⟨hown, hother⟩ := hun hkey (s₀, c₀) hplant
      have hrec : ∀ c, m'.maps.record k c = if c = c₀ then some s₀ else m.maps.record k c := by
        intro c
        rw [hmaps, setLock_record, putRecord_record]
        simp
      by_cases heq : s₀ = s
      · subst heq
        have hcommit : ∀ c, CommitOf cmd .ok k s₀ c ↔ c = c₀ := fun c =>
          ⟨fun hcom => some.inj (hcom.commitTs.symm.trans hc),
            fun hcc => ⟨htype, hkey, hs, hcc ▸ hc, rfl⟩⟩
        simp only [hcommit]
        exact h.commit hvalid.1 (hown rfl).2 hrec
      · refine (h.below hvalid.1 heq (hother heq) hrec).quiet fun c hcom => ?_
        exact heq (some.inj (hs.symm.trans hcom.startTs))
    · refine Decided.quiet (h.same fun c => ?_) fun c hcom => ?_
      · rw [hmaps, setLock_record, putRecord_record, if_neg fun hc => hpk hc.1.symm]
        rfl
      · exact hpk (some.inj (hkey.symm.trans hcom.key))

/-- **Run.**  The records of a transaction on its primary key are its commits in the log. -/
theorem decided_replay (log : History)
    (h : Transition.Along logStep (Unshadowed primaryKey s) empty log) :
    Decided primaryKey s (fun c => ∃ i, Commits log i primaryKey s c) (replay log) := by
  induction log using List.reverseRecOn with
  | nil =>
    have hnone : (fun c => ∃ i, Commits [] i primaryKey s c) = fun _ => False := by
      funext c
      refine propext ⟨?_, False.elim⟩
      rintro ⟨i, now, cmd, hget, -⟩
      cases hget
    rw [hnone]
    exact decided_empty
  | append_singleton log entry ih =>
    obtain ⟨now, cmd⟩ := entry
    have hlast := (h.right (run_logStep log)).1
    have hstep := (ih h.left).applied hlast (apply_applied now (replay log) cmd) rfl
    rw [replay_concat]
    simp only [commits_concat]
    exact hstep

/-! ## The verdict -/

section

variable {key : Bytes} (m : MVCCStateMachine)

theorem getWriteRecord_eq (hkey : ValidKey key) : m.getWriteRecord key = .ok (latest m key) := by
  obtain ⟨w, hw, -⟩ := MVCCStorage.getLatestWrite_valid m.storage hkey
  rw [latest, getWriteRecord, hw]

theorem getLockStatus_ok (hkey : ValidKey key) : ∃ lock?, m.getLockStatus key = .ok lock? := by
  obtain ⟨r, hr, -⟩ := MVCCStorage.getNewestLock_valid m.storage hkey
  exact ⟨_, hr⟩

/-- A key with the separator has no machine answer. -/
theorem getWriteRecord_invalid (hkey : ¬ ValidKey key) : ∃ e, m.getWriteRecord key = .error e := by
  refine ⟨"keys must not contain the 0x00 separator byte", ?_⟩
  have hsep : sep ∈ key := not_not.1 hkey
  simp [getWriteRecord, MVCCStorage.getLatestWrite, checkUserKey, hsep, bind, Except.bind]

end

theorem primaryStatus_committed {resolver : LockResolver} {now : Time} :
    resolver.primaryStatus now (some m) primaryKey s = .ok .committed ↔
      ValidKey primaryKey ∧ ∃ c, latest m primaryKey = some ⟨s, c⟩ := by
  by_cases hkey : ValidKey primaryKey
  · obtain ⟨lock?, hlock⟩ := getLockStatus_ok m hkey
    simp only [LockResolver.primaryStatus, getWriteRecord_eq m hkey, hlock, bind, Except.bind]
    rcases hl : latest m primaryKey with _ | ⟨s', c⟩
    · simp only [any_none, Bool.false_eq_true, if_false]
      constructor
      · intro h
        split at h <;> cases h
      · rintro ⟨-, c, hc⟩
        cases hc
    · by_cases hs : s' = s
      · simp [hs, hkey, pure, Except.pure]
      simp only [any_some, hs, decide_false, Bool.false_eq_true, if_false]
      constructor
      · intro h
        split at h <;> cases h
      · rintro ⟨-, c', hc⟩
        exact absurd (congrArg WriteRecord.startTs (some.inj hc)) hs
  · obtain ⟨e, he⟩ := getWriteRecord_invalid m hkey
    simp [LockResolver.primaryStatus, he, hkey, bind, Except.bind]

theorem primaryCommitTs_of_latest (hkey : ValidKey primaryKey)
    (h : latest m primaryKey = some ⟨s, c⟩) :
    LockResolver.primaryCommitTs (some m) primaryKey s = .ok (some c) := by
  simp [LockResolver.primaryCommitTs, getWriteRecord_eq m hkey, h, bind, Except.bind, pure,
    Except.pure]

theorem Commits.validKey {log : History} {i : ℕ} {k : Bytes} {s : ℤ} (h : Commits log i k s c) :
    ValidKey k := by
  obtain ⟨now, cmd, -, hcom⟩ := h
  have happ := apply_applied now (replay (log.take i)) cmd
  obtain ⟨f, hlock, -⟩ := hcom.committed happ
  exact (MVCCStorage.valid_of_lockAt hlock).1

/-- **The verdict is the history**, in every log each of whose commands leaves the record of
the transaction uppermost on its primary key. -/
theorem verdict_is_history (log : History) (primaryKey : Bytes) (s : ℤ)
    (h : Transition.Along logStep (Unshadowed primaryKey s) empty log) (resolver : LockResolver)
    (now : Time) :
    (resolver.primaryStatus now (some (replay log)) primaryKey s = .ok .committed ↔
      ∃ i c, Commits log i primaryKey s c) ∧
    ∀ i c key lock, Commits log i primaryKey s c → lock.primaryKey = primaryKey →
      lock.startTs = s → resolver.resolveLock now (some (replay log)) (some (replay log)) key lock =
        .ok (some (.commit key s c)) := by
  have hdec := decided_replay log h
  have hlatest : ∀ {i c}, Commits log i primaryKey s c →
      latest (replay log) primaryKey = some ⟨s, c⟩ :=
    fun {i c} hc => latest_of_newest (Commits.validKey hc) (hdec.newest_some ⟨i, hc⟩)
  have hstatus : ∀ {i c}, Commits log i primaryKey s c →
      resolver.primaryStatus now (some (replay log)) primaryKey s = .ok .committed :=
    fun {i c} hc => primaryStatus_committed.2 ⟨Commits.validKey hc, c, hlatest hc⟩
  refine ⟨⟨fun hverdict => ?_, fun ⟨i, c, hc⟩ => hstatus hc⟩, ?_⟩
  · obtain ⟨hkey, c, hc⟩ := primaryStatus_committed.1 hverdict
    have hnew := record_of_latest hkey hc
    cases hnew with
    | some hrec _ =>
      obtain ⟨i, hi⟩ := (hdec.record_iff c).1 hrec
      exact ⟨i, c, hi⟩
  · rintro i c key lock hc rfl rfl
    rw [LockResolver.resolveLock, hstatus hc]
    show (LockResolver.primaryCommitTs _ _ _ >>= _) = _
    rw [primaryCommitTs_of_latest (Commits.validKey hc) (hlatest hc)]
    rfl

/-- A transaction on two keys, of which the primary is committed. -/
def primaryCommitted : History :=
  [(0, .prewrite [7] [1] 1 [7]), (0, .commit [7] 1 2)]

/-- The lock it has left on its other key. -/
def strandedLock : Lock := ⟨.locked, [7], 0, [1], [8], 1⟩

theorem verdict_is_history_primaryCommitted :
    Transition.Along logStep (Unshadowed [7] 1) empty primaryCommitted ∧
      Commits primaryCommitted 1 [7] 1 2 ∧
      (LockResolver.mk 5).resolveLock 9 (some (replay primaryCommitted))
        (some (replay primaryCommitted)) [8] strandedLock = .ok (some (.commit [8] 1 2)) := by
  have h : Transition.Along logStep (Unshadowed [7] 1) empty primaryCommitted := by decide +kernel
  have hc : Commits primaryCommitted 1 [7] 1 2 := ⟨0, .commit [7] 1 2, rfl, by decide +kernel⟩
  exact ⟨h, hc, (verdict_is_history primaryCommitted [7] 1 h ⟨5⟩ 9).2 1 2 [8] strandedLock hc rfl
    rfl⟩

/-- The primary key after one more transaction has committed on it. -/
def primaryOverwritten : History :=
  primaryCommitted ++ [(0, .prewrite [7] [2] 3 [7]), (0, .commit [7] 3 4)]

/-- **One later commit on the primary key, and the verdict is wrong**: the transaction has
committed, the status says it aborted, and its other lock is rolled back. -/
theorem later_commit_hides_verdict :
    Commits primaryOverwritten 1 [7] 1 2 ∧
      (LockResolver.mk 5).primaryStatus 9 (some (replay primaryOverwritten)) [7] 1 =
        .ok .aborted ∧
      (LockResolver.mk 5).resolveLock 9 (some (replay primaryOverwritten))
        (some (replay primaryOverwritten)) [8] strandedLock = .ok (some (.rollback [8] 1)) :=
  ⟨⟨0, .commit [7] 1 2, rfl, by decide +kernel⟩, by decide +kernel, by decide +kernel⟩

end OxideDB.Txn

