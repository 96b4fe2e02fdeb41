import OxideDB.Storage.Locking

/-!
# A command that is proposed again

A walk that has lost an answer asks another node, and the command may be in the log twice.  The
second application finds what the first one left: `PREWRITE` its own lock, `COMMIT` and `ROLLBACK` no
lock at all.  None of the three changes anything then, but only `ROLLBACK` takes that for success.
-/

namespace OxideDB.Storage.MVCCStateMachine

open List

open Raft (Bytes ApplyResult)
open MVCCStorage (lockOf getLock_valid)

variable {m m' : MVCCStateMachine} {cmd : Command} {now : Time} {r : ApplyResult} {k : Bytes} {s : ℤ}
  {f : LockFields}

/-! ## Commands on other keys -/

/-- A command touches the rows of its own key only. -/
theorem Applied.frame (h : Applied now m cmd m' r) (hne : cmd.key ≠ some k) :
    m'.maps.version k = m.maps.version k ∧ m'.maps.record k = m.maps.record k ∧
      m'.maps.lock k = m.maps.lock k := by
  have hother : ∀ {key : Bytes} {t t' : ℤ}, cmd.key = some key → ¬ (k = key ∧ t = t') := by
    rintro key t t' hkey ⟨rfl, -⟩
    exact hne hkey
  have hversion : ∀ {key : Bytes} {t : ℤ} {w : Option Bytes} {M : Maps}, cmd.key = some key →
      (M.putVersion key t w).version k = M.version k := fun hkey =>
    funext fun t' => by rw [Maps.putVersion_version, if_neg (hother hkey)]
  have hrecord : ∀ {key : Bytes} {t s : ℤ} {M : Maps}, cmd.key = some key →
      (M.putRecord key t s).record k = M.record k := fun hkey =>
    funext fun t' => by rw [Maps.putRecord_record, if_neg (hother hkey)]
  have hlock : ∀ {key : Bytes} {t : ℤ} {lock? : Option LockFields} {M : Maps},
      cmd.key = some key → (M.setLock key t lock?).lock k = M.lock k := fun hkey =>
    funext fun t' => by rw [Maps.setLock_lock, if_neg (hother hkey)]
  cases h with
  | refused | kept => exact ⟨rfl, rfl, rfl⟩
  | wrote _ hkey _ _ _ hmaps | deleted _ hkey _ _ hmaps | halfCopied _ _ hkey _ _ _ hmaps =>
    rw [hmaps]
    exact ⟨hversion hkey, rfl, rfl⟩
  | copied _ hkey _ _ _ hmaps =>
    rw [hmaps]
    exact ⟨hversion hkey, hrecord hkey, rfl⟩
  | locked _ hkey _ _ _ _ _ _ _ hmaps =>
    rw [hmaps]
    exact ⟨rfl, rfl, hlock hkey⟩
  | committed _ hkey _ _ _ _ _ hmaps =>
    rw [hmaps]
    exact ⟨hversion hkey, hrecord hkey, hlock hkey⟩
  | unlocked _ hkey _ hmaps =>
    rw [hmaps]
    exact ⟨rfl, rfl, hlock hkey⟩

theorem lock_frame_replay (log : History) {between : History}
    (hother : ∀ e ∈ between, e.2.key ≠ some k) :
    (replay (log ++ between)).maps.lock k = (replay log).maps.lock k := by
  induction between using reverseRecOn with
  | nil => rw [append_nil]
  | append_singleton between entry ih =>
    have hentry := hother entry (mem_append_right _ (mem_singleton_self _))
    rw [← append_assoc, replay_concat, ((apply_applied ..).frame hentry).2.2]
    exact ih fun e he => hother e (mem_append_left _ he)

/-! ## The second application -/

/-- `PREWRITE` of a key that is locked, by whomever. -/
theorem apply_prewrite_held (htype : cmd.type = .prewrite) (hkey : cmd.key = some k)
    (hlock : m.storage.getNewestLock (some k) = .ok (some (lockOf k s f)))
    (hstatus : f.status = .locked) : ∃ msg, apply now m cmd = (m, .failure .errLocked msg) := by
  obtain ⟨status, p, t, v⟩ := f
  obtain rfl : status = .locked := hstatus
  have hrefusal : ∃ msg, prewriteRefusal cmd m.storage = .ok (some (.failure .errLocked msg)) := by
    rw [prewriteRefusal, hkey, hlock]
    exact ⟨_, rfl⟩
  obtain ⟨msg, hrefusal⟩ := hrefusal
  refine ⟨msg, ?_⟩
  rw [apply_eq]
  simp only [dispatch, htype, applyPrewrite, bind_run, ask_run, hrefusal]
  rfl

/-- The lock a `COMMIT` or a `ROLLBACK` asks for, on a key without locks. -/
theorem getLock_free (hk : ValidKey k) (hs : ValidTs s) (hfree : ∀ s, m.maps.lock k s = none) :
    m.storage.getLock (some k) (some s) = .ok none := by
  rw [getLock_valid hk hs]
  exact congrArg (fun lock? => Except.ok (Option.map (lockOf k s) lock?)) (hfree s)

/-- `COMMIT` of a key without locks. -/
theorem apply_commit_free (htype : cmd.type = .commit) (hkey : cmd.key = some k)
    (hs : cmd.startTs = some s) (hvalid : ValidKey k ∧ ValidTs s)
    (hfree : ∀ s, m.maps.lock k s = none) :
    ∃ msg, apply now m cmd = (m, .failure .errNoLock msg) := by
  rw [apply_eq]
  simp only [dispatch, htype, applyCommit, bind_run, ask_run, hkey, hs,
    getLock_free hvalid.1 hvalid.2 hfree, getNewestLock_free hvalid.1 hfree]
  exact ⟨_, rfl⟩

/-- `ROLLBACK` of a key without locks. -/
theorem apply_rollback_free (htype : cmd.type = .rollback) (hkey : cmd.key = some k)
    (hs : cmd.startTs = some s) (hvalid : ValidKey k ∧ ValidTs s)
    (hfree : ∀ s, m.maps.lock k s = none) : apply now m cmd = (m, .ok) := by
  rw [apply_eq]
  simp only [dispatch, htype, applyRollback, bind_run, ask_run, hkey, hs,
    getLock_free hvalid.1 hvalid.2 hfree, getNewestLock_free hvalid.1 hfree]
  rfl

/-! ## What the first application left -/

theorem Tidy.free_of_removed (hm : Tidy m) (hlock : m.maps.lock k s = some f)
    (hremoved : m'.maps.lock k = (m.maps.setLock k s none).lock k) (s' : ℤ) :
    m'.maps.lock k s' = none := by
  rw [hremoved, Maps.setLock_lock]
  split
  · rfl
  next hne =>
    rcases hs' : m.maps.lock k s' with _ | f'
    · rfl
    · exact absurd ⟨rfl, hm.single hs' hlock⟩ hne

theorem prewrite_left (htype : cmd.type = .prewrite) (h : Applied now m cmd m' r)
    (hok : r.success = true) :
    ∃ k s f, cmd.key = some k ∧ m'.maps.lock k s = some f := by
  cases h with
  | refused hr => cases hr.symm.trans hok
  | halfCopied hr => cases hr.symm.trans hok
  | @locked _ k v p s _ hkey _ _ _ _ _ _ _ hmaps =>
    refine ⟨k, s, ⟨.locked, p, now, v⟩, hkey, ?_⟩
    rw [hmaps, Maps.setLock_lock, if_pos ⟨rfl, rfl⟩]
  | kept h' => rcases h' with ⟨h', -⟩ | h' <;> cases htype.symm.trans h'
  | unlocked h' => rcases h' with ⟨h', -⟩ | ⟨h', -⟩ <;> cases htype.symm.trans h'
  | wrote h' | copied h' | deleted h' | committed h' => cases htype.symm.trans h'

theorem commit_left (hm : Tidy m) (htype : cmd.type = .commit) (h : Applied now m cmd m' r)
    (hok : r.success = true) : ∃ k s, cmd.key = some k ∧ cmd.startTs = some s ∧
      (ValidKey k ∧ ValidTs s) ∧ ∀ s, m'.maps.lock k s = none := by
  cases h with
  | refused hr => cases hr.symm.trans hok
  | halfCopied hr => cases hr.symm.trans hok
  | committed _ hkey hs _ hvalid hlock _ hmaps =>
    exact ⟨_, _, hkey, hs, ⟨hvalid.1, hvalid.2.1⟩, hm.free_of_removed hlock (by rw [hmaps]; rfl)⟩
  | kept h' => rcases h' with ⟨h', -⟩ | h' <;> cases htype.symm.trans h'
  | unlocked h' => rcases h' with ⟨h', -⟩ | ⟨h', -⟩ <;> cases htype.symm.trans h'
  | wrote h' | copied h' | deleted h' | locked h' => cases htype.symm.trans h'

/-- A `ROLLBACK` that succeeds has had its key and its transaction checked. -/
theorem rollback_valid (htype : cmd.type = .rollback) (hok : (apply now m cmd).2.success = true) :
    ∃ k s, cmd.key = some k ∧ cmd.startTs = some s ∧ ValidKey k ∧ ValidTs s := by
  rw [apply_eq] at hok
  simp only [dispatch, htype, applyRollback, bind_run, ask_run] at hok
  rcases hget : m.storage.getLock cmd.key cmd.startTs with e | lock?
  · rw [hget] at hok
    cases hok
  · obtain ⟨k, s, hkey, hs, hk, hvs, -⟩ := getLock_ok hget
    exact ⟨k, s, hkey, hs, hk, hvs⟩

theorem rollback_left (hm : Tidy m) (htype : cmd.type = .rollback) (hkey : cmd.key = some k)
    (h : Applied now m cmd m' r) (hok : r.success = true) (s : ℤ) : m'.maps.lock k s = none := by
  cases h with
  | refused hr => cases hr.symm.trans hok
  | halfCopied hr => cases hr.symm.trans hok
  | kept h' =>
    rcases h' with ⟨-, k', hkey', hfree⟩ | h'
    · cases hkey.symm.trans hkey'
      exact hfree s
    · cases htype.symm.trans h'
  | unlocked _ hkey' hlock hmaps =>
    cases hkey.symm.trans hkey'
    exact hm.free_of_removed hlock (by rw [hmaps]) s
  | wrote h' | copied h' | deleted h' | locked h' | committed h' => cases htype.symm.trans h'

/-! ## Proposed again -/

/-- **A command that is proposed again changes nothing**: a `PREWRITE`, `COMMIT` or `ROLLBACK` that
has succeeded leaves the state as it is when it is applied once more, whatever was done to other keys
in between.  A `ROLLBACK` is told so; a `PREWRITE` is told that its key is locked, a `COMMIT` that
there is no lock. -/
theorem reproposed_command (log between : History) (now now' : Time) (cmd : Command)
    (hcmd : cmd.type = .prewrite ∨ cmd.type = .commit ∨ cmd.type = .rollback)
    (hok : (apply now (replay log) cmd).2.success = true)
    (hother : ∀ e ∈ between, e.2.key ≠ cmd.key) :
    ∃ answer, apply now' (replay (log ++ [(now, cmd)] ++ between)) cmd =
        (replay (log ++ [(now, cmd)] ++ between), answer) ∧
      (cmd.type = .prewrite → answer.success = false ∧ answer.errorCode = some .errLocked) ∧
      (cmd.type = .commit → answer.success = false ∧ answer.errorCode = some .errNoLock) ∧
      (cmd.type = .rollback → answer.success = true) := by
  have htidy := tidy_replay log
  have htidy' := tidy_replay (log ++ [(now, cmd)] ++ between)
  have happ := apply_applied now (replay log) cmd
  have hframe : ∀ k, cmd.key = some k → (replay (log ++ [(now, cmd)] ++ between)).maps.lock k =
      (apply now (replay log) cmd).1.maps.lock k := by
    intro k hkey
    rw [lock_frame_replay _ fun e he => hkey ▸ hother e he, replay_concat]
  rcases hcmd with htype | htype | htype
  · obtain ⟨k, s, f, hkey, hlock⟩ := prewrite_left htype happ hok
    rw [← hframe k hkey] at hlock
    obtain ⟨msg, happly⟩ := apply_prewrite_held htype hkey (htidy'.getNewestLock hlock)
      (htidy'.status hlock)
    refine ⟨_, happly, fun _ => ⟨rfl, rfl⟩, fun h => ?_, fun h => ?_⟩ <;> cases htype.symm.trans h
  · obtain ⟨k, s, hkey, hs, hvalid, hfree⟩ := commit_left htidy htype happ hok
    rw [← hframe k hkey] at hfree
    obtain ⟨msg, happly⟩ := apply_commit_free htype hkey hs hvalid hfree
    refine ⟨_, happly, fun h => ?_, fun _ => ⟨rfl, rfl⟩, fun h => ?_⟩ <;> cases htype.symm.trans h
  · obtain ⟨k, s, hkey, hs, hvalid⟩ := rollback_valid htype hok
    have hfree := rollback_left htidy htype hkey happ hok
    rw [← hframe k hkey] at hfree
    have happly := @apply_rollback_free _ cmd now' _ _ htype hkey hs hvalid hfree
    refine ⟨_, happly, fun h => ?_, fun h => ?_, fun _ => rfl⟩ <;> cases htype.symm.trans h

/-- A lock is taken and let go, another key is written, and the lock is let go again. -/
theorem reproposed_rollback :
    (apply 1 (replay [(0, .prewrite [97] [1] 1 [97])]) (.rollback [97] 1)).2.success = true ∧
    ∃ answer, apply 3
        (replay ([(0, .prewrite [97] [1] 1 [97])] ++ [(1, .rollback [97] 1)] ++
          [(2, .prewrite [98] [2] 4 [98])])) (.rollback [97] 1) =
        (replay ([(0, .prewrite [97] [1] 1 [97])] ++ [(1, .rollback [97] 1)] ++
          [(2, .prewrite [98] [2] 4 [98])]), answer) ∧ answer.success = true := by
  have hok : (apply 1 (replay [(0, .prewrite [97] [1] 1 [97])])
      (.rollback [97] 1)).2.success = true := by decide +kernel
  obtain ⟨answer, happly, -, -, hanswer⟩ := reproposed_command [(0, .prewrite [97] [1] 1 [97])]
    [(2, .prewrite [98] [2] 4 [98])] 1 3 (.rollback [97] 1) (.inr (.inr rfl)) hok
    (fun e he => by rw [mem_singleton.1 he]; decide)
  exact ⟨hok, answer, happly, hanswer rfl⟩

/-- **A `COMMIT` that is proposed again is told that it failed**: the first application wrote the
version, the second one finds no lock. -/
theorem reproposed_commit_refused :
    ¬ ∀ (log between : History) (now now' : Time) (cmd : Command),
      cmd.type = .prewrite ∨ cmd.type = .commit ∨ cmd.type = .rollback →
      (apply now (replay log) cmd).2.success = true → (∀ e ∈ between, e.2.key ≠ cmd.key) →
      (apply now' (replay (log ++ [(now, cmd)] ++ between)) cmd).2.success = true ∧
        (apply now' (replay (log ++ [(now, cmd)] ++ between)) cmd).1 =
          replay (log ++ [(now, cmd)] ++ between) := by
  intro h
  have hagain := (h [(0, .prewrite [97] [1] 1 [97])] [] 1 2 (.commit [97] 1 2) (.inr (.inl rfl))
    (by decide +kernel) nofun).1
  exact absurd hagain (by decide +kernel)

end OxideDB.Storage.MVCCStateMachine
