import OxideDB.Storage.StateMachine

/-!
# One lock per key, and the first committer wins

`PREWRITE` takes a lock only where there is none and where nothing newer than its transaction
has been written, so a key has one lock at a time (`Tidy`) and a lock is above everything
that was committed on its key before (`Guarded`).  Two transactions that commit on one key
have therefore not overlapped.

* `Tidy.apply` — every command keeps one lock per key.
* `Guarded.apply` — every command keeps the locks above the commits.
-/

namespace OxideDB.Storage

open Raft (Bytes ApplyResult)

variable {k key : Bytes} {f : LockFields} {M : Maps} {s c t : ℤ}

namespace MVCCStateMachine

open List MVCCStorage

/-- A log of commands, each with the clock reading it was applied under. -/
abbrev History := List (Time × Command)

variable {log : History}

/-- The machine after a log, from an empty keyspace. -/
def replay (log : History) : MVCCStateMachine :=
  log.foldl (fun m entry => (apply entry.1 m entry.2).1) empty

theorem replay_concat (log : History) (now : Time) (cmd : Command) :
    replay (log ++ [(now, cmd)]) = (apply now (replay log) cmd).1 := by
  simp [replay, foldl_append]

/-- What every command keeps, every log keeps. -/
theorem replay_invariant {I : MVCCStateMachine → Prop} (hinit : I empty)
    (hstep : ∀ now m cmd, I m → I (apply now m cmd).1) (log : History) : I (replay log) := by
  induction log using reverseRecOn with
  | nil => exact hinit
  | append_singleton log entry ih =>
    obtain ⟨now, cmd⟩ := entry
    rw [replay_concat]
    exact hstep now _ cmd ih

/-! ## One lock per key -/

/-- Every lock is a write intent, and no key has two. -/
structure Tidy (m : MVCCStateMachine) : Prop where
  status {k : Bytes} {s : ℤ} {f : LockFields} (h : m.maps.lock k s = some f) : f.status = .locked
  single {k : Bytes} {s s' : ℤ} {f f' : LockFields} (h : m.maps.lock k s = some f)
    (h' : m.maps.lock k s' = some f') : s = s'

variable {m m' : MVCCStateMachine} {cmd : Command} {now : Time} {r : ApplyResult}

theorem tidy_empty : Tidy empty where
  status h := by simp [maps, empty] at h
  single h := by simp [maps, empty] at h

theorem Tidy.newest (hm : Tidy m) (h : m.maps.lock k s = some f) :
    Newest (m.maps.lock k) (some (s, f)) := by
  refine .some h fun t ht => ?_
  rcases hl : m.maps.lock k t with _ | f'
  · rfl
  · exact absurd (hm.single h hl) ht.ne

/-- The one lock of a key is what a lookup finds. -/
theorem Tidy.getNewestLock (hm : Tidy m) (hlock : m.maps.lock k s = some f) :
    m.storage.getNewestLock (some k) = .ok (some (lockOf k s f)) := by
  obtain ⟨hk, -⟩ := valid_of_lockAt hlock
  obtain ⟨newest, hget, hnew⟩ := getNewestLock_valid m.storage hk
  obtain rfl := Newest.unique hnew (hm.newest hlock)
  exact hget

theorem getNewestLock_free (hk : ValidKey k) (hfree : ∀ s, m.maps.lock k s = none) :
    m.storage.getNewestLock (some k) = .ok none := by
  obtain ⟨newest, hget, hnew⟩ := getNewestLock_valid m.storage hk
  obtain rfl := Newest.unique hnew (.none hfree)
  exact hget

/-- Where the newest lock is not held, there is none. -/
theorem Tidy.free (hm : Tidy m)
    (hfree : ∀ t f, Newest (m.maps.lock k) (some (t, f)) → f.status ≠ .locked) (s : ℤ) :
    m.maps.lock k s = none := by
  rcases hl : m.maps.lock k s with _ | f
  · rfl
  · exact absurd (hm.status hl) (hfree s f (hm.newest hl))

/-- Locks that were there before are kept tidy by leaving them or removing them. -/
theorem Tidy.of_sub (hm : Tidy m)
    (hsub : ∀ k s f, m'.maps.lock k s = some f → m.maps.lock k s = some f) : Tidy m' where
  status h := hm.status (hsub _ _ _ h)
  single h h' := hm.single (hsub _ _ _ h) (hsub _ _ _ h')

theorem lock_of_setLock_none (h : (M.setLock key t none).lock k s = some f) :
    M.lock k s = some f := by
  rw [Maps.setLock_lock] at h
  split at h
  · cases h
  · exact h

theorem Tidy.applied (hm : Tidy m) (h : Applied now m cmd m' r) : Tidy m' := by
  cases h with
  | refused | kept => exact hm
  | wrote htype hkey ht hvalid hs hmaps => exact hm.of_sub fun k s f h => by rwa [hmaps] at h
  | copied htype hkey ht hvalid hs hmaps => exact hm.of_sub fun k s f h => by rwa [hmaps] at h
  | halfCopied hr htype hkey ht hs hinvalid hmaps =>
    exact hm.of_sub fun k s f h => by rwa [hmaps] at h
  | deleted htype hkey ht hvalid hmaps => exact hm.of_sub fun k s f h => by rwa [hmaps] at h
  | @locked _ k v p s htype hkey hvalue hs hp hvalid hfree hrecord hversion hmaps =>
    have hnone := hm.free hfree
    have hlock : ∀ k' s' f, m'.maps.lock k' s' = some f →
        k' = k ∧ s' = s ∧ f.status = .locked ∨ k' ≠ k ∧ m.maps.lock k' s' = some f := by
      intro k' s' f hl
      rw [hmaps, Maps.setLock_lock] at hl
      by_cases heq : k' = k ∧ s' = s
      · rw [if_pos heq] at hl
        cases hl
        exact .inl ⟨heq.1, heq.2, rfl⟩
      · rw [if_neg heq] at hl
        refine .inr ⟨?_, hl⟩
        rintro rfl
        rw [hnone] at hl
        cases hl
    constructor
    · intro k' s' f hl
      rcases hlock k' s' f hl with ⟨-, -, hst⟩ | ⟨-, hl⟩
      · exact hst
      · exact hm.status hl
    · intro k' s₁ s₂ f₁ f₂ h₁ h₂
      rcases hlock k' s₁ f₁ h₁ with ⟨rfl, rfl, -⟩ | ⟨hne, h₁⟩
      · rcases hlock k' s₂ f₂ h₂ with ⟨-, rfl, -⟩ | ⟨hne, -⟩
        · rfl
        · exact absurd rfl hne
      · rcases hlock k' s₂ f₂ h₂ with ⟨rfl, -, -⟩ | ⟨-, h₂⟩
        · exact absurd rfl hne
        · exact hm.single h₁ h₂
  | committed htype hkey hs hc hvalid hlock hstatus hmaps =>
    exact hm.of_sub fun k s f h => by
      rw [hmaps] at h
      exact lock_of_setLock_none h
  | unlocked htype hkey hlock hmaps =>
    exact hm.of_sub fun k s f h => by
      rw [hmaps] at h
      exact lock_of_setLock_none h

theorem Tidy.apply (hm : Tidy m) (now : Time) (cmd : Command) : Tidy (apply now m cmd).1 :=
  hm.applied (apply_applied now m cmd)

theorem tidy_replay (log : History) : Tidy (replay log) :=
  replay_invariant tidy_empty (fun now _ cmd hm => hm.apply now cmd) log

/-! ## The first committer wins -/

/-- The command is a `COMMIT` of `k` for `s` at `c`, answered with success. -/
@[mk_iff]
structure CommitOf (cmd : Command) (r : ApplyResult) (k : Bytes) (s c : ℤ) : Prop where
  type : cmd.type = .commit
  key : cmd.key = some k
  startTs : cmd.startTs = some s
  commitTs : cmd.commitTs = some c
  success : r.success = true

instance (cmd : Command) (r : ApplyResult) (k : Bytes) (s c : ℤ) :
    Decidable (CommitOf cmd r k s c) :=
  decidable_of_iff' _ (commitOf_iff cmd r k s c)

/-- What a successful `COMMIT` found and left. -/
theorem CommitOf.committed (h : CommitOf cmd r k s c) (happ : Applied now m cmd m' r) :
    ∃ f, m.maps.lock k s = some f ∧ f.status = .locked ∧ m'.maps =
      ((m.maps.putVersion k c (some f.value)).putRecord k c s).setLock k s none := by
  cases happ with
  | refused hr => exact absurd (hr.symm.trans h.success) Bool.false_ne_true
  | halfCopied hr => exact absurd (hr.symm.trans h.success) Bool.false_ne_true
  | kept htype =>
    rcases htype with ⟨htype, -⟩ | htype <;> (rw [h.type] at htype; cases htype)
  | unlocked htype =>
    rcases htype with ⟨htype, -⟩ | ⟨htype, -⟩ <;> (rw [h.type] at htype; cases htype)
  | wrote htype => rw [h.type] at htype; cases htype
  | copied htype => rw [h.type] at htype; cases htype
  | deleted htype => rw [h.type] at htype; cases htype
  | locked htype => rw [h.type] at htype; cases htype
  | committed htype hkey hs hc hvalid hlock hstatus hmaps hlast =>
    cases h.key.symm.trans hkey
    cases h.startTs.symm.trans hs
    cases h.commitTs.symm.trans hc
    exact ⟨_, hlock, hstatus, hmaps⟩

/-- The commits `C` are recorded, and every lock is above those of its key. -/
structure Guarded (C : Bytes → ℤ → Prop) (m : MVCCStateMachine) : Prop where
  tidy : Tidy m
  recorded {k : Bytes} {c : ℤ} (h : C k c) : ∃ s, m.maps.record k c = some s
  above {k : Bytes} {c s : ℤ} {f : LockFields} (h : C k c) (hl : m.maps.lock k s = some f) : c ≤ s

variable {C : Bytes → ℤ → Prop}

/-- Records stay and no lock appears: the guard stands. -/
theorem Guarded.keep (hm : Guarded C m) (htidy : Tidy m')
    (hrec : ∀ k c s, m.maps.record k c = some s → ∃ s', m'.maps.record k c = some s')
    (hsub : ∀ k s f, m'.maps.lock k s = some f → m.maps.lock k s = some f) : Guarded C m' where
  tidy := htidy
  recorded h := by
    obtain ⟨s, hs⟩ := hm.recorded h
    exact hrec _ _ s hs
  above h hl := hm.above h (hsub _ _ _ hl)

theorem record_putRecord (k : Bytes) (c s₀ : ℤ) (h : M.record k c = some s₀) :
    ∃ s', (M.putRecord key t s).record k c = some s' := by
  rw [Maps.putRecord_record]
  by_cases heq : k = key ∧ c = t
  · exact ⟨s, if_pos heq⟩
  · exact ⟨s₀, (if_neg heq).trans h⟩

theorem Guarded.applied (hm : Guarded C m) (h : Applied now m cmd m' r) : Guarded C m' := by
  have htidy := hm.tidy.applied h
  cases h with
  | refused | kept => exact hm
  | wrote htype hkey ht hvalid hs hmaps =>
    exact hm.keep htidy (fun k c s h => ⟨s, by rwa [hmaps]⟩) fun k s f h => by rwa [hmaps] at h
  | copied htype hkey ht hvalid hs hmaps =>
    refine hm.keep htidy (fun k c s h => ?_) fun k s f h => by rwa [hmaps] at h
    rw [hmaps]
    exact record_putRecord k c s h
  | halfCopied hr htype hkey ht hs hinvalid hmaps =>
    exact hm.keep htidy (fun k c s h => ⟨s, by rwa [hmaps]⟩) fun k s f h => by rwa [hmaps] at h
  | deleted htype hkey ht hvalid hmaps =>
    exact hm.keep htidy (fun k c s h => ⟨s, by rwa [hmaps]⟩) fun k s f h => by rwa [hmaps] at h
  | @locked _ k v p s htype hkey hvalue hs hp hvalid hfree hrecord hversion hmaps =>
    refine ⟨htidy, fun {k' c} hC => ?_, fun {k' c s' f} hC hl => ?_⟩
    · rw [hmaps]
      exact hm.recorded hC
    rw [hmaps, Maps.setLock_lock] at hl
    by_cases heq : k' = k ∧ s' = s
    · -- the new lock is above every record, and what was committed is recorded
      obtain ⟨rfl, rfl⟩ := heq
      obtain ⟨s₀, hs₀⟩ := hm.recorded hC
      exact hrecord c s₀ hs₀
    · rw [if_neg heq] at hl
      exact hm.above hC hl
  | committed htype hkey hs hc hvalid hlock hstatus hmaps =>
    refine hm.keep htidy (fun k c s h => ?_) fun k s f h => ?_
    · rw [hmaps]
      exact record_putRecord k c s h
    · rw [hmaps] at h
      exact lock_of_setLock_none h
  | unlocked htype hkey hlock hmaps =>
    refine hm.keep htidy (fun k c s h => ⟨s, by rwa [hmaps]⟩) fun k s f h => ?_
    rw [hmaps] at h
    exact lock_of_setLock_none h

theorem Guarded.apply (hm : Guarded C m) (now : Time) (cmd : Command) :
    Guarded C (apply now m cmd).1 :=
  hm.applied (apply_applied now m cmd)

/-- A commit is guarded from then on: its lock, the only one of the key, is gone. -/
theorem guarded_of_commit (hm : Tidy m) (happ : Applied now m cmd m' r) (h : CommitOf cmd r k s c) :
    Guarded (fun k' c' => k' = k ∧ c' = c) m' where
  tidy := hm.applied happ
  recorded := by
    rintro k' c' ⟨rfl, rfl⟩
    obtain ⟨f, -, -, hmaps⟩ := h.committed happ
    rw [hmaps]
    exact ⟨s, if_pos ⟨rfl, rfl⟩⟩
  above := by
    rintro k' c' s' f' ⟨rfl, rfl⟩ hl
    obtain ⟨f, hlock, -, hmaps⟩ := h.committed happ
    rw [hmaps] at hl
    have hl' : m.maps.lock k' s' = some f' := lock_of_setLock_none hl
    obtain rfl := hm.single hl' hlock
    simp [Maps.setLock_lock] at hl

/-- The `i`-th command of a log is a `COMMIT` of `k` for `s` at `c`, and it succeeds. -/
def Commits (log : History) (i : ℕ) (k : Bytes) (s c : ℤ) : Prop :=
  ∃ now cmd, log[i]? = some (now, cmd) ∧
    CommitOf cmd (MVCCStateMachine.apply now (replay (log.take i)) cmd).2 k s c

/-- A later commit on a key belongs to a transaction that began after the earlier one ended. -/
theorem Commits.le_start {i j : ℕ} {s₁ s₂ c₁ c₂ : ℤ} (hi : Commits log i k s₁ c₁)
    (hj : Commits log j k s₂ c₂) (hij : i < j) : c₁ ≤ s₂ := by
  obtain ⟨now₁, cmd₁, hget₁, hcom₁⟩ := hi
  obtain ⟨now₂, cmd₂, hget₂, hcom₂⟩ := hj
  -- the guard that the first commit sets up stands until the second
  have hguard : ∀ n, i < n → n ≤ j →
      Guarded (fun k' c' => k' = k ∧ c' = c₁) (replay (log.take n)) := by
    intro n hin hnj
    induction n, hin using Nat.le_induction with
    | base =>
      rw [Nat.succ_eq_add_one, take_add_one, hget₁]
      exact (replay_concat ..).symm ▸
        guarded_of_commit (tidy_replay _) (apply_applied ..) hcom₁
    | succ n hin ih =>
      have hlen : n < log.length :=
        lt_trans (Nat.lt_of_succ_le hnj) (List.getElem?_eq_some_iff.1 hget₂).1
      rw [take_add_one, getElem?_eq_getElem hlen]
      obtain ⟨now, cmd⟩ := log[n]
      exact (replay_concat ..).symm ▸ (ih (Nat.le_of_succ_le hnj)).apply now cmd
  obtain ⟨f, hlock, -⟩ := hcom₂.committed (apply_applied ..)
  exact (hguard j hij le_rfl).above ⟨rfl, rfl⟩ hlock

/-- The commits of a log with one more command. -/
theorem commits_concat {now : Time} {cmd : Command} :
    (∃ i, Commits (log ++ [(now, cmd)]) i k s c) ↔
      (∃ i, Commits log i k s c) ∨
        CommitOf cmd (MVCCStateMachine.apply now (replay log) cmd).2 k s c := by
  constructor
  · rintro ⟨i, now', cmd', hget, hcom⟩
    have hi := (List.getElem?_eq_some_iff.1 hget).1
    rw [length_append, length_singleton] at hi
    rcases Nat.lt_succ_iff_lt_or_eq.1 hi with hlt | rfl
    · rw [getElem?_append_left hlt] at hget
      rw [take_append_of_le_length hlt.le] at hcom
      exact .inl ⟨i, now', cmd', hget, hcom⟩
    · rw [getElem?_concat_length] at hget
      cases hget
      rw [take_left] at hcom
      exact .inr hcom
  · rintro (⟨i, now', cmd', hget, hcom⟩ | hcom)
    · have hlt := (List.getElem?_eq_some_iff.1 hget).1
      refine ⟨i, now', cmd', ?_, ?_⟩
      · rw [getElem?_append_left hlt, hget]
      · rwa [take_append_of_le_length hlt.le]
    · refine ⟨log.length, now, cmd, getElem?_concat_length, ?_⟩
      rwa [take_left]

/-- **The first committer wins.**  Two successful commits on one key by different
transactions, each above its own start, do not overlap; and no transaction commits a key
twice above its start. -/
theorem first_committer_wins (log : History) (i j : ℕ) (k : Bytes) (s₁ s₂ c₁ c₂ : ℤ)
    (hi : Commits log i k s₁ c₁) (hj : Commits log j k s₂ c₂) (h₁ : s₁ < c₁) (h₂ : s₂ < c₂) :
    (s₁ ≠ s₂ → c₁ ≤ s₂ ∨ c₂ ≤ s₁) ∧ (s₁ = s₂ → i = j) := by
  rcases lt_trichotomy i j with hij | rfl | hij
  · have hle := hi.le_start hj hij
    exact ⟨fun _ => .inl hle, fun heq => by omega⟩
  · refine ⟨fun hne => ?_, fun _ => rfl⟩
    obtain ⟨now, cmd, hget, hcom⟩ := hi
    obtain ⟨now', cmd', hget', hcom'⟩ := hj
    obtain ⟨-, rfl⟩ := Prod.mk.inj (Option.some.inj (hget.symm.trans hget'))
    exact absurd (Option.some.inj (hcom.startTs.symm.trans hcom'.startTs)) hne
  · have hle := hj.le_start hi hij
    exact ⟨fun _ => .inr hle, fun heq => by omega⟩

/-- Two transactions, one after the other, on one key. -/
def twoCommits : History :=
  [(0, .prewrite [7] [1] 1 [7]), (0, .commit [7] 1 2), (0, .prewrite [7] [2] 3 [7]),
    (0, .commit [7] 3 4)]

theorem first_committer_wins_twoCommits :
    (1 : ℤ) < 2 ∧ (3 : ℤ) < 4 ∧ Commits twoCommits 1 [7] 1 2 ∧ Commits twoCommits 3 [7] 3 4 ∧
      ((2 : ℤ) ≤ 3 ∨ (4 : ℤ) ≤ 1) := by
  have hi : Commits twoCommits 1 [7] 1 2 := ⟨0, .commit [7] 1 2, rfl, by decide +kernel⟩
  have hj : Commits twoCommits 3 [7] 3 4 := ⟨0, .commit [7] 3 4, rfl, by decide +kernel⟩
  exact ⟨by decide, by decide, hi, hj,
    (first_committer_wins twoCommits 1 3 [7] 1 3 2 4 hi hj (by decide) (by decide)).1 (by decide)⟩

end MVCCStateMachine

end OxideDB.Storage
