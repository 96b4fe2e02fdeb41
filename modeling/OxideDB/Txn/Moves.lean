import OxideDB.Txn.System

/-!
# What a step can do

Every step of the transaction system, with what it has found and what it leaves.  The proofs
about runs go through these cases and do not open the step function again.
-/

namespace OxideDB.Txn

open Raft (Bytes)
open Storage MVCCStateMachine

namespace System

variable {cfg : Config} {S S' : System} {i j n : ℕ} {t t' : Transaction} {e : Event}

@[simp] theorem unlock_shards : (S.unlock i t).shards = S.shards := by
  unfold unlock; split <;> rfl
@[simp] theorem unlock_calls : (S.unlock i t).calls = S.calls := by
  unfold unlock; split <;> rfl
@[simp] theorem unlock_txns : (S.unlock i t).txns = S.txns := by
  unfold unlock; split <;> rfl
@[simp] theorem unlock_resolutions : (S.unlock i t).resolutions = S.resolutions := by
  unfold unlock; split <;> rfl
@[simp] theorem unlock_clocks : (S.unlock i t).clocks = S.clocks := by
  unfold unlock; split <;> rfl
@[simp] theorem unlock_group : (S.unlock i t).group = S.group := by
  unfold unlock; split <;> rfl

@[simp] theorem draw_shards (c : ℕ) : (S.draw c).2.shards = S.shards := rfl
@[simp] theorem draw_calls (c : ℕ) : (S.draw c).2.calls = S.calls := rfl
@[simp] theorem draw_txns (c : ℕ) : (S.draw c).2.txns = S.txns := rfl
@[simp] theorem draw_resolutions (c : ℕ) : (S.draw c).2.resolutions = S.resolutions := rfl
@[simp] theorem draw_commitLock (c : ℕ) : (S.draw c).2.commitLock = S.commitLock := rfl

/-- The steps of a transaction: what it is after the step, and the state then. -/
inductive TxnMove (cfg : Config) (S : System) (i : ℕ) (t : Transaction) :
    Event → Transaction → System → Prop
  | addWrite {key value : Bytes} (hstatus : t.status = .pending) :
      TxnMove cfg S i t (.addWrite i key value) { t with keys := t.keys ++ [(key, value)] }
        (S.setTxn i { t with keys := t.keys ++ [(key, value)] })
  | read {key : Bytes} {r : ReadResult}
      (hget : (S.machineOf cfg key).get key (some t.startTs) = .ok r) (hsucc : r.success = true) :
      TxnMove cfg S i t (.read i key) (t.addRead key r.value)
        (S.setTxn i (t.addRead key r.value))
  | startEmpty (hstatus : t.status = .pending) (hphase : t.phase = .active) (hkeys : t.keys = []) :
      TxnMove cfg S i t (.start i true) t.committedEmpty (S.setTxn i t.committedEmpty)
  | start {viaCommit : Bool} (hstatus : t.status = .pending) (hphase : t.phase = .active)
      (hkeys : t.keys ≠ []) :
      TxnMove cfg S i t (.start i viaCommit) (t.started cfg viaCommit)
        (S.setTxn i (t.started cfg viaCommit))
  | startRefused {viaCommit : Bool} (hstatus : t.status = .pending) (hphase : t.phase = .active)
      (hkeys : t.keys ≠ []) :
      TxnMove cfg S i t (.startRefused i viaCommit) { t with viaCommit := viaCommit }.aborted
        (S.setTxn i { t with viaCommit := viaCommit }.aborted)
  | proposePrewrite {shard : ℕ} {tasks : List ShardTask} {task : ShardTask} {key value : Bytes}
      {rest : List (Bytes × Bytes)} (hphase : t.phase = .prewriting tasks)
      (htask : openTask tasks shard = some task) (htodo : task.todo = (key, value) :: rest)
      (hcall : task.call = none) :
      TxnMove cfg S i t (.proposePrewrite i shard)
        { t with phase := .prewriting (setTask tasks
            ⟨shard, (key, value) :: rest, some S.nextCall, none⟩) }
        ((S.propose cfg key (.prewrite key value t.startTs t.primaryKey)).setTxn i
          { t with phase := .prewriting (setTask tasks
              ⟨shard, (key, value) :: rest, some S.nextCall, none⟩) })
  | prewriteAnswered {shard call : ℕ} {tasks : List ShardTask} {task : ShardTask} {a : Answer}
      (hphase : t.phase = .prewriting tasks) (htask : openTask tasks shard = some task)
      (hcall : task.call = some call) (hans : S.answerOf call = some a) :
      TxnMove cfg S i t (.prewriteAnswered i shard)
        { t with phase := .prewriting (setTask tasks (task.heard a)) }
        (S.setTxn i { t with phase := .prewriting (setTask tasks (task.heard a)) })
  | joinedLocked {tasks : List ShardTask} (hphase : t.phase = .prewriting tasks)
      (hall : ∀ task ∈ tasks, task.verdict = some true) :
      TxnMove cfg S i t (.joined i) t.locked (S.setTxn i t.locked)
  | joinedFailed {tasks : List ShardTask} (hphase : t.phase = .prewriting tasks)
      (hjoined : ∀ task ∈ tasks, task.verdict ≠ none) :
      TxnMove cfg S i t (.joined i) t.rollingBack (S.setTxn i t.rollingBack)
  | lockTaken {todo : List Bytes} (hphase : t.phase = .awaitingLock)
      (hfree : S.commitLock t.coordinator = none)
      (htodo : todo = if cfg.validateReads then t.readSet else []) :
      TxnMove cfg S i t (.lockTaken i) { t with phase := .validating todo }
        { S.setTxn i { t with phase := .validating todo } with
          commitLock := Function.update S.commitLock t.coordinator (some i) }
  | validated {key : Bytes} {rest : List Bytes} {record : Option WriteRecord}
      (hphase : t.phase = .validating (key :: rest))
      (hrecord : (S.machineOf cfg key).getWriteRecord key = .ok record)
      (hold : ∀ w ∈ record, w.commitTs ≤ t.startTs) :
      TxnMove cfg S i t (.validateKey i) { t with phase := .validating rest }
        (S.setTxn i { t with phase := .validating rest })
  | conflict {e : Event} {key : Bytes} {rest : List Bytes} (he : e.subject = .txn i)
      (hphase : t.phase = .validating (key :: rest)) :
      TxnMove cfg S i t e t.rollingBack (S.setTxn i t.rollingBack)
  | proposePrimary (hphase : t.phase = .validating []) :
      TxnMove cfg S i t (.proposePrimary i)
        { t with commitTs := some (S.draw t.coordinator).1, phase := .committing S.nextCall }
        (((S.draw t.coordinator).2.propose cfg t.primaryKey
          (.commit t.primaryKey t.startTs (S.draw t.coordinator).1)).setTxn i
          { t with commitTs := some (S.draw t.coordinator).1, phase := .committing S.nextCall })
  | primaryRefused (hphase : t.phase = .validating []) :
      TxnMove cfg S i t (.primaryRefused i)
        { t with commitTs := some (S.draw t.coordinator).1 }.rollingBack
        ((S.draw t.coordinator).2.setTxn i
          { t with commitTs := some (S.draw t.coordinator).1 }.rollingBack)
  | primaryCommitted {call : ℕ} {a : Answer} (hphase : t.phase = .committing call)
      (hans : S.answerOf call = some a) (hsucc : a.success = true) :
      TxnMove cfg S i t (.primaryAnswered i) t.primaryCommitted
        ((S.setTxn i t.primaryCommitted).unlock i t)
  | primaryFailed {call : ℕ} {a : Answer} (hphase : t.phase = .committing call)
      (hans : S.answerOf call = some a) (hsucc : a.success = false) (hraised : a ≠ .raised) :
      TxnMove cfg S i t (.primaryAnswered i) t.rollingBack (S.setTxn i t.rollingBack)
  | proposeRollback {key : Bytes} {rest : List Bytes}
      (hphase : t.phase = .rollingBack (key :: rest) none) :
      TxnMove cfg S i t (.proposeRollback i)
        { t with phase := .rollingBack (key :: rest) (some S.nextCall) }
        ((S.propose cfg key (.rollback key t.startTs)).setTxn i
          { t with phase := .rollingBack (key :: rest) (some S.nextCall) })
  | rollbackAnswered {todo : List Bytes} {call : ℕ} {a : Answer}
      (hphase : t.phase = .rollingBack todo (some call)) (hans : S.answerOf call = some a) :
      TxnMove cfg S i t (.rollbackAnswered i) { t with phase := .rollingBack todo.tail none }
        (S.setTxn i { t with phase := .rollingBack todo.tail none })
  | rolledBack (hphase : t.phase = .rollingBack [] none) :
      TxnMove cfg S i t (.rolledBack i) t.aborted ((S.setTxn i t.aborted).unlock i t)
  | proposeSecondary {key : Bytes} {secondaries : List Bytes} {commitTs : ℤ}
      (hphase : t.phase = .committed secondaries) (hcommit : t.commitTs = some commitTs)
      (hkey : key ∈ secondaries) :
      TxnMove cfg S i t (.proposeSecondary i key) { t with phase := .committed (secondaries.erase key) }
        ((S.propose cfg key (.commit key t.startTs commitTs)).setTxn i
          { t with phase := .committed (secondaries.erase key) })
  /-- An exception, in the call itself or out of a proposal. -/
  | closed {e : Event} (he : e.subject = .txn i) (hactive : t.phase ≠ .active)
      (hcommitted : ∀ ks, t.phase ≠ .committed ks)
      (hwhy : e = .abandon i ∨ ∃ call, S.answerOf call = some .raised) :
      TxnMove cfg S i t e { t with phase := .closed }
        ((S.setTxn i { t with phase := .closed }).unlock i t)
  | rollbackPending (hstatus : t.status = .pending) :
      TxnMove cfg S i t (.rollback i) { t with status := .aborted }
        (S.setTxn i { t with status := .aborted })
  | rollbackCalled (hstatus : t.status ≠ .committed) :
      TxnMove cfg S i t (.rollback i) t { S with cleanups :=
        S.cleanups ++ [{ txn := i, todo := (groupKeysByShard cfg t.keys).keys }] }

theorem txnStep_move (hsub : e.subject = .txn i) (h : S.txnStep cfg i t e = some S') :
    ∃ t', TxnMove cfg S i t e t' S' := by
  cases e <;> cases hsub <;> simp only [txnStep] at h
  case addWrite key value =>
    split at h
    · cases h
      exact ⟨_, .addWrite ‹_›⟩
    · cases h
  case read key =>
    split at h
    · split at h
      · cases h
        exact ⟨_, .read ‹_› ‹_›⟩
      · cases h
    · cases h
  case start viaCommit =>
    split at h
    · rename_i hguard
      split at h
      · split at h
        · rename_i hvia
          subst hvia
          cases h
          exact ⟨_, .startEmpty hguard.1 hguard.2 ‹_›⟩
        · cases h
      · cases h
        exact ⟨_, .start hguard.1 hguard.2 ‹_›⟩
    · cases h
  case startRefused viaCommit =>
    split at h
    · rename_i hguard
      cases h
      exact ⟨_, .startRefused hguard.1 hguard.2.1 hguard.2.2⟩
    · cases h
  case proposePrewrite shard =>
    split at h
    · split at h
      · cases h
        exact ⟨_, .proposePrewrite ‹_› ‹_› rfl rfl⟩
      · cases h
    · cases h
  case prewriteAnswered shard =>
    split at h
    · split at h
      · split at h
        · rename_i hans
          cases h
          obtain ⟨call, hcall, hans⟩ := Option.bind_eq_some_iff.1 hans
          exact ⟨_, .prewriteAnswered ‹_› ‹_› hcall hans⟩
        · cases h
      · cases h
    · cases h
  case joined =>
    split at h
    · split at h
      · rename_i hjoined
        split at h
        · rename_i hall
          cases h
          exact ⟨_, .joinedLocked ‹_› (by simpa using hall)⟩
        · cases h
          exact ⟨_, .joinedFailed ‹_› (by simpa [Option.isSome_iff_ne_none] using hjoined)⟩
      · cases h
    · cases h
  case lockTaken =>
    split at h
    · rename_i hguard
      cases h
      exact ⟨_, .lockTaken hguard.1 hguard.2 rfl⟩
    · cases h
  case validateKey =>
    split at h
    · split at h
      · split at h
        · cases h
          exact ⟨_, .conflict rfl ‹_›⟩
        rename_i hnone
        cases h
        refine ⟨_, .validated ‹_› ‹_› fun w hw => ?_⟩
        rw [Option.mem_def] at hw
        subst hw
        simpa using hnone
      · cases h
    · cases h
  case validateRefused =>
    split at h
    · cases h
      exact ⟨_, .conflict rfl ‹_›⟩
    · cases h
  case proposePrimary =>
    split at h
    · cases h
      exact ⟨_, .proposePrimary ‹_›⟩
    · cases h
  case primaryRefused =>
    split at h
    · cases h
      exact ⟨_, .primaryRefused ‹_›⟩
    · cases h
  case primaryAnswered =>
    split at h
    · rename_i hphase
      split at h
      · cases h
        exact ⟨_, .closed rfl (by simp [hphase]) (by simp [hphase]) (.inr ⟨_, ‹_›⟩)⟩
      · split at h
        · cases h
          exact ⟨_, .primaryCommitted hphase ‹_› ‹_›⟩
        · rename_i hraised hans hsucc
          cases h
          exact ⟨_, .primaryFailed hphase hans (by simpa using hsucc) hraised⟩
      · cases h
    · cases h
  case proposeRollback =>
    split at h
    · cases h
      exact ⟨_, .proposeRollback ‹_›⟩
    · cases h
  case rollbackAnswered =>
    split at h
    · rename_i hphase
      split at h
      · cases h
        exact ⟨_, .closed rfl (by simp [hphase]) (by simp [hphase]) (.inr ⟨_, ‹_›⟩)⟩
      · cases h
        exact ⟨_, .rollbackAnswered hphase ‹_›⟩
      · cases h
    · cases h
  case rolledBack =>
    split at h
    · cases h
      exact ⟨_, .rolledBack ‹_›⟩
    · cases h
  case proposeSecondary key =>
    split at h
    · split at h
      · cases h
        exact ⟨_, .proposeSecondary ‹_› ‹_› ‹_›⟩
      · cases h
    · cases h
  case abandon =>
    split at h
    · cases h
    · cases h
    · cases h
      exact ⟨_, .closed rfl ‹_› ‹_› (.inl rfl)⟩
  case rollback =>
    split at h
    · cases h
    split at h
    · cases h
      exact ⟨_, .rollbackPending ‹_›⟩
    · cases h
      exact ⟨_, .rollbackCalled ‹_›⟩

theorem TxnMove.subject (h : TxnMove cfg S i t e t' S') : e.subject = .txn i := by
  cases h with
  | conflict he | closed he => exact he
  | _ => rfl

theorem TxnMove.txns (htxn : S.txns[i]? = some t) (h : TxnMove cfg S i t e t' S') :
    S'.txns = S.txns.set i t' := by
  cases h with
  | primaryCommitted | rolledBack | closed => exact unlock_txns
  | rollbackCalled =>
    obtain ⟨hlt, rfl⟩ := List.getElem?_eq_some_iff.1 htxn
    simp
  | _ => rfl

/-- The state with call `n` of `resolve_lock` at a stage. -/
@[simps -fullyApplied]
def setStage (S : System) (n : ℕ) (res : Resolution) (stage : ResolutionStage) : System :=
  { S with resolutions := S.resolutions.set n { res with stage := stage } }

/-- The steps of the system. -/
inductive Move (cfg : Config) (S : System) : Event → System → Prop
  | begin {c : ℕ} :
      Move cfg S (.begin c)
        { (S.draw c).2 with txns := S.txns ++ [{ coordinator := c, startTs := (S.draw c).1 }] }
  | fetch {c : ℕ} (hend : (S.clocks c).exhausted = true) : Move cfg S (.fetch c) (S.fetch c)
  | txn {i : ℕ} {t t' : Transaction} {e : Event} {S' : System} (htxn : S.txns[i]? = some t)
      (hmove : TxnMove cfg S i t e t' S') : Move cfg S e S'
  | cleanupNext {n : ℕ} {task : Cleanup} {t : Transaction} {key : Bytes} {cleanups : List Cleanup}
      (htask : S.cleanups[n]? = some task) (htxn : S.txns[task.txn]? = some t)
      (hkey : key ∈ task.todo) :
      Move cfg S (.cleanupNext n)
        { S.propose cfg key (.rollback key t.startTs) with cleanups := cleanups }
  | cleanupAnswered {n : ℕ} {cleanups : List Cleanup} :
      Move cfg S (.cleanupAnswered n) { S with cleanups := cleanups }
  | cleanupDone {n i : ℕ} {t : Transaction} {cleanups : List Cleanup}
      (htxn : S.txns[i]? = some t) :
      Move cfg S (.cleanupDone n)
        { S.setTxn i { t with status := .aborted } with cleanups := cleanups }
  | meet {key : Bytes} {lock : Lock}
      (hlock : (S.machineOf cfg key).getLockStatus key = .ok (some lock)) :
      Move cfg S (.meet key)
        { S with resolutions := S.resolutions ++ [{ key := key, lock := lock }] }
  | readRecord {n : ℕ} {res : Resolution} {stage : ResolutionStage}
      (hres : S.resolutions[n]? = some res) (hstage : res.stage = .asked) :
      Move cfg S (.readRecord n) (S.setStage n res stage)
  | readLock {n : ℕ} {now : Time} {res : Resolution} (hres : S.resolutions[n]? = some res)
      (hstage : res.stage = .noRecord) :
      Move cfg S (.readLock n now) (S.setStage n res .closed)
  | resolveRollback {n : ℕ} {now : Time} {res : Resolution} (hres : S.resolutions[n]? = some res)
      (hstage : res.stage = .noRecord) :
      Move cfg S (.readLock n now)
        ((S.setStage n res .closed).propose cfg res.key (.rollback res.key res.lock.startTs))
  | readCommitTs {n : ℕ} {res : Resolution} (hres : S.resolutions[n]? = some res)
      (hstage : res.stage = .committed) :
      Move cfg S (.readCommitTs n) (S.setStage n res .closed)
  | resolveCommit {n : ℕ} {res : Resolution} {c : ℤ} (hres : S.resolutions[n]? = some res)
      (hstage : res.stage = .committed)
      (hcommit : LockResolver.primaryCommitTs (some (S.machineOf cfg res.lock.primaryKey))
        res.lock.primaryKey res.lock.startTs = .ok (some c)) :
      Move cfg S (.readCommitTs n)
        ((S.setStage n res .closed).propose cfg res.key (.commit res.key res.lock.startTs c))
  | ask {j : ℕ} {call : Call} (hcall : S.calls[j]? = some call) (hopen : call.answer = none) :
      Move cfg S (.ask j) (S.setCall j { call with pending := call.pending + 1 })
  | applyEntry {j : ℕ} {now : Time} {call : Call} (hcall : S.calls[j]? = some call)
      (hpending : 0 < call.pending) :
      Move cfg S (.applyEntry j now)
        { S.setCall j (call.applied (apply now (S.shards call.shard) call.command).2) with
          shards := Function.update S.shards call.shard
            (apply now (S.shards call.shard) call.command).1 }
  | answer {j : ℕ} {call : Call} {a : Answer} (hcall : S.calls[j]? = some call)
      (hopen : call.answer = none) (hhear : call.mayHear a = true) :
      Move cfg S (.answer j a) (S.setCall j { call with answer := some a })

theorem cleanupStep_move {task : Cleanup} (hsub : e.subject = .cleanup n)
    (htask : S.cleanups[n]? = some task) (htxn : S.txns[task.txn]? = some t)
    (h : S.cleanupStep cfg n task t e = some S') : Move cfg S e S' := by
  cases e <;> cases hsub <;> simp only [cleanupStep] at h
  case cleanupNext =>
    split at h
    · rename_i htodo _
      cases h
      exact .cleanupNext htask htxn (by simp [htodo])
    · cases h
  case cleanupAnswered =>
    split at h
    · cases h
      exact .cleanupAnswered
    · cases h
      exact .cleanupAnswered
    · cases h
  case cleanupDone =>
    split at h
    · cases h
      exact .cleanupDone htxn
    · cases h

theorem resolutionStep_move {res : Resolution} (hsub : e.subject = .resolution n)
    (hres : S.resolutions[n]? = some res) (h : S.resolutionStep cfg n res e = some S') :
    Move cfg S e S' := by
  cases e <;> cases hsub <;> simp only [resolutionStep] at h
  case readRecord =>
    split at h
    · split at h
      · cases h
        exact .readRecord hres ‹_›
      · cases h
    · cases h
  case readLock now =>
    split at h
    · split at h
      · split at h
        · cases h
          exact .readLock hres ‹_›
        · cases h
          exact .resolveRollback hres ‹_›
      · cases h
    · cases h
  case readCommitTs =>
    split at h
    · split at h
      · rename_i hcommit
        split at h
        · cases h
          exact .readCommitTs hres ‹_›
        · cases h
          exact .resolveCommit hres ‹_› hcommit
      · cases h
    · cases h

theorem callStep_move {call : Call} (hsub : e.subject = .call j) (hcall : S.calls[j]? = some call)
    (h : S.callStep j call e = some S') : Move cfg S e S' := by
  cases e <;> cases hsub <;> simp only [callStep] at h
  case ask =>
    split at h
    · cases h
      exact .ask hcall ‹_›
    · cases h
  case applyEntry now =>
    split at h
    · cases h
      exact .applyEntry hcall ‹_›
    · cases h
  case answer a =>
    split at h
    · rename_i hguard
      cases h
      exact .answer hcall hguard.1 hguard.2
    · cases h

/-- **Every step is a move.** -/
theorem step_move (h : S.step cfg e = some S') : Move cfg S e S' := by
  unfold step at h
  split at h
  next c hsub =>
    cases e <;> cases hsub
    case begin =>
      cases h
      exact .begin
    case fetch =>
      simp only [clockStep] at h
      split at h
      · cases h
        exact .fetch ‹_›
      · cases h
  next i hsub =>
    split at h
    · obtain ⟨t', hmove⟩ := txnStep_move hsub h
      exact .txn ‹_› hmove
    · cases h
  next n hsub =>
    split at h
    · split at h
      · exact cleanupStep_move hsub ‹_› ‹_› h
      · cases h
    · cases h
  next key hsub =>
    split at h
    · cases h
      cases e <;> cases hsub
      exact .meet ‹_›
    · cases h
  next n hsub =>
    split at h
    · exact resolutionStep_move hsub ‹_› h
    · cases h
  next j hsub =>
    split at h
    · exact callStep_move hsub ‹_› h
    · cases h

end System

end OxideDB.Txn
