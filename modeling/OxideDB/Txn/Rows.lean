import OxideDB.Txn.Tasks

/-!
# What a transaction has locked

Where nobody rolls a transaction back that has not turned to that itself, every row it has
prewritten stays: as a lock with its value, and after the commit as a version with its value
and a write record.
-/

namespace OxideDB.Txn

open Raft (Bytes ApplyResult)
open Storage MVCCStateMachine List Maps

variable {r : ApplyResult} {row : Bytes × Bytes}

namespace Transaction

variable (t : Transaction)

/-- The call has not turned to rolling back, and has not been left. -/
def Alive : Prop :=
  match t.phase with
  | .rollingBack _ _ | .closed => False
  | _ => True

/-- Every prewrite has been answered with success, and the call goes on. -/
def Locked : Prop :=
  match t.phase with
  | .awaitingLock | .validating _ | .committing _ | .committed _ => True
  | _ => False

instance : Decidable t.Alive := by
  unfold Alive
  generalize t.phase = phase
  induction phase using Phase.casesOn <;> infer_instance

/-- A row is locked with its value, or has been committed with it. -/
def RowHeld (M : Maps) (row : Bytes × Bytes) : Prop :=
  (∃ f, M.lock row.1 t.startTs = some f ∧ f.value = row.2) ∨
    M.lock row.1 t.startTs = none ∧ ∃ c, t.commitTs = some c ∧
      M.record row.1 c = some t.startTs ∧ M.version row.1 c = some (some row.2)

variable {t}

theorem Locked.alive (h : t.Locked) : t.Alive := by
  unfold Locked at h
  unfold Alive
  cases hp : t.phase <;> simp_all

theorem Locked.not_active (h : t.Locked) : t.phase ≠ .active := by
  intro hp
  simp [Locked, hp] at h

/-- An entry is applied: a lock becomes a version and a record, and only a rollback removes
it without that. -/
theorem RowHeld.effect {M M' : Maps} {cmd : Command} {now : Time} (heff : Effect now M cmd M' r)
    (hcommit : ∀ k c, cmd = .commit k t.startTs c → t.commitTs = some c)
    (hroll : ∀ k, cmd = .rollback k t.startTs → M.lock k t.startTs = none)
    (hone : ∀ k s c, cmd = .commit k s c → t.commitTs = some c → s = t.startTs)
    (horder : ∀ c, t.commitTs = some c → t.startTs < c) (h : t.RowHeld M row) :
    t.RowHeld M' row := by
  rcases h with ⟨f, hf, hv⟩ | ⟨hnone, c, hc, hrec, hver⟩
  · cases heff with
    | refused | idle => exact .inl ⟨f, hf, hv⟩
    | @locked k₀ v p s₀ hfree =>
      refine .inl ⟨f, ?_, hv⟩
      rw [setLock_lock, if_neg, hf]
      rintro ⟨hk, -⟩
      rw [hk, hfree] at hf
      cases hf
    | @committed k₀ s₀ c f₀ hlock =>
      by_cases hks : row.1 = k₀ ∧ t.startTs = s₀
      · obtain ⟨rfl, rfl⟩ := hks
        cases hlock.symm.trans hf
        refine .inr ⟨?_, c, hcommit _ _ rfl, ?_, ?_⟩
        · rw [setLock_lock, if_pos ⟨rfl, rfl⟩]
        · rw [setLock_record, putRecord_record, if_pos ⟨rfl, rfl⟩]
        · rw [setLock_version, putRecord_version, putVersion_version,
            if_pos ⟨rfl, rfl⟩, hv]
      · refine .inl ⟨f, ?_, hv⟩
        rw [setLock_lock, if_neg hks]
        exact hf
    | @unlocked k₀ s₀ f₀ hlock =>
      refine .inl ⟨f, ?_, hv⟩
      rw [setLock_lock, if_neg]
      · exact hf
      · rintro ⟨rfl, rfl⟩
        rw [hroll _ rfl] at hlock
        cases hlock
  · cases heff with
    | refused | idle => exact .inr ⟨hnone, c, hc, hrec, hver⟩
    | @locked k₀ v p s₀ _ hrecord =>
      -- its record stands above its start timestamp, so it cannot lock the key again
      refine .inr ⟨?_, c, hc, hrec, hver⟩
      rw [setLock_lock, if_neg]
      · exact hnone
      · rintro ⟨rfl, rfl⟩
        exact absurd (hrecord c _ hrec) (not_le.2 (horder c hc))
    | @committed k₀ s₀ c₀ f₀ hlock =>
      have hoff : ¬ (row.1 = k₀ ∧ c = c₀) := by
        rintro ⟨rfl, rfl⟩
        rw [hone _ _ _ rfl hc, hnone] at hlock
        cases hlock
      refine .inr ⟨?_, c, hc, ?_, ?_⟩
      · rw [setLock_lock]
        split
        · rfl
        · exact hnone
      · rw [setLock_record, putRecord_record, if_neg hoff]
        exact hrec
      · rw [setLock_version, putRecord_version, putVersion_version, if_neg hoff]
        exact hver
    | @unlocked k₀ s₀ f₀ hlock =>
      refine .inr ⟨?_, c, hc, hrec, hver⟩
      rw [setLock_lock]
      split
      · rfl
      · exact hnone

end Transaction

namespace System

/-- The lock of a transaction that is alive is not rolled back. -/
def Spares (cfg : Config) (S : System) : Event → Prop
  | .applyEntry j _ => ∀ call ∈ S.calls[j]?, call.command.type = .rollback →
    ∀ k ∈ call.command.key, ∀ s ∈ call.command.startTs, (S.maps cfg).lock k s ≠ none →
      ∀ t ∈ S.txns, t.startTs = s → ¬ t.Alive
  | _ => True

instance (cfg : Config) (S : System) (e : Event) : Decidable (Spares cfg S e) := by
  induction e using Event.casesOn <;> dsimp only [Spares] <;> infer_instance

variable {cfg : Config} {S S' : System} {e : Event} {i j : ℕ} {t t' u : Transaction}
  {k : Bytes} {s c : ℤ}

/-- The rows that were prewritten are held. -/
structure Rows (cfg : Config) (S : System) : Prop where
  prewritten {call : Call} {t : Transaction} {k v p : Bytes} {r : ApplyResult}
    (hcall : call ∈ S.calls) (hcmd : call.command = .prewrite k v t.startTs p)
    (ht : t ∈ S.txns) (halive : t.Alive) (hr : r ∈ call.results)
    (hsucc : r.success = true) : t.RowHeld (S.maps cfg) (k, v)
  tasks {t : Transaction} {tasks : List ShardTask} (ht : t ∈ S.txns)
    (hphase : t.phase = .prewriting tasks) : TasksOk S t (t.RowHeld (S.maps cfg)) tasks
  held {t : Transaction} (ht : t ∈ S.txns) (hlocked : t.Locked) {row : Bytes × Bytes}
    (hrow : row ∈ t.keys) : t.RowHeld (S.maps cfg) row

theorem Rows.init (cfg : Config) : Rows cfg (init cfg) where
  prewritten h := by cases h
  tasks h := by cases h
  held h := by cases h

/-- A transaction that is alive was alive before. -/
theorem Move.alive (hS : Sound cfg S) (hmove : Move cfg S e S') (ht : t ∈ S.txns)
    (ht' : t' ∈ S'.txns) (hs : t'.startTs = t.startTs) (halive : t'.Alive) : t.Alive := by
  cases hmove.txn_step hS ht ht' hs with
  | same | aborted => exact halive
  | moved _ htmove =>
    cases htmove with
    | startEmpty _ hp | start _ hp | startRefused _ hp | proposePrewrite hp | prewriteAnswered hp
    | joinedLocked hp | joinedFailed hp | lockTaken hp | validated hp | conflict _ hp
    | proposePrimary hp | primaryRefused hp | primaryCommitted hp | primaryFailed hp
    | proposeSecondary hp => simp [Transaction.Alive, hp]
    | proposeRollback | rollbackAnswered | rolledBack | closed => exact halive.elim
    | _ => exact halive

section Step

variable (hS : Sound cfg S) (hspare : Spares cfg S e) (hmove : Move cfg S e S')

include hS hspare hmove

theorem RowHeld.move (ht : t ∈ S.txns) (halive : t.Alive) (hkept : Kept t t')
    (hrow : row.1 ∈ t.keys.map Prod.fst) (h : t.RowHeld (S.maps cfg) row) :
    t'.RowHeld (S'.maps cfg) row := by
  have hheld : t.RowHeld (S'.maps cfg) row := by
    rcases hmove.shards with ⟨j, now, rfl⟩ | hshards
    · obtain ⟨call, r, hcall, -, heff, -⟩ := hS.placed.effect hmove
      have hown := hS.owned.command (mem_of_getElem? hcall)
      refine h.effect heff (fun k c hcmd => ?_) (fun k hcmd => ?_) (fun k s c hcmd hc => ?_)
        fun c hc => hS.stamped.order ht hc (ne_nil_of_mem_map hrow)
      · rw [hcmd] at hown
        cases hown with
        | commit hcommits =>
          obtain ⟨u, hu, hs, hc, -⟩ := hcommits
          obtain rfl := hS.stamped.eq_of_startTs hu ht hs
          exact hc
      · rcases hl : (S.maps cfg).lock k t.startTs with _ | f
        · rfl
        · exact absurd halive (hspare call hcall (by rw [hcmd]; rfl) k (by rw [hcmd]; rfl) t.startTs
            (by rw [hcmd]; rfl) (by simp [hl]) t ht rfl)
      · rw [hcmd] at hown
        cases hown with
        | commit hcommits => exact Commits.unique hS.stamped hcommits ⟨t, ht, rfl, hc, hrow⟩
    · rwa [maps_congr hshards]
  unfold Transaction.RowHeld at hheld ⊢
  rw [hkept.startTs]
  exact hheld.imp_right fun ⟨hnone, c, hc, hrest⟩ => ⟨hnone, c, hkept.commitTs hc, hrest⟩

theorem Rows.prewritten_step (h : Rows cfg S) {call : Call} {k v p : Bytes}
    (hcall : call ∈ S'.calls) (hcmd : call.command = .prewrite k v t'.startTs p)
    (ht' : t' ∈ S'.txns) (halive : t'.Alive) (hr : r ∈ call.results) (hsucc : r.success = true) :
    t'.RowHeld (S'.maps cfg) (k, v) := by
  rcases hmove.results hS.placed hcall hr with ⟨call₀, hcall₀, hcmd₀, hr₀⟩ | ⟨now, heff⟩
  · -- an old result: the row was held and is
    have hown := hS.owned.command hcall₀
    rw [hcmd₀, hcmd] at hown
    cases hown with
    | prewrite hw =>
      obtain ⟨t, ht, hts, hrow, -⟩ := hw
      have halive₀ := hmove.alive hS ht ht' hts.symm halive
      refine RowHeld.move hS hspare hmove ht halive₀ (hmove.kept hS ht ht' hts.symm)
        (mem_map_of_mem hrow) ?_
      exact h.prewritten hcall₀ (by rw [hcmd₀, hcmd, hts]) ht halive₀ hr₀ hsucc
  · rw [hcmd] at heff
    exact .inl (heff.lock_of_prewrite hsucc)

variable (h : Rows cfg S) (hearly : WritesEarly S e) (ht' : t' ∈ S'.txns)
include h hearly ht'

theorem Rows.tasks_step
    (hheard : ∀ call ∈ S'.calls, ∀ a, call.answer = some a → a.success = true →
      ∃ r ∈ call.results, r.success = true)
    {tasks : List ShardTask} (hphase : t'.phase = .prewriting tasks) :
    TasksOk S' t' (t'.RowHeld (S'.maps cfg)) tasks := by
  refine hmove.tasks_step hS (fun S t => t.RowHeld (S.maps cfg))
    (fun t ht tasks hp => h.tasks ht hp) ht' hphase
    (fun t ht tasks hp hs => ?_) fun call hcall k v hcmd a ha hsucc => ?_
  · refine ⟨hmove.keys hS hearly ht ht' hs (by simp [hp]), fun row hrow hheld => ?_⟩
    exact RowHeld.move hS hspare hmove ht (by simp [Transaction.Alive, hp])
      (hmove.kept hS ht ht' hs) (mem_map_of_mem hrow) hheld
  · obtain ⟨r, hr, hok⟩ := hheard call hcall a ha hsucc
    exact Rows.prewritten_step hS hspare hmove h hcall hcmd ht'
      (by simp [Transaction.Alive, hphase]) hr hok

theorem Rows.held_step (hlocked : t'.Locked) (hrow : row ∈ t'.keys) :
    t'.RowHeld (S'.maps cfg) row := by
  -- it was locked before
  have hwas : ∀ {t}, t ∈ S.txns → t'.startTs = t.startTs → t.Locked →
      t'.RowHeld (S'.maps cfg) row := by
    intro t ht hs hl
    rw [hmove.keys hS hearly ht ht' hs hl.not_active] at hrow
    exact RowHeld.move hS hspare hmove ht hl.alive (hmove.kept hS ht ht' hs)
      (mem_map_of_mem hrow) (h.held ht hl hrow)
  cases hmove.txn_from hS ht' with
  | old hold => exact hwas hold rfl hlocked
  | fresh _ heq => subst heq; exact hlocked.elim
  | aborted hold heq => subst heq; exact hwas hold rfl hlocked
  | @moved i t htxn ht htmove hkept =>
    cases htmove with
    | addWrite | read | rollbackPending | rollbackCalled => exact hwas ht rfl hlocked
    | startEmpty _ _ hkeys =>
      exact absurd hrow (by simp [Transaction.committedEmpty, hkeys])
    | joinedLocked hp hall =>
      rw [hmove.keys hS hearly ht ht' hkept.startTs (by simp [hp])] at hrow
      exact RowHeld.move hS hspare hmove ht (by simp [Transaction.Alive, hp]) hkept
        (mem_map_of_mem hrow) ((h.tasks ht hp).all_ok hall hrow)
    | lockTaken hp | validated hp | proposePrimary hp | primaryCommitted hp
    | proposeSecondary hp => exact hwas ht hkept.startTs (by simp [Transaction.Locked, hp])
    | _ => exact hlocked.elim

end Step

/-- **Step.** -/
theorem Rows.step (hS : Sound cfg S) (h : Rows cfg S) (hspare : Spares cfg S e)
    (hearly : WritesEarly S e) (hmove : Move cfg S e S')
    (hheard : ∀ call ∈ S'.calls, ∀ a, call.answer = some a → a.success = true →
      ∃ r ∈ call.results, r.success = true) : Rows cfg S' where
  prewritten hcall hcmd ht halive hr hsucc :=
    Rows.prewritten_step hS hspare hmove h hcall hcmd ht halive hr hsucc
  tasks ht hphase := Rows.tasks_step hS hspare hmove h hearly ht hheard hphase
  held ht hlocked _ hrow := Rows.held_step hS hspare hmove h hearly ht hlocked hrow

end System
end OxideDB.Txn
