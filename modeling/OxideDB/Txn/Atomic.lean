import OxideDB.Txn.SecondCall
import OxideDB.Txn.Tasks

/-!
# Two-phase commit

The primary key decides: once it has its write record, every other key of the transaction is
still locked for it or has its record too.  That can only fail when somebody rolls a key back
who has not made sure of the primary first.
-/

namespace OxideDB.Txn

open Raft (Bytes ApplyResult)
open Storage MVCCStateMachine List Option

variable {r : ApplyResult} {call : Call} {cmd : Command} {type : CommandType}

/-! ## What is still to come -/

namespace Transaction

variable (t : Transaction)

/-- The call may still propose the prewrite of a key. -/
def MayPrewrite (k : Bytes) : Prop :=
  match t.phase with
  | .active => True
  | .prewriting tasks => ∃ task ∈ tasks, ∃ row ∈ task.todo, row.1 = k
  | _ => False

/-- The call may still propose the commit of the primary key. -/
def MayCommit : Prop :=
  match t.phase with
  | .active | .awaitingLock | .validating _ => True
  | .prewriting _ => t.viaCommit = true
  | _ => False

instance (k : Bytes) : Decidable (t.MayPrewrite k) := by
  unfold MayPrewrite
  generalize t.phase = phase
  induction phase using Phase.casesOn <;> infer_instance

instance : Decidable t.MayCommit := by
  unfold MayCommit
  generalize t.phase = phase
  induction phase using Phase.casesOn <;> infer_instance

end Transaction

namespace System

/-- A command of this type for the key may still be applied. -/
def InFlight (S : System) (type : CommandType) (k : Bytes) (s : ℤ) : Prop :=
  ∃ call ∈ S.calls, call.live = true ∧ call.command.type = type ∧ call.command.key = some k ∧
    call.command.startTs = some s

/-- The primary key has no record, and no record will come: its lock is gone and no prewrite
is to come, or no commit is. -/
def Lost (cfg : Config) (S : System) (t : Transaction) : Prop :=
  (∀ c ∈ t.commitTs, (S.maps cfg).record t.primaryKey c ≠ some t.startTs) ∧
  ((S.maps cfg).lock t.primaryKey t.startTs = none ∧
      ¬ (InFlight S .prewrite t.primaryKey t.startTs ∨ t.MayPrewrite t.primaryKey) ∨
    ¬ (InFlight S .commit t.primaryKey t.startTs ∨ t.MayCommit))

/-- A key other than the primary is rolled back only when its transaction is lost, nothing is
written to a transaction that is being committed, and whoever hears that such a key is prewritten
hears it of a prewrite that has been applied. -/
def Patient (cfg : Config) (S : System) : Event → Prop
  | .applyEntry j _ => ∀ call ∈ S.calls[j]?, call.command.type = .rollback →
    ∀ k ∈ call.command.key, ∀ s ∈ call.command.startTs, ∀ f ∈ (S.maps cfg).lock k s,
      f.primaryKey ≠ k → ∀ t ∈ S.txns, t.startTs = s → Lost cfg S t
  | .addWrite i _ _ => ∀ t ∈ S.txns[i]?, t.phase = .active
  | .answer j a => a.success = true → ∀ call ∈ S.calls[j]?, call.command.type = .prewrite →
    call.command.key ≠ call.command.primaryKey → ∃ r ∈ call.results, r.success = true
  | _ => True

instance (S : System) (type : CommandType) (k : Bytes) (s : ℤ) :
    Decidable (InFlight S type k s) :=
  inferInstanceAs (Decidable (∃ call ∈ S.calls, _))

instance (cfg : Config) (S : System) (t : Transaction) : Decidable (Lost cfg S t) :=
  inferInstanceAs (Decidable (_ ∧ _))

instance (cfg : Config) (S : System) (e : Event) : Decidable (Patient cfg S e) := by
  induction e using Event.casesOn <;> dsimp only [Patient] <;> infer_instance

theorem Patient.writesEarly {cfg : Config} {S : System} {e : Event} (h : Patient cfg S e) :
    WritesEarly S e := by
  cases e with
  | addWrite => exact h
  | _ => trivial

/-- A key has the transaction's lock, or its record. -/
def Held (M : Maps) (k : Bytes) (s : ℤ) : Prop :=
  (∃ f, M.lock k s = some f) ∨ ∃ c, M.record k c = some s

/-- A key is held, or the transaction is lost. -/
def Safe (cfg : Config) (S : System) (t : Transaction) (k : Bytes) : Prop :=
  Held (S.maps cfg) k t.startTs ∨ Lost cfg S t

variable {cfg : Config} {S S' : System} {e : Event} {i j : ℕ} {t t' u : Transaction}
  {k : Bytes} {s c : ℤ}

/-! ## Nothing comes that was not to come -/

/-- A command in flight was in flight before, or is proposed. -/
theorem CallsMove.inFlight (h : CallsMove cfg S S'.calls) (hin : InFlight S' type k s) :
    InFlight S type k s ∨ ∃ cmd, Proposes cfg S cmd ∧
      cmd.type = type ∧ cmd.key = some k ∧ cmd.startTs = some s := by
  obtain ⟨call, hmem, hlive, htype, hkey, hs⟩ := hin
  generalize hcalls : S'.calls = calls at h hmem
  cases h with
  | same => exact .inl ⟨call, hmem, hlive, htype, hkey, hs⟩
  | proposed hcmd hwho =>
    rcases mem_append.1 hmem with hold | hnew
    · exact .inl ⟨call, hold, hlive, htype, hkey, hs⟩
    · obtain rfl := mem_singleton.1 hnew
      exact .inr ⟨_, hwho, htype, hkey, hs⟩
  | updated hcall hcommand hshard hlive₀ =>
    rcases mem_or_eq_of_mem_set hmem with hold | rfl
    · exact .inl ⟨call, hold, hlive, htype, hkey, hs⟩
    · rw [hcommand] at htype hkey hs
      exact .inl ⟨_, mem_of_getElem? hcall, hlive₀, htype, hkey, hs⟩

section

variable (h : TxnMove cfg S i t e t' S')
include h

theorem TxnMove.mayPrewrite (hk : t'.MayPrewrite k) : t.MayPrewrite k := by
  have hactive : t.phase = .active → t.MayPrewrite k := fun hp => by
    simp only [Transaction.MayPrewrite, hp]
  cases h with
  | addWrite | read | rollbackPending | rollbackCalled => exact hk
  | startEmpty _ hp | start _ hp | startRefused _ hp => exact hactive hp
  | proposePrewrite hp htask htodo =>
    obtain ⟨task', hmem, row, hrow, hkey⟩ := hk
    simp only [Transaction.MayPrewrite, hp]
    rcases mem_setTask hmem with rfl | hold
    · exact ⟨_, (openTask_mem htask).1, row, htodo ▸ hrow, hkey⟩
    · exact ⟨task', hold, row, hrow, hkey⟩
  | prewriteAnswered hp htask =>
    obtain ⟨task', hmem, row, hrow, hkey⟩ := hk
    simp only [Transaction.MayPrewrite, hp]
    rcases mem_setTask hmem with rfl | hold
    · exact ⟨_, (openTask_mem htask).1, row, ShardTask.mem_heard hrow, hkey⟩
    · exact ⟨task', hold, row, hrow, hkey⟩
  | joinedLocked =>
    unfold Transaction.MayPrewrite Transaction.locked at hk
    cases hv : t.viaCommit <;> simp [hv] at hk
  | _ => exact hk.elim

theorem TxnMove.mayCommit (hc : t'.MayCommit) : t.MayCommit := by
  cases h with
  | addWrite | read | rollbackPending | rollbackCalled => exact hc
  | startEmpty _ hp | start _ hp | startRefused _ hp | lockTaken hp | validated hp =>
    simp only [Transaction.MayCommit, hp]
  | proposePrewrite hp | prewriteAnswered hp =>
    simp only [Transaction.MayCommit, hp]
    exact hc
  | joinedLocked hp =>
    simp only [Transaction.MayCommit, hp]
    unfold Transaction.MayCommit Transaction.locked at hc
    cases hv : t.viaCommit <;> simp [hv] at hc ⊢
  | _ => exact hc.elim

end

/-- A transaction, and what a step has made of it: no more is to come. -/
structure Later (t t' : Transaction) : Prop extends Kept t t' where
  mayPrewrite {k : Bytes} (h : t'.MayPrewrite k) : t.MayPrewrite k
  mayCommit (h : t'.MayCommit) : t.MayCommit

theorem Later.refl (t : Transaction) : Later t t := ⟨Kept.refl t, id, id⟩

theorem Move.later (hS : Sound cfg S) (hmove : Move cfg S e S') (ht : t ∈ S.txns)
    (ht' : t' ∈ S'.txns) (hs : t'.startTs = t.startTs) : Later t t' := by
  cases hmove.txn_step hS ht ht' hs with
  | same => exact .refl t
  | aborted => exact ⟨⟨rfl, rfl, prefix_rfl, id⟩, id, id⟩
  | moved _ hmove hkept => exact ⟨hkept, hmove.mayPrewrite, hmove.mayCommit⟩

/-! ## A transaction that is lost stays lost -/

/-- The prewrite that is proposed is one the transaction may propose. -/
theorem Proposes.prewrite_of (hS : Sound cfg S) (h : Proposes cfg S cmd)
    (htype : cmd.type = .prewrite) (hkey : cmd.key = some k) (ht : t ∈ S.txns)
    (hs : cmd.startTs = some t.startTs) : t.MayPrewrite k := by
  cases h with
  | @prewrite i u tasks task key value htxn hphase htask hrow =>
    obtain rfl := hS.stamped.eq_of_startTs (mem_of_getElem? htxn) ht (some.inj hs)
    simp only [Transaction.MayPrewrite, hphase]
    exact ⟨task, htask, _, hrow, some.inj hkey⟩
  | _ => cases htype

/-- A lost transaction has no record on its primary key. -/
theorem Lost.no_record (hS : Sound cfg S) (ht : t ∈ S.txns) (h : Lost cfg S t) :
    (S.maps cfg).record t.primaryKey c ≠ some t.startTs := by
  intro hrec
  obtain ⟨u, hu, hus, huc, -⟩ := hS.owned.record hrec
  obtain rfl := hS.stamped.eq_of_startTs hu ht hus
  exact h.1 c huc hrec

theorem inFlight_of_pending (hcall : S.calls[j]? = some call) (hpending : 0 < call.pending)
    (htype : call.command.type = type) (hkey : call.command.key = some k)
    (hs : call.command.startTs = some s) : InFlight S type k s :=
  ⟨call, mem_of_getElem? hcall, by simp [Call.live, hpending], htype, hkey, hs⟩

theorem Lost.move (hS : Sound cfg S) (hmove : Move cfg S e S') (ht : t ∈ S.txns)
    (hlater : Later t t') (hkeys : t.keys ≠ []) (h : Lost cfg S t) : Lost cfg S' t' := by
  have hcalls := hmove.calls
  have hpk := hlater.primaryKey hkeys
  -- nothing that was not to come, comes
  have hprewrite : ¬ (InFlight S .prewrite t.primaryKey t.startTs ∨ t.MayPrewrite t.primaryKey) →
      ¬ (InFlight S' .prewrite t.primaryKey t.startTs ∨ t'.MayPrewrite t.primaryKey) := by
    rintro hno (hin | hmay)
    · rcases hcalls.inFlight hin with hin | ⟨cmd, hwho, htype, hkey, hs⟩
      · exact hno (.inl hin)
      · exact hno (.inr (hwho.prewrite_of hS htype hkey ht hs))
    · exact hno (.inr (hlater.mayPrewrite hmay))
  have hcommit : ¬ (InFlight S .commit t.primaryKey t.startTs ∨ t.MayCommit) →
      ¬ (InFlight S' .commit t.primaryKey t.startTs ∨ t'.MayCommit) := by
    rintro hno (hin | hmay)
    · rcases hcalls.inFlight hin with hin | ⟨cmd, hwho, htype, hkey, hs⟩
      · exact hno (.inl hin)
      · rcases hwho.commit_of hS htype ht hkey hs with hphase | ⟨c, hrec⟩
        · exact hno (.inr (by simp only [Transaction.MayCommit, hphase]))
        · exact h.no_record hS ht hrec
    · exact hno (.inr (hlater.mayCommit hmay))
  unfold Lost
  rw [hpk, hlater.startTs]
  rcases hmove.shards with ⟨j, now, rfl⟩ | hshards
  · obtain ⟨call, r, hcall, hpending, heff, -⟩ := hS.placed.effect hmove
    refine ⟨fun c _ hrec => ?_, ?_⟩
    · rcases heff.record_of hrec with hold | ⟨hcmd, ⟨f, hf⟩, -⟩
      · exact h.no_record hS ht hold
      have hin : InFlight S .commit t.primaryKey t.startTs :=
        inFlight_of_pending hcall hpending (by rw [hcmd]; rfl) (by rw [hcmd]; rfl)
          (by rw [hcmd]; rfl)
      rcases h.2 with ⟨hnone, -⟩ | hno
      · rw [hnone] at hf; cases hf
      · exact hno (.inl hin)
    · refine h.2.imp (fun ⟨hnone, hno⟩ => ⟨?_, hprewrite hno⟩) hcommit
      rcases hl : (S'.maps cfg).lock t.primaryKey t.startTs with _ | f
      · rfl
      rcases heff.lock_of hl with hold | ⟨p, v, hcmd, -⟩
      · rw [hnone] at hold; cases hold
      · exact absurd (.inl (inFlight_of_pending hcall hpending (by rw [hcmd]; rfl)
          (by rw [hcmd]; rfl) (by rw [hcmd]; rfl))) hno
  · rw [maps_congr hshards]
    exact ⟨fun c _ => h.no_record hS ht, h.2.imp (fun h => ⟨h.1, hprewrite h.2⟩) hcommit⟩

/-! ## A key that is held stays held, or the transaction is lost -/

theorem Held.effect {M M' : Maps} {now : Time} (heff : Effect now M cmd M' r)
    (hone : ∀ k s c s', cmd = .commit k s c → M.record k c = some s' → s' = s) (h : Held M k s) :
    Held M' k s ∨ cmd = .rollback k s ∧ ∃ f, M.lock k s = some f := by
  rcases h with ⟨f, hf⟩ | ⟨c, hrec⟩
  · cases heff with
    | refused | idle => exact .inl (.inl ⟨f, hf⟩)
    | @locked k₀ v p s₀ hfree =>
      refine .inl (.inl ⟨f, ?_⟩)
      rw [Maps.setLock_lock, if_neg, hf]
      rintro ⟨rfl, -⟩
      rw [hfree s] at hf
      cases hf
    | @committed k₀ s₀ c f₀ =>
      by_cases hks : k = k₀ ∧ s = s₀
      · obtain ⟨rfl, rfl⟩ := hks
        refine .inl (.inr ⟨c, ?_⟩)
        rw [Maps.setLock_record, Maps.putRecord_record]
        simp
      · refine .inl (.inl ⟨f, ?_⟩)
        rw [Maps.setLock_lock, if_neg hks]
        exact hf
    | @unlocked k₀ s₀ f₀ =>
      by_cases hks : k = k₀ ∧ s = s₀
      · obtain ⟨rfl, rfl⟩ := hks
        exact .inr ⟨rfl, f, hf⟩
      · refine .inl (.inl ⟨f, ?_⟩)
        rw [Maps.setLock_lock, if_neg hks]
        exact hf
  · exact .inl (.inr ⟨c, heff.record_mono hone hrec⟩)

theorem Safe.move (hS : Sound cfg S) (hpat : Patient cfg S e) (hmove : Move cfg S e S')
    (ht : t ∈ S.txns) (hlater : Later t t') (hk : k ∈ t.keys.map Prod.fst)
    (hne : k ≠ t.primaryKey) (h : Safe cfg S t k) : Safe cfg S' t' k := by
  have hkeys := ne_nil_of_mem_map hk
  rcases h with hheld | hlost
  · rcases hmove.shards with ⟨j, now, rfl⟩ | hshards
    · obtain ⟨call, r, hcall, -, heff, -⟩ := hS.placed.effect hmove
      rcases hheld.effect heff (hS.commit_one (mem_of_getElem? hcall)) with
        hheld | ⟨hcmd, f, hf⟩
      · exact .inl (hlater.startTs ▸ hheld)
      -- the lock is rolled back, so the transaction is lost
      obtain ⟨u, hu, hus, -, hup⟩ := hS.owned.lock hf
      obtain rfl := hS.stamped.eq_of_startTs hu ht hus
      have hlost := hpat call hcall (by rw [hcmd]; rfl) k (by rw [hcmd]; rfl) u.startTs
        (by rw [hcmd]; rfl) f hf (hup ▸ hne.symm) u ht rfl
      exact .inr (hlost.move hS hmove ht hlater hkeys)
    · refine .inl ?_
      rw [maps_congr hshards, hlater.startTs]
      exact hheld
  · exact .inr (hlost.move hS hmove ht hlater hkeys)

/-! ## The invariant -/

/-- A row is of the primary key, or of a key that is safe. -/
def SafeRow (cfg : Config) (S : System) (t : Transaction) (row : Bytes × Bytes) : Prop :=
  row.1 ≠ t.primaryKey → Safe cfg S t row.1

/-- Every key but the primary is safe. -/
def AllSafe (cfg : Config) (S : System) (t : Transaction) : Prop :=
  ∀ row ∈ t.keys, row.1 ≠ t.primaryKey → Safe cfg S t row.1

structure Atomic (cfg : Config) (S : System) : Prop where
  heard {call : Call} {k v p : Bytes} {s : ℤ} {a : Answer} (hcall : call ∈ S.calls)
    (hcmd : call.command = .prewrite k v s p) (hne : k ≠ p) (ha : call.answer = some a)
    (hsucc : a.success = true) : ∃ r ∈ call.results, r.success = true
  prewritten {call : Call} {t : Transaction} {k v p : Bytes} {r : ApplyResult}
    (hcall : call ∈ S.calls) (hcmd : call.command = .prewrite k v t.startTs p)
    (ht : t ∈ S.txns) (hne : k ≠ t.primaryKey) (hr : r ∈ call.results)
    (hsucc : r.success = true) : Safe cfg S t k
  tasks {t : Transaction} {tasks : List ShardTask} (ht : t ∈ S.txns)
    (hphase : t.phase = .prewriting tasks) : TasksOk S t (SafeRow cfg S t) tasks
  locked {t : Transaction} (ht : t ∈ S.txns)
    (hphase : t.phase = .awaitingLock ∨ ∃ todo, t.phase = .validating todo) : AllSafe cfg S t
  committing {call : Call} {t : Transaction} {c : ℤ} (hcall : call ∈ S.calls) (ht : t ∈ S.txns)
    (hcmd : call.command = .commit t.primaryKey t.startTs c) : AllSafe cfg S t
  committed {t : Transaction} {c : ℤ} (ht : t ∈ S.txns)
    (hrec : (S.maps cfg).record t.primaryKey c = some t.startTs) {row : Bytes × Bytes}
    (hrow : row ∈ t.keys) (hne : row.1 ≠ t.primaryKey) :
    Held (S.maps cfg) row.1 t.startTs

theorem Atomic.init (cfg : Config) : Atomic cfg (init cfg) where
  heard h := by cases h
  prewritten h := by cases h
  tasks h := by cases h
  locked h := by cases h
  committing h := by cases h
  committed h := by cases h

/-! ### A step keeps the invariant -/

section Step

variable (hS : Sound cfg S) (h : Atomic cfg S) (hpat : Patient cfg S e) (hmove : Move cfg S e S')

include hS hpat hmove

/-- The keys of a transaction that is not active stay safe. -/
theorem AllSafe.move (ht : t ∈ S.txns) (ht' : t' ∈ S'.txns) (hs : t'.startTs = t.startTs)
    (hactive : t.phase ≠ .active) (hall : AllSafe cfg S t) : AllSafe cfg S' t' := by
  have hlater := hmove.later hS ht ht' hs
  have hkeys := hmove.keys hS hpat.writesEarly ht ht' hs hactive
  intro row hrow hne
  rw [hkeys] at hrow
  have hmem : row.1 ∈ t.keys.map Prod.fst := mem_map_of_mem hrow
  rw [hlater.primaryKey (ne_nil_of_mem_map hmem)] at hne
  exact (hall row hrow hne).move hS hpat hmove ht hlater hmem hne

include h

theorem Atomic.heard_step {k v p : Bytes} {a : Answer} (hcall : call ∈ S'.calls)
    (hcmd : call.command = .prewrite k v s p) (hne : k ≠ p) (ha : call.answer = some a)
    (hsucc : a.success = true) : ∃ r ∈ call.results, r.success = true := by
  obtain ⟨j, hj⟩ := getElem?_of_mem hcall
  rcases hmove.call hS.placed hj with ⟨call₀, hcall₀, hupdate⟩ | ⟨shard, cmd, -, rfl, -⟩
  · have hcmd₀ := hupdate.command.symm.trans hcmd
    have hold (ha : call₀.answer = some a) : ∃ r ∈ call.results, r.success = true := by
      obtain ⟨r, hr, hok⟩ := h.heard (mem_of_getElem? hcall₀) hcmd₀ hne ha hsucc
      exact ⟨r, hupdate.results hr, hok⟩
    cases hupdate with
    | answered he =>
      subst he
      cases ha
      refine hpat hsucc call₀ hcall₀ (by rw [hcmd₀]; rfl) fun heq => hne ?_
      rw [hcmd₀] at heq
      exact some.inj heq
    | _ => exact hold ha
  · cases ha

theorem Atomic.prewritten_step {k v p : Bytes} (hcall : call ∈ S'.calls)
    (hcmd : call.command = .prewrite k v t'.startTs p) (ht' : t' ∈ S'.txns)
    (hne : k ≠ t'.primaryKey) (hr : r ∈ call.results) (hsucc : r.success = true) :
    Safe cfg S' t' k := by
  rcases hmove.results hS.placed hcall hr with ⟨call₀, hcall₀, hcmd₀, hr₀⟩ | ⟨now, heff⟩
  · -- an old result: the key was safe and is
    have hown := hS.owned.command hcall₀
    rw [hcmd₀, hcmd] at hown
    cases hown with
    | prewrite hw =>
      obtain ⟨t, ht, hts, hrow, -⟩ := hw
      have hlater := hmove.later hS ht ht' hts.symm
      have hmem : k ∈ t.keys.map Prod.fst := mem_map_of_mem hrow
      rw [hlater.primaryKey (ne_nil_of_mem_map hmem)] at hne
      refine Safe.move hS hpat hmove ht hlater hmem hne ?_
      exact h.prewritten hcall₀ (by rw [hcmd₀, hcmd, hts]) ht hne hr₀ hsucc
  · rw [hcmd] at heff
    obtain ⟨f, hf, -⟩ := heff.lock_of_prewrite hsucc
    exact .inl (.inl ⟨f, hf⟩)

theorem Atomic.committing_step (hcall : call ∈ S'.calls) (ht' : t' ∈ S'.txns)
    (hcmd : call.command = .commit t'.primaryKey t'.startTs c) : AllSafe cfg S' t' := by
  -- a transaction with a commit in flight has its commit timestamp, so it is not active
  have hold : ∀ {call₀}, call₀ ∈ S.calls → call₀.command = call.command → AllSafe cfg S' t' := by
    intro call₀ hcall₀ hcmd₀
    have hown := hS.owned.command hcall₀
    rw [hcmd₀, hcmd] at hown
    cases hown with
    | commit hcommits =>
      obtain ⟨t, ht, hts, hc, hk⟩ := hcommits
      have hlater := hmove.later hS ht ht' hts.symm
      rw [hcmd, hlater.startTs, hlater.primaryKey (ne_nil_of_mem_map hk)] at hcmd₀
      exact AllSafe.move hS hpat hmove ht ht' hts.symm
        (not_active_of_commitTs (hS.shaped ht) hc) (h.committing hcall₀ ht hcmd₀)
  have hcalls := hmove.calls
  generalize hgen : S'.calls = calls at hcalls hcall
  cases hcalls with
  | same => exact hold hcall rfl
  | updated hcall₀ hcommand =>
    rcases mem_or_eq_of_mem_set hcall with hmem | rfl
    · exact hold hmem rfl
    · exact hold (mem_of_getElem? hcall₀) hcommand.symm
  | proposed _ hwho =>
    rcases mem_append.1 hcall with hmem | hnew
    · exact hold hmem rfl
    obtain rfl := mem_singleton.1 hnew
    replace hcmd : _ = Command.commit t'.primaryKey t'.startTs c := hcmd
    cases hwho with
    | primary htxn hphase =>
      have hts := some.inj (congrArg Command.startTs hcmd)
      refine AllSafe.move hS hpat hmove (mem_of_getElem? htxn) ht' hts.symm
        (by simp [hphase]) ?_
      exact h.locked (mem_of_getElem? htxn) (.inr ⟨[], hphase⟩)
    | secondary htxn hphase hcommit hsec =>
      have ht := mem_of_getElem? htxn
      have hts := some.inj (congrArg Command.startTs hcmd)
      have hlater := hmove.later hS ht ht' hts.symm
      have hshape := (hS.shaped ht).phase
      simp only [Transaction.PhaseShape, hphase] at hshape
      rcases hshape with ⟨-, -, rfl, -⟩ | ⟨hk, -, -, hsecs⟩
      · cases hsec
      · refine absurd ?_ (hsecs _ hsec).1
        exact (some.inj (congrArg Command.key hcmd)).trans (hlater.primaryKey hk)
    | resolved hres hcommit =>
      obtain ⟨t, ht, hts, hrow, hp⟩ := hS.owned.resolution (mem_of_getElem? hres)
      have hts' := hts.trans (some.inj (congrArg Command.startTs hcmd))
      have hrec := record_of_primaryCommitTs hcommit
      rw [← hp, ← hts] at hrec
      obtain ⟨u, hu, hus, huc, -⟩ := hS.owned.record hrec
      obtain rfl := hS.stamped.eq_of_startTs hu ht hus
      refine AllSafe.move hS hpat hmove ht ht' hts'.symm
        (not_active_of_commitTs (hS.shaped ht) huc) fun row hrow hne => ?_
      exact .inl (h.committed ht hrec hrow hne)
    | _ => cases hcmd

theorem Atomic.committed_step (hS' : Sound cfg S') (ht' : t' ∈ S'.txns)
    (hrec : (S'.maps cfg).record t'.primaryKey c = some t'.startTs) {row : Bytes × Bytes}
    (hrow : row ∈ t'.keys) (hne : row.1 ≠ t'.primaryKey) :
    Held (S'.maps cfg) row.1 t'.startTs := by
  -- with the record there it is not lost, so it is enough that its keys are safe
  suffices hall : AllSafe cfg S' t' from
    (hall row hrow hne).resolve_right fun hlost => hlost.no_record hS' ht' hrec
  have hold : (S.maps cfg).record t'.primaryKey c = some t'.startTs → AllSafe cfg S' t' := by
    intro hrec
    obtain ⟨t, ht, hts, hc, hk⟩ := hS.owned.record hrec
    have hlater := hmove.later hS ht ht' hts.symm
    have hpk := hlater.primaryKey (ne_nil_of_mem_map hk)
    refine AllSafe.move hS hpat hmove ht ht' hts.symm
      (not_active_of_commitTs (hS.shaped ht) hc) fun row hrow hne => ?_
    rw [hpk, ← hts] at hrec
    exact .inl (h.committed ht hrec hrow hne)
  rcases hS.record_from hmove hrec with hrec | ⟨j, call, r, hcall, hcmd, -, -, htxns, -⟩
  · exact hold hrec
  have hcommand := hS.owned.command (mem_of_getElem? hcall)
  rw [hcmd] at hcommand
  cases hcommand with
  | commit hcommits =>
    obtain ⟨t, ht, hts, hc, hk⟩ := hcommits
    have ht₀ : t' ∈ S.txns := htxns ▸ ht'
    obtain rfl := hS.stamped.eq_of_startTs ht ht₀ hts
    exact AllSafe.move hS hpat hmove ht₀ ht' rfl (not_active_of_commitTs (hS.shaped ht₀) hc)
      (h.committing (mem_of_getElem? hcall) ht₀ hcmd)

theorem Atomic.tasks_step {tasks : List ShardTask} (ht' : t' ∈ S'.txns)
    (hphase : t'.phase = .prewriting tasks) : TasksOk S' t' (SafeRow cfg S' t') tasks := by
  refine hmove.tasks_step hS (SafeRow cfg) (fun t ht tasks hp => h.tasks ht hp) ht' hphase
    (fun t ht tasks hp hs => ?_) fun call hcall k v hcmd a ha hsucc hne => ?_
  · have hkeys := hmove.keys hS hpat.writesEarly ht ht' hs (by simp [hp])
    refine ⟨hkeys, fun row hrow hsafe hne => ?_⟩
    have hmem : row.1 ∈ t.keys.map Prod.fst := mem_map_of_mem hrow
    have hlater := hmove.later hS ht ht' hs
    rw [hlater.primaryKey (ne_nil_of_mem_map hmem)] at hne
    exact (hsafe hne).move hS hpat hmove ht hlater hmem hne
  · obtain ⟨r, hr, hok⟩ := h.heard_step hS hpat hmove hcall hcmd hne ha hsucc
    exact h.prewritten_step hS hpat hmove hcall hcmd ht' hne hr hok

theorem Atomic.locked_step (ht' : t' ∈ S'.txns)
    (hphase : t'.phase = .awaitingLock ∨ ∃ todo, t'.phase = .validating todo) :
    AllSafe cfg S' t' := by
  have hpassive : ∀ {u : Transaction},
      u.phase = .awaitingLock ∨ (∃ todo, u.phase = .validating todo) → u.phase ≠ .active := by
    rintro u (hp | ⟨todo, hp⟩) <;> simp [hp]
  -- it was waiting for the lock, or validating, before
  have hwas : ∀ {t}, t ∈ S.txns → t'.startTs = t.startTs →
      t.phase = .awaitingLock ∨ (∃ todo, t.phase = .validating todo) → AllSafe cfg S' t' :=
    fun ht hs hp => AllSafe.move hS hpat hmove ht ht' hs (hpassive hp) (h.locked ht hp)
  cases hmove.txn_from hS ht' with
  | old hold => exact hwas hold rfl hphase
  | fresh _ h => subst h; exact absurd rfl (hpassive hphase)
  | aborted hold h => subst h; exact hwas hold rfl hphase
  | @moved i t htxn ht htmove hkept =>
    cases htmove with
    | addWrite | read | rollbackPending | rollbackCalled => exact hwas ht rfl hphase
    | lockTaken hp => exact hwas ht hkept.startTs (.inl hp)
    | validated hp => exact hwas ht hkept.startTs (.inr ⟨_, hp⟩)
    | joinedLocked hp hall =>
      refine AllSafe.move hS hpat hmove ht ht' hkept.startTs (by simp [hp]) fun row hrow hne => ?_
      -- every task has got through its keys
      exact (h.tasks ht hp).all_ok hall hrow hne
    | _ =>
      rcases hphase with hphase | ⟨todo, hphase⟩ <;> cases hphase

end Step

/-- **Step.** -/
theorem Atomic.step (hS : Sound cfg S) (h : Atomic cfg S) (hpat : Patient cfg S e)
    (hstep : S.step cfg e = some S') : Atomic cfg S' where
  heard hcall hcmd hne ha hsucc := h.heard_step hS hpat (step_move hstep) hcall hcmd hne ha hsucc
  prewritten hcall hcmd ht hne hr hsucc :=
    h.prewritten_step hS hpat (step_move hstep) hcall hcmd ht hne hr hsucc
  tasks ht hphase := h.tasks_step hS hpat (step_move hstep) ht hphase
  locked ht hphase := h.locked_step hS hpat (step_move hstep) ht hphase
  committing hcall ht hcmd := h.committing_step hS hpat (step_move hstep) hcall ht hcmd
  committed ht hrec _ hrow hne :=
    h.committed_step hS hpat (step_move hstep) (hS.step hstep) ht hrec hrow hne

/-- **Two-phase commit is atomic**, in every run of patient steps in which no transaction is called
again: a transaction whose primary key has its write record has a lock or a write record on every
key it wrote. -/
theorem two_phase_atomic (cfg : Config) (es : List Recalled.Event) (R : Recalled)
    (hpat : Recalled.Along cfg (Recalled.Once (Patient cfg)) (.init cfg) es)
    (hrun : Recalled.run cfg (.init cfg) es = some R)
    (t : Transaction) (ht : t ∈ R.system.txns) (c : ℤ)
    (hrec : (R.system.machineOf cfg t.primaryKey).maps.record t.primaryKey c = some t.startTs)
    (k v : Bytes) (hrow : (k, v) ∈ t.keys) (hne : k ≠ t.primaryKey) :
    (∃ f, (R.system.machineOf cfg k).maps.lock k t.startTs = some f) ∨
      ∃ c', (R.system.machineOf cfg k).maps.record k c' = some t.startTs := by
  have hstep : ∀ S e S', Patient cfg S e → Sound cfg S ∧ Atomic cfg S → S.step cfg e = some S' →
      Sound cfg S' ∧ Atomic cfg S' :=
    fun S e S' hP hI hstep => ⟨hI.1.step hstep, hI.2.step hI.1 hP hstep⟩
  have hinv := Recalled.invariant hstep ⟨sound_init cfg, Atomic.init cfg⟩ hpat hrun
  exact hinv.2.committed ht hrec hrow hne

/-- Two shards, and one timestamp at a time. -/
def twoShards : Config := Config.unbatched fun k => (k.headD 0).toNat

/-- A transaction on two keys, up to the prewrite of the second. -/
def secondPrewritten : List Event :=
  [.begin 0, .addWrite 0 [1] [7], .addWrite 0 [2] [8], .start 0 true, .proposePrewrite 0 2] ++
    asked 0 ++ [.prewriteAnswered 0 2]

/-- The rest of it, up to the commit of the primary; the next proposal is number `j`. -/
def primaryCommits (j : ℕ) : List Event :=
  [.proposePrewrite 0 1] ++ asked j ++
    [.prewriteAnswered 0 1, .joined 0, .lockTaken 0, .proposePrimary 0] ++ asked (j + 1)

/-- Both prewrites, and the commit of the primary. -/
def bothPrewritten : List Recalled.Event := (secondPrewritten ++ primaryCommits 1).map .step

theorem two_phase_atomic_committed : ∃ R, Recalled.run twoShards (.init twoShards)
    bothPrewritten = some R ∧ ∃ t ∈ R.system.txns, t.primaryKey = [1] ∧ ([2], [8]) ∈ t.keys ∧
      (R.system.machineOf twoShards t.primaryKey).maps.record t.primaryKey 2 = some t.startTs ∧
      ((∃ f, (R.system.machineOf twoShards [2]).maps.lock [2] t.startTs = some f) ∨
        ∃ c, (R.system.machineOf twoShards [2]).maps.record [2] c = some t.startTs) := by
  have hpat : Recalled.Along twoShards (Recalled.Once (Patient twoShards)) (.init twoShards)
      bothPrewritten := by decide +kernel
  exact Transition.exists_run (p := fun R => ∃ t ∈ R.system.txns, t.primaryKey = [1] ∧
      ([2], [8]) ∈ t.keys ∧
      (R.system.machineOf twoShards t.primaryKey).maps.record t.primaryKey 2 = some t.startTs)
    (by decide +kernel) fun R hrun ⟨t, ht, hp, hrow, hrec⟩ => ⟨t, ht, hp, hrow, hrec,
      two_phase_atomic twoShards _ R hpat hrun t ht 2 hrec [2] [8] hrow (by rw [hp]; decide)⟩

/-- A resolver meets the lock of the second key and asks the primary's shard, which has
neither lock nor record yet; its rollback is applied. -/
def resolvedEarly : List Event :=
  [.meet [2], .readRecord 0, .readLock 0 0, .ask 1, .applyEntry 1 0]

/-- **A resolver splits a transaction**: after its rollback the primary is prewritten and
committed, and the second key has neither lock nor record. -/
theorem resolver_splits_transaction : ∃ S, run twoShards (init twoShards)
    (secondPrewritten ++ resolvedEarly ++ primaryCommits 2) = some S ∧ ∃ t ∈ S.txns,
      t.primaryKey = [1] ∧ ([2], [8]) ∈ t.keys ∧
      (S.machineOf twoShards [1]).maps.record [1] 2 = some t.startTs ∧
      (S.machineOf twoShards [2]).maps.lock [2] t.startTs = none ∧
      ∀ c, (S.machineOf twoShards [2]).maps.record [2] c ≠ some t.startTs := by
  refine Transition.exists_run (p := fun S => ∃ t ∈ S.txns, t.primaryKey = [1] ∧
      ([2], [8]) ∈ t.keys ∧ (S.machineOf twoShards [1]).maps.record [1] 2 = some t.startTs ∧
      (S.machineOf twoShards [2]).maps.lock [2] t.startTs = none ∧
      latest (S.machineOf twoShards [2]) [2] = none) (by decide +kernel)
    fun S _ ⟨t, ht, hp, hrow, hrec, hlock, hlatest⟩ =>
      ⟨t, ht, hp, hrow, hrec, hlock, fun c hc => ?_⟩
  have hkey : ValidKey [2] := by decide
  have hnew := newest_latest (S.machineOf twoShards [2]) hkey
  rw [hlatest] at hnew
  cases hnew with
  | none hall => rw [hall c] at hc; cases hc

/-! ## Whose rows they are -/

/-- **Every row is somebody's**, in every run: a lock or a value stands where a transaction wrote
it, and a write record where a transaction has committed. -/
theorem rows_owned (cfg : Config) (es : List Event) (S : System)
    (hrun : run cfg (init cfg) es = some S) (k : Bytes) :
    (∀ s f, (S.maps cfg).lock k s = some f → Writes S k f.value s f.primaryKey) ∧
      (∀ c s, (S.maps cfg).record k c = some s → Commits S k s c) ∧
      ∀ c w, (S.maps cfg).version k c = some w → ∃ s v p,
        (S.maps cfg).record k c = some s ∧ w = some v ∧ Writes S k v s p := by
  have hS := Transition.run_invariant (fun _ _ _ h hs => Sound.step h hs) (sound_init cfg) hrun
  exact ⟨fun _ _ => hS.owned.lock, fun _ _ => hS.owned.record, fun _ _ => hS.owned.version⟩

theorem rows_owned_prewritten : ∃ S, run twoShards (init twoShards) secondPrewritten = some S ∧
    ∃ f, (S.maps twoShards).lock [2] 1 = some f ∧ Writes S [2] f.value 1 f.primaryKey := by
  refine Transition.exists_run (p := fun S => ((S.maps twoShards).lock [2] 1).isSome)
    (by decide +kernel) fun S hrun hlock => ?_
  obtain ⟨f, hf⟩ := Option.isSome_iff_exists.1 hlock
  exact ⟨f, hf, (rows_owned twoShards _ S hrun [2]).1 1 f hf⟩

end System
end OxideDB.Txn
