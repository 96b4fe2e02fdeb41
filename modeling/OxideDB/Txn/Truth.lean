import OxideDB.Txn.Ownership
import OxideDB.Txn.SecondCall

/-!
# What `commit` returns

`commit` answers from what it has heard of the primary's commit, and what it hears of a
proposal and what becomes of it are two things.
-/

namespace OxideDB.Txn

open Raft (Bytes ApplyResult)
open Storage MVCCStateMachine List

variable {call : Call}

/-- Nothing of the proposal has been applied with success, and nothing will be. -/
def Call.Spent (call : Call) : Prop :=
  call.live = false ∧ ∀ r ∈ call.results, r.success = false

/-- The answer is what the machine said to every entry of the proposal that was applied, and none is
left; where none was applied, it is not a success. -/
def Call.Truly (call : Call) (a : Answer) : Prop :=
  call.pending = 0 ∧ (∀ r ∈ call.results, a = .result r) ∧ (a.success = true → call.results ≠ [])

instance (call : Call) (a : Answer) : Decidable (call.Truly a) :=
  inferInstanceAs (Decidable (_ ∧ _))

namespace System

/-- A commit of the transaction's primary key has been applied. -/
def CommitApplied (S : System) (t : Transaction) (c : ℤ) : Prop :=
  ∃ call ∈ S.calls, call.command = .commit t.primaryKey t.startTs c ∧
    ∃ r ∈ call.results, r.success = true

/-- A coordinator that is answered about its primary's commit, is told what the machine said. -/
def Honest (S : System) : Event → Prop
  | .answer j a => a ≠ .raised → ∀ t ∈ S.txns, t.phase = .committing j →
    ∀ call ∈ S.calls[j]?, call.Truly a
  | _ => True

instance (S : System) (t : Transaction) (c : ℤ) : Decidable (CommitApplied S t c) :=
  inferInstanceAs (Decidable (∃ call ∈ S.calls, _))

instance (S : System) (e : Event) : Decidable (Honest S e) := by
  induction e using Event.casesOn <;> dsimp only [Honest] <;> infer_instance

variable {cfg : Config} {S S' : System} {e : Event} {i j : ℕ} {t t' u : Transaction}
  {k : Bytes} {s c : ℤ}

/-- No commit of the primary key was applied or will be. -/
def Refused (S : System) (t : Transaction) : Prop :=
  ∀ call ∈ S.calls, ∀ c, call.command = .commit t.primaryKey t.startTs c → call.Spent

/-- The proposal a coordinator waits for: it wrote the primary's record, if there is one, and
any other commit of the primary came after that. -/
structure Waiting (cfg : Config) (S : System) (t : Transaction) (j : ℕ) (call : Call) : Prop where
  posted : S.calls[j]? = some call
  wrote {c : ℤ} (h : (S.maps cfg).record t.primaryKey c = some t.startTs) :
    ∃ r ∈ call.results, r.success = true
  failed {a : Answer} (h : call.answer = some a) (hsucc : a.success = false) (hne : a ≠ .raised) :
    call.Spent
  heard {a : Answer} (h : call.answer = some a) (hsucc : a.success = true) :
    ∃ r ∈ call.results, r.success = true
  only {j' : ℕ} {call' : Call} {c : ℤ} (h : S.calls[j']? = some call')
    (hcmd : call'.command = .commit t.primaryKey t.startTs c) :
    j' = j ∨ ∃ c, (S.maps cfg).record t.primaryKey c = some t.startTs

/-- The call of `commit` is rolling back, or has returned `(False, None)`. -/
def Over (t : Transaction) : Prop :=
  (∃ todo call, t.phase = .rollingBack todo call) ∨ t.returned = some (false, none)

structure Truthful (cfg : Config) (S : System) : Prop where
  /-- A record is left by a commit that has succeeded. -/
  earned {k : Bytes} {s c : ℤ} (h : (S.maps cfg).record k c = some s) :
    ∃ call ∈ S.calls, call.command = .commit k s c ∧ ∃ r ∈ call.results, r.success = true
  committing {t : Transaction} {j : ℕ} (ht : t ∈ S.txns) (hphase : t.phase = .committing j) :
    ∃ call, Waiting cfg S t j call
  refused {t : Transaction} (ht : t ∈ S.txns) (hover : Over t) : Refused S t
  /-- `commit` goes on to the other keys when the primary has its record. -/
  committed {t : Transaction} {ks : List Bytes} (ht : t ∈ S.txns) (hphase : t.phase = .committed ks)
    (hkeys : t.keys ≠ []) :
    ∃ c, t.commitTs = some c ∧ (S.maps cfg).record t.primaryKey c = some t.startTs
  /-- So does whoever commits a key other than the primary. -/
  backed {call : Call} {t : Transaction} {k : Bytes} {c : ℤ} (hcall : call ∈ S.calls)
    (ht : t ∈ S.txns) (hcmd : call.command = .commit k t.startTs c) :
    k = t.primaryKey ∨ (S.maps cfg).record t.primaryKey c = some t.startTs

theorem Truthful.init (cfg : Config) : Truthful cfg (init cfg) where
  earned h := by simp [maps, machineOf, System.init, MVCCStateMachine.maps,
    MVCCStateMachine.empty] at h
  committing ht := by cases ht
  refused ht := by cases ht
  committed ht := by cases ht
  backed h := by cases h

/-- Before its commit timestamp is drawn, no commit of a transaction is proposed. -/
theorem Sound.no_commit (hS : Sound cfg S) (ht : t ∈ S.txns) (hc : t.commitTs = none)
    (hcall : call ∈ S.calls) : call.command ≠ .commit k t.startTs c := by
  intro hcmd
  have hown := hS.owned.command hcall
  rw [hcmd] at hown
  cases hown with
  | commit hcommits =>
    obtain ⟨u, hu, hs, hcu, -⟩ := hcommits
    obtain rfl := hS.stamped.eq_of_startTs hu ht hs
    rw [hc] at hcu
    cases hcu

theorem Truthful.earned_step (hS : Sound cfg S) (h : Truthful cfg S) (hmove : Move cfg S e S')
    (hrec : (S'.maps cfg).record k c = some s) :
    ∃ call ∈ S'.calls, call.command = .commit k s c ∧ ∃ r ∈ call.results, r.success = true := by
  rcases hS.record_from hmove hrec with hrec | ⟨j, call, r, hcall, hcmd, hcalls, hsucc, -⟩
  · obtain ⟨call, hcall, hcmd, r, hr, hsucc⟩ := h.earned hrec
    obtain ⟨j, hj⟩ := getElem?_of_mem hcall
    obtain ⟨call', hcall', hupdate⟩ := hmove.call_next hS.placed hj
    exact ⟨call', mem_of_getElem? hcall', hupdate.command.trans hcmd, r, hupdate.results hr,
      hsucc⟩
  · obtain ⟨hlt, -⟩ := List.getElem?_eq_some_iff.1 hcall
    exact ⟨call.applied r, hcalls ▸ mem_set hlt _, hcmd, r,
      mem_append_right _ (mem_singleton_self r), hsucc⟩

theorem CallUpdate.eq_of_spent {call' : Call} (h : call.Spent)
    (hupdate : CallUpdate cfg S S' e j call call') : call' = call := by
  have hlive := h.1
  cases hupdate with
  | same => rfl
  | asked hopen | answered _ hopen => simp [Call.live, hopen] at hlive
  | applied hpending => simp [Call.live, hpending] at hlive

/-- A transaction that is over before the step has no commit after it. -/
theorem Refused.move (hS : Sound cfg S) (h : Truthful cfg S) (hmove : Move cfg S e S')
    (ht : t ∈ S.txns) (hover : Over t) (hkeys : t.keys ≠ []) (hkept : Kept t t') :
    Refused S' t' := by
  have hrefused := h.refused ht hover
  intro call' hcall' c hcmd'
  rw [hkept.primaryKey hkeys, hkept.startTs] at hcmd'
  obtain ⟨j, hj⟩ := getElem?_of_mem hcall'
  rcases hmove.call hS.placed hj with ⟨call, hcall, hupdate⟩ | ⟨shard, cmd, -, rfl, hwho, -⟩
  · have hspent := hrefused call (mem_of_getElem? hcall) c (hupdate.command ▸ hcmd')
    rw [CallUpdate.eq_of_spent hspent hupdate]
    exact hspent
  · -- nobody proposes another
    obtain rfl : cmd = .commit t.primaryKey t.startTs c := hcmd'
    rcases hwho.commit_of hS rfl ht rfl rfl with hphase | ⟨c', hrec⟩
    · have hshape := (hS.shaped ht).phase
      simp only [Transaction.PhaseShape, hphase] at hshape
      rcases hover with ⟨todo, call?, hback⟩ | hret
      · rw [hphase] at hback; cases hback
      · rw [hshape.2.2] at hret; cases hret
    · obtain ⟨call, hcall, hcmd, r, hr, hsucc⟩ := h.earned hrec
      have hfail := (hrefused call hcall c' hcmd).2 r hr
      rw [hsucc] at hfail
      cases hfail

/-- How a call of `commit` comes to roll back, or to return `(False, None)`. -/
theorem TxnMove.over (ht : t.Shaped) (h : TxnMove cfg S i t e t' S') (hover : Over t') :
    Over t ∨ t.commitTs = none ∧ S'.calls = S.calls ∨
      ∃ j a, t.phase = .committing j ∧ S.answerOf j = some a ∧ a.success = false ∧ a ≠ .raised ∧
        S'.calls = S.calls := by
  have hshape := ht.phase
  unfold Transaction.PhaseShape at hshape
  cases h with
  | startRefused _ hp | start _ hp | startEmpty _ hp =>
    simp only [hp] at hshape
    exact .inr (.inl ⟨hshape.1, rfl⟩)
  | joinedFailed hp | joinedLocked hp | prewriteAnswered hp | lockTaken hp | validated hp
  | conflict _ hp | primaryRefused hp =>
    simp only [hp] at hshape
    exact .inr (.inl ⟨hshape.1, rfl⟩)
  | primaryFailed hp hans hsucc hraised => exact .inr (.inr ⟨_, _, hp, hans, hsucc, hraised, rfl⟩)
  | primaryCommitted =>
    rcases hover with ⟨_, _, hback⟩ | hret
    · cases hback
    · cases hret
  | proposeRollback hp | rollbackAnswered hp | rolledBack hp => exact .inl (.inl ⟨_, _, hp⟩)
  | proposePrewrite | proposePrimary | proposeSecondary | closed =>
    rcases hover with ⟨_, _, hback⟩ | hret
    · cases hback
    · exact .inl (.inr hret)
  | _ => exact .inl hover

theorem Over.keys_ne_nil (ht : t.Shaped) (h : Over t) : t.keys ≠ [] := by
  have hshape := ht.phase
  unfold Transaction.PhaseShape at hshape
  rcases h with ⟨todo, call?, hp⟩ | hret
  · simp only [hp] at hshape
    exact hshape.1
  cases hp : t.phase with
  | closed => simp only [hp] at hshape; exact hshape.1
  | _ =>
    simp [hp, hret] at hshape

section

variable (hS : Sound cfg S)
include hS

theorem Truthful.refused_step (h : Truthful cfg S) (hmove : Move cfg S e S') (ht' : t' ∈ S'.txns)
    (hover : Over t') : Refused S' t' := by
  -- the transaction was over already
  have hwas : ∀ {t}, t ∈ S.txns → Kept t t' → Over t → Refused S' t' := fun ht hkept hover =>
    Refused.move hS h hmove ht hover (hover.keys_ne_nil (hS.shaped ht)) hkept
  cases hmove.txn_from hS ht' with
  | old hold => exact hwas hold (Kept.refl _) hover
  | fresh _ h =>
    subst h
    rcases hover with ⟨_, _, hback⟩ | hret
    · cases hback
    · cases hret
  | aborted hold h =>
    subst h
    exact hwas hold ⟨rfl, rfl, prefix_rfl, id⟩ hover
  | @moved i t htxn ht htmove hkept =>
    rcases htmove.over (hS.shaped ht) hover with
      hold | ⟨hc, hcalls⟩ | ⟨j, a, hp, hans, hsucc, hraised, hcalls⟩
    · exact hwas ht hkept hold
    · intro call hcall c hcmd
      rw [hkept.startTs] at hcmd
      exact absurd hcmd (hS.no_commit ht hc (hcalls ▸ hcall))
    · -- the proposal it has waited for is spent, and there is no other
      obtain ⟨call, hwait⟩ := h.committing ht hp
      rw [answerOf, hwait.posted] at hans
      have hspent := hwait.failed hans hsucc hraised
      have hnone : ¬ ∃ c, (S.maps cfg).record t.primaryKey c = some t.startTs := by
        rintro ⟨c, hrec⟩
        obtain ⟨r, hr, hok⟩ := hwait.wrote hrec
        rw [hspent.2 r hr] at hok
        cases hok
      intro call' hcall' c hcmd'
      rw [hkept.primaryKey (phase_keys_ne_nil (hS.shaped ht) hp), hkept.startTs] at hcmd'
      rw [hcalls] at hcall'
      obtain ⟨j', hj'⟩ := getElem?_of_mem hcall'
      obtain rfl := (hwait.only hj' hcmd').resolve_right hnone
      cases hj'.symm.trans hwait.posted
      exact hspent

theorem Waiting.move (hhonest : Honest S e) (hmove : Move cfg S e S') (ht : t ∈ S.txns)
    (hphase : t.phase = .committing j) (hkept : Kept t t') (h : Waiting cfg S t j call) :
    ∃ call', Waiting cfg S' t' j call' := by
  have hpk := hkept.primaryKey (phase_keys_ne_nil (hS.shaped ht) hphase)
  obtain ⟨call', hcall', hupdate⟩ := hmove.call_next hS.placed h.posted
  refine ⟨call', hcall', fun {c} hrec => ?_, fun {a} hans hsucc hne => ?_,
    fun {a} hans hsucc => ?_, fun {j' call₁ c} hcall₁ hcmd₁ => ?_⟩
  · rw [hpk, hkept.startTs] at hrec
    rcases hS.record_from hmove hrec with hrec | ⟨j₁, call₁, r, hcall₁, hcmd₁, hcalls, hsucc, -⟩
    · obtain ⟨r, hr, hsucc⟩ := h.wrote hrec
      exact ⟨r, hupdate.results hr, hsucc⟩
    rcases h.only hcall₁ hcmd₁ with rfl | ⟨c', hrec⟩
    · -- the record is of the entry just applied
      obtain ⟨hlt, -⟩ := List.getElem?_eq_some_iff.1 hcall₁
      rw [hcalls, getElem?_set_self hlt] at hcall'
      cases hcall'
      exact ⟨r, mem_append_right _ (mem_singleton_self r), hsucc⟩
    · obtain ⟨r, hr, hsucc⟩ := h.wrote hrec
      exact ⟨r, hupdate.results hr, hsucc⟩
  · cases hupdate with
    | same => exact h.failed hans hsucc hne
    | asked hopen => rw [hopen] at hans; cases hans
    | applied hpending =>
      have hspent := h.failed hans hsucc hne
      simp [Call.Spent, Call.live, hpending] at hspent
    | answered he =>
      subst he
      cases hans
      obtain ⟨hpending, hsaid, -⟩ := hhonest hne t ht hphase call h.posted
      refine ⟨by simp [Call.live, hpending], fun r hr => ?_⟩
      rw [hsaid r hr] at hsucc
      exact hsucc
  · have hold (hans : call.answer = some a) : ∃ r ∈ call'.results, r.success = true := by
      obtain ⟨r, hr, hok⟩ := h.heard hans hsucc
      exact ⟨r, hupdate.results hr, hok⟩
    cases hupdate with
    | answered he =>
      subst he
      cases hans
      have hne : a ≠ .raised := fun heq => by rw [heq] at hsucc; cases hsucc
      obtain ⟨-, hsaid, hsome⟩ := hhonest hne t ht hphase call h.posted
      obtain ⟨r, hr⟩ := exists_mem_of_ne_nil _ (hsome hsucc)
      rw [hsaid r hr] at hsucc
      exact ⟨r, hr, hsucc⟩
    | _ => exact hold hans
  · rw [hpk, hkept.startTs] at hcmd₁ ⊢
    rcases hmove.call hS.placed hcall₁ with ⟨call₀, hcall₀, hupdate₁⟩ | ⟨shard, cmd, -, rfl, hwho, -⟩
    · rcases h.only hcall₀ (hupdate₁.command ▸ hcmd₁) with hj | ⟨c', hrec⟩
      · exact .inl hj
      · exact .inr ⟨c', hS.record_mono hmove hrec⟩
    · obtain rfl : cmd = .commit t.primaryKey t.startTs c := hcmd₁
      rcases hwho.commit_of hS rfl ht rfl rfl with hval | ⟨c', hrec⟩
      · rw [hphase] at hval; cases hval
      · exact .inr ⟨c', hS.record_mono hmove hrec⟩

/-- The commit of the primary key has just been proposed. -/
theorem Waiting.proposed (ht : t ∈ S.txns) (hc : t.commitTs = none)
    (hpk : t'.primaryKey = t.primaryKey) (hs : t'.startTs = t.startTs)
    (hcalls : S'.calls = S.calls ++ [call]) (hshards : S'.shards = S.shards)
    (hans : call.answer = none) : Waiting cfg S' t' S.calls.length call := by
  have hnone : ∀ {c}, (S'.maps cfg).record t'.primaryKey c ≠ some t'.startTs := by
    intro c hrec
    rw [maps_congr hshards, hpk, hs] at hrec
    obtain ⟨u, hu, hus, huc, -⟩ := hS.owned.record hrec
    obtain rfl := hS.stamped.eq_of_startTs hu ht hus
    rw [hc] at huc
    cases huc
  refine ⟨by rw [hcalls, getElem?_concat_length], fun h => absurd h hnone,
    fun h => absurd (hans.symm.trans h) nofun, fun h => absurd (hans.symm.trans h) nofun,
    fun {j' call' c} hcall' hcmd' => ?_⟩
  rw [hcalls] at hcall'
  rcases getElem?_concat hcall' with hold | ⟨hj, -⟩
  · rw [hs] at hcmd'
    exact absurd hcmd' (hS.no_commit ht hc (mem_of_getElem? hold))
  · exact .inl hj

theorem Truthful.committing_step (h : Truthful cfg S) (hhonest : Honest S e)
    (hmove : Move cfg S e S') (ht' : t' ∈ S'.txns) (hphase : t'.phase = .committing j) :
    ∃ call, Waiting cfg S' t' j call := by
  -- it was waiting already
  have hwas : ∀ {t}, t ∈ S.txns → Kept t t' → t.phase = .committing j →
      ∃ call, Waiting cfg S' t' j call := fun ht hkept hp =>
    (h.committing ht hp).elim fun _ hwait => hwait.move hS hhonest hmove ht hp hkept
  cases hmove.txn_from hS ht' with
  | old hold => exact hwas hold (Kept.refl _) hphase
  | fresh _ h => subst h; cases hphase
  | aborted hold h => subst h; exact hwas hold ⟨rfl, rfl, prefix_rfl, id⟩ hphase
  | @moved i t htxn ht htmove hkept =>
    have hshape := (hS.shaped ht).phase
    cases htmove with
    | addWrite | read | rollbackPending | rollbackCalled => exact hwas ht hkept hphase
    | proposePrimary hp =>
      obtain rfl := Phase.committing.inj hphase
      simp only [Transaction.PhaseShape, hp] at hshape
      exact ⟨_, .proposed hS ht hshape.1 rfl rfl rfl rfl rfl⟩
    | joinedLocked => exact absurd (Transaction.locked_phase hphase) (by simp)
    | _ => cases hphase

theorem Truthful.committed_step (h : Truthful cfg S) (hmove : Move cfg S e S') (ht' : t' ∈ S'.txns)
    {ks : List Bytes} (hphase : t'.phase = .committed ks) (hkeys : t'.keys ≠ []) :
    ∃ c, t'.commitTs = some c ∧ (S'.maps cfg).record t'.primaryKey c = some t'.startTs := by
  -- the record was there already
  have hold : ∀ {t c}, Kept t t' → t.keys ≠ [] → t.commitTs = some c →
      (S.maps cfg).record t.primaryKey c = some t.startTs →
      ∃ c, t'.commitTs = some c ∧ (S'.maps cfg).record t'.primaryKey c = some t'.startTs := by
    intro t c hkept hk hc hrec
    rw [hkept.primaryKey hk, hkept.startTs]
    exact ⟨c, hkept.commitTs hc, hS.record_mono hmove hrec⟩
  have hwas : ∀ {t ks}, t ∈ S.txns → Kept t t' → t.phase = .committed ks → t.keys ≠ [] →
      ∃ c, t'.commitTs = some c ∧ (S'.maps cfg).record t'.primaryKey c = some t'.startTs := by
    intro t ks ht hkept hp hk
    obtain ⟨c, hc, hrec⟩ := h.committed ht hp hk
    exact hold hkept hk hc hrec
  cases hmove.txn_from hS ht' with
  | old ht => exact hwas ht (.refl _) hphase hkeys
  | fresh _ heq => subst heq; cases hphase
  | aborted ht heq => subst heq; exact hwas ht ⟨rfl, rfl, prefix_rfl, id⟩ hphase hkeys
  | @moved i t htxn ht htmove hkept =>
    have hshape := (hS.shaped ht).phase
    unfold Transaction.PhaseShape at hshape
    cases htmove with
    | addWrite hstatus =>
      simp only [show t.phase = .committed ks from hphase] at hshape
      rcases hshape with ⟨-, hpending, -⟩ | hshape
      · exact absurd hstatus hpending
      · exact hwas ht hkept hphase hshape.1
    | read | rollbackPending | rollbackCalled => exact hwas ht hkept hphase hkeys
    | startEmpty _ _ hnil => exact absurd hnil hkeys
    | proposeSecondary hp => exact hwas ht hkept hp hkeys
    | primaryCommitted hp hans hsucc =>
      obtain ⟨call, hwait⟩ := h.committing ht hp
      rw [answerOf, hwait.posted] at hans
      obtain ⟨r, hr, hok⟩ := hwait.heard hans hsucc
      obtain ⟨call', c, hcall, hc, hcmd⟩ := hS.owned.committing ht hp
      cases hwait.posted.symm.trans hcall
      exact hold hkept hkeys hc (hS.owned.succeeded (mem_of_getElem? hcall) hcmd hr hok)
    | joinedLocked => exact absurd (Transaction.locked_phase hphase) (by simp)
    | _ => cases hphase

theorem Truthful.backed_step (h : Truthful cfg S) (hmove : Move cfg S e S') (hcall : call ∈ S'.calls)
    (ht' : t' ∈ S'.txns) (hcmd : call.command = .commit k t'.startTs c) :
    k = t'.primaryKey ∨ (S'.maps cfg).record t'.primaryKey c = some t'.startTs := by
  -- it is the primary key, or the record was there already
  have hwas : ∀ {t}, t ∈ S.txns → t.startTs = t'.startTs → t.keys ≠ [] →
      k = t.primaryKey ∨ (S.maps cfg).record t.primaryKey c = some t.startTs →
      k = t'.primaryKey ∨ (S'.maps cfg).record t'.primaryKey c = some t'.startTs := by
    intro t ht hs hk hold
    rw [(hmove.kept hS ht ht' hs.symm).primaryKey hk, ← hs]
    exact hold.imp_right (hS.record_mono hmove)
  obtain ⟨j, hj⟩ := getElem?_of_mem hcall
  rcases hmove.call hS.placed hj with ⟨call₀, hcall₀, hupdate⟩ | ⟨shard, cmd, -, rfl, hwho, -⟩
  · have hmem := mem_of_getElem? hcall₀
    rw [hupdate.command] at hcmd
    have hown := hS.owned.command hmem
    rw [hcmd] at hown
    cases hown with
    | commit hcommits =>
      obtain ⟨t, ht, hs, -, hk⟩ := hcommits
      exact hwas ht hs (ne_nil_of_mem_map hk) (h.backed hmem ht (hs ▸ hcmd))
  · have hshape {i : ℕ} {u : Transaction} (hu : S.txns[i]? = some u) :=
      (hS.shaped (mem_of_getElem? hu)).phase
    obtain rfl : cmd = .commit k t'.startTs c := hcmd
    obtain ⟨s, hs⟩ : ∃ s, s = t'.startTs := ⟨_, rfl⟩
    rw [← hs] at hwho
    cases hwho with
    | primary htxn hphase =>
      have hshape := hshape htxn
      simp only [Transaction.PhaseShape, hphase] at hshape
      exact hwas (mem_of_getElem? htxn) hs hshape.2.1 (.inl rfl)
    | secondary htxn hphase hcommit hsec =>
      have hshape := hshape htxn
      simp only [Transaction.PhaseShape, hphase] at hshape
      rcases hshape with ⟨-, -, rfl, -⟩ | ⟨hk, -⟩
      · cases hsec
      obtain ⟨c', hc', hrec⟩ := h.committed (mem_of_getElem? htxn) hphase hk
      cases hcommit.symm.trans hc'
      exact hwas (mem_of_getElem? htxn) hs hk (.inr hrec)
    | resolved hres hcommit =>
      obtain ⟨u, hu, hus, hrow, hup⟩ := hS.owned.resolution (mem_of_getElem? hres)
      have hrec := record_of_primaryCommitTs hcommit
      rw [← hup, ← hus] at hrec
      exact hwas hu (hus.trans hs) (ne_nil_of_mem hrow) (.inr hrec)

/-- **Step.** -/
theorem Truthful.step (h : Truthful cfg S) (hhonest : Honest S e) (hstep : S.step cfg e = some S') :
    Truthful cfg S' where
  earned hrec := h.earned_step hS (step_move hstep) hrec
  committing ht hphase := h.committing_step hS hhonest (step_move hstep) ht hphase
  refused ht hover := h.refused_step hS (step_move hstep) ht hover
  committed ht hphase hkeys := h.committed_step hS (step_move hstep) ht hphase hkeys
  backed hcall ht hcmd := h.backed_step hS (step_move hstep) hcall ht hcmd

end

/-- **`commit` tells the truth**, in every run of honest steps in which no transaction is called
again: what has returned `(True, c)` has had its primary's commit at `c` applied, and of what has
returned `(False, None)` no commit of the primary key is applied. -/
theorem commit_tells_truth (cfg : Config) (es : List Recalled.Event) (R : Recalled)
    (hhonest : Recalled.Along cfg (Recalled.Once Honest) (.init cfg) es)
    (hrun : Recalled.run cfg (.init cfg) es = some R)
    (t : Transaction) (ht : t ∈ R.system.txns) (hkeys : t.keys ≠ []) (ok : Bool) (c : Option ℤ)
    (hret : t.returned = some (ok, c)) :
    (ok = true → ∃ commitTs, c = some commitTs ∧ CommitApplied R.system t commitTs) ∧
      (ok = false → ∀ commitTs, ¬ CommitApplied R.system t commitTs) := by
  have hstep : ∀ S e S', Honest S e → Sound cfg S ∧ Truthful cfg S → S.step cfg e = some S' →
      Sound cfg S' ∧ Truthful cfg S' :=
    fun S e S' hP hI hstep => ⟨hI.1.step hstep, hI.2.step hI.1 hP hstep⟩
  obtain ⟨hS, htruth⟩ := Recalled.invariant hstep ⟨sound_init cfg, Truthful.init cfg⟩ hhonest hrun
  have hshape := (hS.shaped ht).phase
  unfold Transaction.PhaseShape at hshape
  cases hp : t.phase with
  | closed =>
    simp only [hp, hret] at hshape
    obtain ⟨rfl, rfl⟩ := Prod.mk.inj (Option.some.inj (hshape.2.resolve_left (by simp)))
    refine ⟨fun h => absurd h Bool.false_ne_true,
      fun _ commitTs ⟨call, hcall, hcmd, r, hr, hsucc⟩ => ?_⟩
    have hspent := htruth.refused ht (.inr hret) call hcall commitTs hcmd
    rw [hspent.2 r hr] at hsucc
    cases hsucc
  | committed secondaries =>
    simp only [hp] at hshape
    obtain ⟨hk, -⟩ | ⟨-, -, hret', -⟩ := hshape
    · exact absurd hk hkeys
    · obtain ⟨rfl, rfl⟩ := Prod.mk.inj (Option.some.inj (hret.symm.trans hret'))
      refine ⟨fun _ => ?_, fun h => absurd h (by decide)⟩
      obtain ⟨commitTs, hc, hrec⟩ := htruth.committed ht hp hkeys
      exact ⟨commitTs, hc, htruth.earned hrec⟩
  | _ =>
    simp [hp, hret] at hshape

/-- One shard, and one timestamp at a time. -/
def oneShard : Config := Config.unbatched fun _ => 0

/-- A transaction on one key, up to the proposal of its commit. -/
def commitProposed : List Event :=
  [.begin 0, .addWrite 0 [1] [7], .start 0 true, .proposePrewrite 0 0, .ask 0, .applyEntry 0 0,
    .answer 0 (.result .ok), .prewriteAnswered 0 0, .joined 0, .lockTaken 0, .proposePrimary 0]

/-- The commit is applied and answered, and `commit` returns. -/
def commitAnswered : List Event :=
  commitProposed ++ [.ask 1, .applyEntry 1 0, .answer 1 (.result .ok), .primaryAnswered 0]

theorem commit_tells_truth_answered :
    ∃ R, Recalled.run oneShard (.init oneShard) (commitAnswered.map .step) = some R ∧
      ∃ t ∈ R.system.txns, t.returned = some (true, some 2) ∧ CommitApplied R.system t 2 := by
  have hhonest : Recalled.Along oneShard (Recalled.Once Honest) (.init oneShard)
      (commitAnswered.map .step) := by decide +kernel
  refine Transition.exists_run (p := fun R => ∃ t ∈ R.system.txns, t.keys ≠ [] ∧
    t.returned = some (true, some 2)) (by decide +kernel) fun R hrun ⟨t, ht, hkeys, hret⟩ => ?_
  obtain ⟨commitTs, hc, happ⟩ :=
    (commit_tells_truth oneShard _ R hhonest hrun t ht hkeys true (some 2) hret).1 rfl
  cases hc
  exact ⟨t, ht, hret, happ⟩

/-- What a proposer is told whose entry was not committed in time. -/
def timedOut : ApplyResult := .failure .errTimeout "Proposal timeout"

/-- The commit is applied, its proposer is told of a timeout, and rolls back. -/
def commitTimedOut : List Event :=
  commitProposed ++ [.ask 1, .applyEntry 1 0, .answer 1 (.result timedOut), .primaryAnswered 0,
    .proposeRollback 0, .ask 2, .applyEntry 2 0, .answer 2 (.result .ok), .rollbackAnswered 0,
    .rolledBack 0]

/-- **A timeout hides a commit**: `commit` has returned `(False, None)`, and the commit of the
primary key has been applied. -/
theorem timeout_hides_commit :
    ∃ R, Recalled.run oneShard (.init oneShard) (commitTimedOut.map .step) = some R ∧
      ∃ t ∈ R.system.txns, t.keys ≠ [] ∧ t.returned = some (false, none) ∧
        CommitApplied R.system t 2 :=
  Transition.exists_of_any (by decide +kernel)

end System
end OxideDB.Txn
