import OxideDB.Txn.Answered
import OxideDB.Txn.Rows

/-!
# The commit lock

Validation and the commit of the primary key are one section under the coordinator's commit
lock.  So the commit timestamps of one coordinator are in the order in which its transactions
go through the section, and a transaction that validates its reads has before it exactly the
transactions that have a smaller commit timestamp.
-/

namespace OxideDB.Txn

open Raft (Bytes)
open Storage MVCCStateMachine List Function Transaction

variable {todo : List Bytes} {c' : ℤ}

namespace Transaction

variable (t : Transaction)

/-- The transaction holds the commit lock, and has not turned to rolling back. -/
def InSection : Prop :=
  match t.phase with
  | .validating _ | .committing _ => True
  | _ => False

/-- The key of the read set that is checked next. -/
def nextCheck : Option Bytes :=
  match t.phase with
  | .validating (key :: _) => some key
  | _ => none

end Transaction

namespace System

/-- One coordinator and nothing fails: every call is of `commit`, after the reads and writes;
every shard has a leader; a proposal is put into the log once, and answered with what the
machine said. -/
def Unfailing (S : System) : Event → Prop
  | .begin n => n = 0
  | .read i _ => ∀ t ∈ S.txns[i]?, t.phase = .active
  | .addWrite i _ _ => ∀ t ∈ S.txns[i]?, t.phase = .active
  | .start _ viaCommit => viaCommit = true
  | .startRefused _ _ | .validateRefused _ | .primaryRefused _ | .abandon _ | .rollback _ => False
  | .ask j => ∀ call ∈ S.calls[j]?, call.pending = 0 ∧ call.results = []
  | .answer j a => ∀ call ∈ S.calls[j]?, call.pending = 0 ∧ ∃ r ∈ call.results, a = .result r
  | _ => True

instance (S : System) (e : Event) : Decidable (Unfailing S e) := by
  induction e using Event.casesOn <;> dsimp only [Unfailing] <;> infer_instance

variable {cfg : Config} {S S' : System} {e : Event} {i j : ℕ} {t t' u u' : Transaction}
  {k : Bytes} {s c : ℤ}

/-! ## One at a time in the section -/

/-- Who is in the section holds the lock. -/
def Exclusive (S : System) : Prop :=
  ∀ i t, S.txns[i]? = some t → t.InSection → S.commitLock t.coordinator = some i

theorem Exclusive.init (cfg : Config) : Exclusive (init cfg) := fun i t h => by
  simp [System.init] at h

/-- Two transactions of one coordinator in the section are one. -/
theorem Exclusive.unique (h : Exclusive S) (ht : t ∈ S.txns) (hu : u ∈ S.txns)
    (hcoord : t.coordinator = u.coordinator) (hsec : t.InSection) (hsec' : u.InSection) : t = u := by
  obtain ⟨i, hi⟩ := getElem?_of_mem ht
  obtain ⟨j, hj⟩ := getElem?_of_mem hu
  have hlock := h i t hi hsec
  rw [hcoord, h j u hj hsec'] at hlock
  cases hlock
  exact Option.some.inj (hi.symm.trans hj)

theorem unlock_other {n : ℕ} (h : S.commitLock n = some j) (hne : i ≠ j) :
    (S.unlock i t).commitLock n = some j := by
  unfold unlock
  split
  · rename_i hown
    show update S.commitLock t.coordinator none n = some j
    rw [update_of_ne]
    · exact h
    · rintro rfl
      rw [h] at hown
      exact hne (Option.some.inj hown).symm
  · exact h

/-- A transaction has moved, and the locks of the others are as they were. -/
theorem Exclusive.set (h : Exclusive S) (hset : S'.txns = S.txns.set i t')
    (hown : t'.InSection → S'.commitLock t'.coordinator = some i)
    (hother : ∀ j n, i ≠ j → S.commitLock n = some j → S'.commitLock n = some j) :
    Exclusive S' := by
  intro j u hu hsec
  rw [hset] at hu
  rcases getElem?_set_eq_some hu with ⟨rfl, rfl⟩ | ⟨hne, hold⟩
  · exact hown hsec
  · exact hother j _ hne (h j u hold hsec)

theorem Exclusive.txn (h : Exclusive S) (htxn : S.txns[i]? = some t)
    (hmove : TxnMove cfg S i t e t' S') : Exclusive S' := by
  -- it is in the section as it was before
  have hsame : ∀ {t'}, S'.txns = S.txns.set i t' → t'.coordinator = t.coordinator →
      (t'.InSection → t.InSection) → S'.commitLock = S.commitLock → Exclusive S' := by
    intro t' hset hcoord hsec hlock
    refine h.set hset (fun hs => ?_) fun j n _ hj => hlock ▸ hj
    rw [hlock, hcoord]
    exact h i t htxn (hsec hs)
  cases hmove with
  | addWrite | read | rollbackPending => exact hsame rfl rfl id rfl
  | rollbackCalled => exact hsame (set_self htxn).symm rfl id rfl
  | joinedLocked =>
    refine hsame rfl rfl (fun hs => ?_) rfl
    unfold Transaction.InSection locked at hs
    cases hv : t.viaCommit <;> simp [hv] at hs
  | validated hp | proposePrimary hp =>
    exact hsame rfl rfl (fun _ => by simp [Transaction.InSection, hp]) rfl
  | lockTaken hp hfree htodo =>
    refine h.set rfl (fun _ => update_self _ _ _) fun j n _ hj => ?_
    show update S.commitLock t.coordinator (some i) n = some j
    rw [update_of_ne]
    · exact hj
    · rintro rfl
      rw [hfree] at hj
      cases hj
  | primaryCommitted | rolledBack | closed =>
    exact h.set unlock_txns False.elim fun j n hne hj => unlock_other hj hne
  | _ => exact hsame rfl rfl False.elim rfl

theorem Exclusive.step (h : Exclusive S) (hmove : Move cfg S e S') : Exclusive S' := by
  cases hmove with
  | txn htxn hmove => exact h.txn htxn hmove
  | begin =>
    intro i t ht hsec
    rcases getElem?_concat ht with hold | ⟨-, rfl⟩
    · exact h i t hold hsec
    · exact hsec.elim
  | @cleanupDone n i t cleanups htxn =>
    have hlock := h i t htxn
    exact h.set rfl hlock fun j n _ hj => hj
  | _ => exact h

/-! ## Nothing fails -/

theorem Unfailing.answered (h : Unfailing S e) : Answered S e := by
  cases e with
  | ask | answer => exact h
  | _ => trivial

theorem Unfailing.writesEarly (h : Unfailing S e) : WritesEarly S e := by
  cases e with
  | addWrite => exact h
  | _ => trivial

/-! ## The transactions of one coordinator -/

/-- What holds of a transaction where there is one coordinator and nothing fails. -/
structure Regular (t : Transaction) : Prop where
  coordinator : t.coordinator = 0
  reads {k : Bytes} {v : Option Bytes} (h : (k, v) ∈ t.reads) : k ∈ t.readSet
  via : t.phase = .active ∨ t.viaCommit = true
  closed (h : t.phase = .closed) : t.returned = some (false, none)

theorem mem_addRead {key : Bytes} {value : Option Bytes} (h : k ∈ t.readSet ∨ k = key) :
    k ∈ (t.addRead key value).readSet := by
  unfold addRead
  dsimp only
  split
  · rename_i hmem
    rcases h with h | rfl
    · exact h
    · exact hmem
  · rw [mem_orderedInsert]
    exact h.symm

theorem Regular.move (hS : Sound cfg S) (honce : Once S) (hcalm : Unfailing S e)
    (hmove : Move cfg S e S') (h : ∀ t ∈ S.txns, Regular t) : ∀ t' ∈ S'.txns, Regular t' := by
  intro t' ht'
  cases hmove.txn_from hS ht' with
  | old hold => exact h t' hold
  | fresh _ heq he =>
    subst heq he
    exact ⟨hcalm, fun hr => (by cases hr), .inl rfl, nofun⟩
  | aborted hold heq =>
    subst heq
    have ht := h _ hold
    exact ⟨ht.coordinator, ht.reads, ht.via, ht.closed⟩
  | @moved i t _ hmem htmove hkept =>
    have ht := h t hmem
    cases htmove with
    | addWrite =>
      exact ⟨ht.coordinator, ht.reads, ht.via, ht.closed⟩
    | read =>
      refine ⟨ht.coordinator, fun {k v} hr => mem_addRead ?_, ht.via, ht.closed⟩
      rcases mem_append.1 hr with hr | hr
      · exact .inl (ht.reads hr)
      · exact .inr (Prod.mk.inj (mem_singleton.1 hr)).1
    | startEmpty =>
      exact ⟨ht.coordinator, ht.reads, .inr rfl, nofun⟩
    | start =>
      exact ⟨ht.coordinator, ht.reads, .inr hcalm, nofun⟩
    | closed he hactive hcommitted hwhy =>
      rcases hwhy with rfl | ⟨call, hraised⟩
      · exact hcalm.elim
      · exact absurd hraised honce.not_raised
    | joinedLocked hp =>
      have hvia : t.viaCommit = true := ht.via.resolve_left (by simp [hp])
      refine ⟨ht.coordinator, ht.reads, .inr hvia, fun hclosed => ?_⟩
      simp [locked, hvia] at hclosed
    | rolledBack hp =>
      have hvia : t.viaCommit = true := ht.via.resolve_left (by simp [hp])
      exact ⟨ht.coordinator, ht.reads, .inr hvia, fun _ => if_pos hvia⟩
    | proposePrewrite hp | prewriteAnswered hp | joinedFailed hp | lockTaken hp | validated hp
    | conflict _ hp | proposePrimary hp | primaryFailed hp | proposeRollback hp
    | rollbackAnswered hp | proposeSecondary hp =>
      exact ⟨ht.coordinator, ht.reads, .inr (ht.via.resolve_left (by simp [hp])),
        nofun⟩
    | primaryCommitted hp =>
      exact ⟨ht.coordinator, ht.reads, .inr (ht.via.resolve_left (by simp [hp])),
        nofun⟩
    | _ => exact hcalm.elim

/-- With one coordinator, a commit timestamp is above every start timestamp. -/
theorem Unfailing.current (hS : Sound cfg S) (hreg : ∀ t ∈ S.txns, Regular t)
    (h : Unfailing S e) : Current S e := by
  cases e with
  | proposePrimary i =>
    intro t ht hex u hu
    obtain ⟨n, hn⟩ := hS.stamped.natural hu (.inl rfl)
    have hown : u.coordinator = t.coordinator :=
      (hreg u hu).coordinator.trans (hreg t (mem_of_getElem? ht)).coordinator.symm
    have hlt := hS.stamped.allotment.above ⟨u, hu, hown, .inl hn⟩
      (show (S.clocks t.coordinator).Holds (S.clocks t.coordinator).localStart from
        ⟨le_rfl, by simpa [Tso.TSOClient.exhausted] using hex⟩)
    rw [hn]
    exact_mod_cast hlt
  | primaryRefused => exact h.elim
  | _ => trivial

/-- Where a transaction has got to in a step, as far as the section goes. -/
inductive Stride (cfg : Config) (S : System) (e : Event) (t t' : Transaction) : Prop
  | rest (hphase : t'.phase = t.phase) (hc : t'.commitTs = t.commitTs)
      (hread : t'.readSet = t.readSet) (hkeys : t'.keys = t.keys)
  | opened (hp : t.phase = .active) (hp' : t'.phase = .active)
  | empty (hp : t.phase = .active) (hp' : t'.phase = .committed []) (hkeys : t'.keys = [])
  | outside (hsec : ¬ t'.InSection) (hactive : t'.phase ≠ .active) (hc : t'.commitTs = t.commitTs)
      (hread : t'.readSet = t.readSet) (hkeys : t'.keys = t.keys)
  | entered (hp : t.phase = .awaitingLock) (hp' : t'.phase = .validating t.readSet)
      (hc : t'.commitTs = t.commitTs) (hread : t'.readSet = t.readSet) (hkeys : t'.keys = t.keys)
  | checked {i : ℕ} {key : Bytes} {rest : List Bytes} {record : Option WriteRecord}
      (he : e = .validateKey i) (htxn : S.txns[i]? = some t)
      (hp : t.phase = .validating (key :: rest)) (hp' : t'.phase = .validating rest)
      (hrecord : (S.machineOf cfg key).getWriteRecord key = .ok record)
      (hold : ∀ w ∈ record, w.commitTs ≤ t.startTs)
      (hc : t'.commitTs = t.commitTs) (hread : t'.readSet = t.readSet) (hkeys : t'.keys = t.keys)
  | drawn {n : ℕ} (hp : t.phase = .validating []) (hp' : t'.phase = .committing n)
      (hc : t'.commitTs = some (S.draw t.coordinator).1) (hread : t'.readSet = t.readSet)
      (hkeys : t'.keys = t.keys)

/-- **Every step of a transaction is such a stride**, where nothing fails. -/
theorem TxnMove.stride (hvalidate : cfg.validateReads = true) (honce : Once S)
    (hcalm : Unfailing S e) (hreg : Regular t) (htxn : S.txns[i]? = some t)
    (hmove : TxnMove cfg S i t e t' S') : Stride cfg S e t t' := by
  cases hmove with
  | addWrite | read =>
    exact .opened (hcalm t htxn) (hcalm t htxn)
  | startEmpty _ hp hkeys =>
    exact .empty hp rfl hkeys
  | joinedLocked hp =>
    have hvia : t.viaCommit = true := hreg.via.resolve_left (by simp [hp])
    refine .outside ?_ ?_ rfl rfl rfl <;> simp [Transaction.InSection, locked, hvia]
  | lockTaken hp _ htodo =>
    refine .entered hp ?_ rfl rfl rfl
    rw [htodo, if_pos hvalidate]
  | validated hp hrecord hold =>
    exact .checked rfl htxn hp rfl hrecord hold rfl rfl rfl
  | proposePrimary hp =>
    exact .drawn hp rfl rfl rfl rfl
  | startRefused | primaryRefused | rollbackPending | rollbackCalled => exact hcalm.elim
  | closed _ _ _ hwhy =>
    rcases hwhy with rfl | ⟨call, hraised⟩
    · exact hcalm.elim
    · exact absurd hraised honce.not_raised
  | _ => exact .outside id nofun rfl rfl rfl

/-- Everything there is about runs of one coordinator in which nothing fails and the locks of
living transactions are spared. -/
structure Orderly (cfg : Config) (S : System) : Prop where
  sound : Sound cfg S
  tracked : Tracked S
  truthful : Truthful cfg S
  rows : Rows cfg S
  once : Once S
  exclusive : Exclusive S
  regular {t : Transaction} (h : t ∈ S.txns) : Regular t

theorem Orderly.init (cfg : Config) : Orderly cfg (init cfg) where
  sound := sound_init cfg
  tracked := .init cfg
  truthful := .init cfg
  rows := .init cfg
  once := .init cfg
  exclusive := .init cfg
  regular h := by cases h

theorem Orderly.step (h : Orderly cfg S) (hcalm : Unfailing S e) (hspare : Spares cfg S e)
    (hstep : S.step cfg e = some S') : Orderly cfg S' where
  sound := h.sound.step hstep
  tracked := h.tracked.step h.sound hcalm.answered.prompt hstep
  truthful := h.truthful.step h.sound (hcalm.answered.honest h.once) hstep
  rows := h.rows.step h.sound hspare hcalm.writesEarly (step_move hstep)
    fun _ hcall _ => (h.once.step h.sound hcalm.answered (step_move hstep)).heard hcall
  once := h.once.step h.sound hcalm.answered (step_move hstep)
  exclusive := h.exclusive.step (step_move hstep)
  regular ht := Regular.move h.sound h.once hcalm (step_move hstep) (fun _ => h.regular) _ ht

/-- The transaction's primary key is committed at `c`. -/
def Decided (cfg : Config) (S : System) (u : Transaction) (c : ℤ) : Prop :=
  (S.maps cfg).record u.primaryKey c = some u.startTs

namespace Orderly

variable (h : Orderly cfg S)
include h

/-- A transaction after a step: it has just begun, or has made a stride. -/
theorem stride (hvalidate : cfg.validateReads = true) (hcalm : Unfailing S e)
    (hmove : Move cfg S e S') (ht' : t' ∈ S'.txns) :
    t'.phase = .active ∧ t'.commitTs = none ∨
      ∃ t ∈ S.txns, t'.startTs = t.startTs ∧ Stride cfg S e t t' := by
  cases hmove.txn_from h.sound ht' with
  | old hold => exact .inr ⟨t', hold, rfl, .rest rfl rfl rfl rfl⟩
  | fresh _ heq => subst heq; exact .inl ⟨rfl, rfl⟩
  | aborted hold heq => subst heq; exact .inr ⟨_, hold, rfl, .rest rfl rfl rfl rfl⟩
  | moved htxn ht htmove hkept =>
    exact .inr ⟨_, ht, hkept.startTs,
      htmove.stride hvalidate h.once hcalm (h.regular ht) htxn⟩

/-- Two transactions in the section are one. -/
theorem alone (ht : t ∈ S.txns) (hu : u ∈ S.txns) (hsec : t.InSection) (hsec' : u.InSection) :
    t = u :=
  h.exclusive.unique ht hu ((h.regular ht).coordinator.trans (h.regular hu).coordinator.symm)
    hsec hsec'

/-- A transaction that has its commit timestamp is in the section still, is through it, or has
turned to rolling back. -/
theorem phase_of_commitTs (hu : u ∈ S.txns) (hc : u.commitTs = some c) (hover : ¬ Over u) :
    (∃ j, u.phase = .committing j) ∨ ∃ ks, u.phase = .committed ks := by
  have hshape := (h.sound.shaped hu).phase
  unfold Transaction.PhaseShape at hshape
  cases hp : u.phase with
  | committing j => exact .inl ⟨j, rfl⟩
  | rollingBack todo call => exact absurd (.inl ⟨todo, call, hp⟩) hover
  | committed ks => exact .inr ⟨ks, rfl⟩
  | closed => exact absurd (.inr ((h.regular hu).closed hp)) hover
  | _ => simp [hp, hc] at hshape

/-- A transaction whose primary key is committed is in the section still, or `commit` has
returned. -/
theorem decided_phase (hu : u ∈ S.txns) (hd : Decided cfg S u c) :
    u.commitTs = some c ∧ u.keys ≠ [] ∧
      ((∃ j, u.phase = .committing j) ∨ ∃ ks, u.phase = .committed ks) := by
  obtain ⟨w, hw, hws, hwc, hk⟩ := h.sound.owned.record hd
  obtain rfl := h.sound.stamped.eq_of_startTs hw hu hws
  refine ⟨hwc, ne_nil_of_mem_map hk, h.phase_of_commitTs hu hwc fun hover => ?_⟩
  -- where `commit` rolls back, no commit of the primary key has been applied
  obtain ⟨call, hcall, hcmd, r, hr, hsucc⟩ := h.truthful.earned hd
  have hspent := h.truthful.refused hu hover call hcall c hcmd
  rw [hspent.2 r hr] at hsucc
  cases hsucc

/-- A primary key is committed while its transaction is in the section. -/
theorem decided_from (hcalm : Unfailing S e) (hmove : Move cfg S e S') (hu' : u' ∈ S'.txns)
    (hd : Decided cfg S' u' c) :
    ∃ u ∈ S.txns, u'.startTs = u.startTs ∧ u'.keys = u.keys ∧
      (Decided cfg S u c ∨ u.commitTs = some c ∧ ∃ j, u.phase = .committing j) := by
  rcases h.sound.record_from hmove hd with
    hrec | ⟨j, call, r, hcall, hcmd, -, -, htxns, hpending⟩
  · obtain ⟨u, hu, hus, huc, hk⟩ := h.sound.owned.record hrec
    have hkeys := hmove.keys h.sound hcalm.writesEarly hu hu' hus.symm
      (not_active_of_commitTs (h.sound.shaped hu) huc)
    refine ⟨u, hu, hus.symm, hkeys, .inl ?_⟩
    have hkept := hmove.kept h.sound hu hu' hus.symm
    rw [hkept.primaryKey (ne_nil_of_mem_map hk), ← hus] at hrec
    exact hrec
  · have hu : u' ∈ S.txns := htxns ▸ hu'
    refine ⟨u', hu, rfl, rfl, ?_⟩
    have hown := h.sound.owned.command (mem_of_getElem? hcall)
    rw [hcmd] at hown
    cases hown with
    | commit hcommits =>
      obtain ⟨w, hw, hs, hc, hk⟩ := hcommits
      obtain rfl := h.sound.stamped.eq_of_startTs hw hu hs
      have hphase := h.phase_of_commitTs hu hc fun hover => by
        have hspent := h.truthful.refused hu hover call (mem_of_getElem? hcall) c hcmd
        simp [Call.Spent, Call.live, hpending] at hspent
      rcases hphase with hp | ⟨ks, hp⟩
      · exact .inr ⟨hc, hp⟩
      obtain ⟨c', hc', hrec⟩ := h.truthful.committed hu hp (ne_nil_of_mem_map hk)
      cases hc.symm.trans hc'
      exact .inl hrec

end Orderly

/-! ## The order of the section -/

/-- A key is validated when no lock of a committed transaction is on it. -/
def Attentive (cfg : Config) (S : System) : Event → Prop
  | .validateKey i => ∀ t ∈ S.txns[i]?, ∀ key ∈ t.nextCheck, ∀ u ∈ S.txns,
    (S.maps cfg).lock key u.startTs ≠ none → ∀ c ∈ u.commitTs,
      (S.maps cfg).record u.primaryKey c ≠ some u.startTs
  | _ => True

instance (cfg : Config) (S : System) (e : Event) : Decidable (Attentive cfg S e) := by
  induction e using Event.casesOn <;> dsimp only [Attentive] <;> infer_instance

/-- The commit timestamps are in the order of the section, and what a transaction has read was
not overwritten between its two timestamps. -/
structure Sequenced (cfg : Config) (S : System) : Prop where
  /-- Who commits has the greatest commit timestamp. -/
  latest {u t : Transaction} {j : ℕ} {c c' : ℤ} (hu : u ∈ S.txns) (hp : u.phase = .committing j)
    (hc : u.commitTs = some c) (ht : t ∈ S.txns) (hne : t.startTs ≠ u.startTs)
    (hc' : t.commitTs = some c') (hkeys : t.keys ≠ []) : c' < c
  /-- What has been validated was not overwritten since the start. -/
  checked {t u : Transaction} {todo : List Bytes} {k : Bytes} {c : ℤ} (ht : t ∈ S.txns)
    (hp : t.phase = .validating todo) (hk : k ∈ t.readSet) (htodo : k ∉ todo) (hu : u ∈ S.txns)
    (hne : u.startTs ≠ t.startTs) (hd : Decided cfg S u c) (hku : k ∈ u.keys.map Prod.fst) :
    c ≤ t.startTs
  valid {t u : Transaction} {k : Bytes} {c c' : ℤ} (ht : t ∈ S.txns) (hc' : t.commitTs = some c')
    (hkeys : t.keys ≠ []) (hk : k ∈ t.readSet) (hu : u ∈ S.txns) (hne : u.startTs ≠ t.startTs)
    (hd : Decided cfg S u c) (hku : k ∈ u.keys.map Prod.fst) : c ≤ t.startTs ∨ c' < c

theorem Sequenced.init (cfg : Config) : Sequenced cfg (init cfg) where
  latest h := by cases h
  checked h := by cases h
  valid h := by cases h

theorem inSection_of_committing {j : ℕ} (h : u.phase = .committing j) : u.InSection := by
  simp [Transaction.InSection, h]

theorem inSection_of_validating (h : t.phase = .validating todo) : t.InSection := by
  simp [Transaction.InSection, h]

theorem Stride.commitTs (h : Stride cfg S e t t') (ht' : t'.Shaped) (hc : t'.commitTs = some c)
    (hkeys : t'.keys ≠ []) :
    t.commitTs = some c ∧ t'.keys = t.keys ∧ t'.readSet = t.readSet ∨
      t.phase = .validating [] ∧ c = (S.draw t.coordinator).1 ∧ t'.keys = t.keys ∧
        t'.readSet = t.readSet := by
  cases h with
  | rest _ hc' hread hk | outside _ _ hc' hread hk | entered _ _ hc' hread hk
  | checked _ _ _ _ _ _ hc' hread hk => exact .inl ⟨hc' ▸ hc, hk, hread⟩
  | opened _ hp' => exact absurd hp' (not_active_of_commitTs ht' hc)
  | empty _ _ hnil => exact absurd hnil hkeys
  | drawn hp _ hc' hread hk =>
    exact .inr ⟨hp, Option.some.inj (hc.symm.trans hc'), hk, hread⟩

/-- What `get_write_record` answers is the newest record. -/
theorem le_of_getWriteRecord {record : Option WriteRecord}
    (h : (S.machineOf cfg k).getWriteRecord k = .ok record)
    (hold : ∀ w ∈ record, w.commitTs ≤ s) {x : ℤ} (hrec : (S.maps cfg).record k c = some x) :
    c ≤ s := by
  by_cases hkey : ValidKey k
  · rw [getWriteRecord_eq _ hkey] at h
    cases h
    have hnew := newest_latest (S.machineOf cfg k) hkey
    cases hl : latest (S.machineOf cfg k) k with
    | none =>
      rw [hl] at hnew
      cases hnew with
      | none hall => exact absurd hrec (by rw [show (S.maps cfg).record k c = none from hall c]; simp)
    | some w =>
      rw [hl] at hnew
      exact (Newest.le hnew hrec).trans (hold w hl)
  · obtain ⟨msg, hmsg⟩ := getWriteRecord_invalid (S.machineOf cfg k) hkey
    rw [hmsg] at h
    cases h

section Step

variable (h : Orderly cfg S) (h' : Sound cfg S') (hseq : Sequenced cfg S)
  (hvalidate : cfg.validateReads = true) (hcalm : Unfailing S e) (hatt : Attentive cfg S e)
  (hmove : Move cfg S e S')

include h h' hseq hvalidate hcalm hmove

theorem Sequenced.latest_step (hu' : u' ∈ S'.txns) (hp' : u'.phase = .committing j)
    (hc : u'.commitTs = some c) (ht' : t' ∈ S'.txns) (hne : t'.startTs ≠ u'.startTs)
    (hc' : t'.commitTs = some c') (hkeys : t'.keys ≠ []) : c' < c := by
  rcases h.stride hvalidate hcalm hmove hu' with ⟨-, hnone⟩ | ⟨u, hu, hus, hstride⟩
  · rw [hnone] at hc; cases hc
  rcases h.stride hvalidate hcalm hmove ht' with ⟨-, hnone⟩ | ⟨t, ht, hts, hstride'⟩
  · rw [hnone] at hc'; cases hc'
  rw [hus, hts] at hne
  have horigin := hstride'.commitTs (h'.shaped ht') hc' hkeys
  cases hstride with
  | rest hphase hcu =>
    rw [hphase] at hp'
    rw [hcu] at hc
    rcases horigin with ⟨hct, hk, -⟩ | ⟨hval, -⟩
    · exact hseq.latest hu hp' hc ht hne hct (hk ▸ hkeys)
    · -- nobody else draws while it commits
      exact absurd (congrArg startTs (h.alone ht hu (inSection_of_validating hval)
        (inSection_of_committing hp'))) hne
  | drawn hval _ hcu =>
    rcases horigin with ⟨hct, -⟩ | ⟨hval', -⟩
    · obtain ⟨n, hn, -, -, habove, -⟩ := h.sound.stamped.draw u.coordinator
      obtain ⟨m, hm⟩ := h.sound.stamped.natural ht (.inr hct)
      have hlt := habove m ⟨t, ht, (h.regular ht).coordinator.trans
        (h.regular hu).coordinator.symm, .inr (hm ▸ hct)⟩
      rw [hcu, hn] at hc
      rw [hm, ← Option.some.inj hc]
      exact_mod_cast hlt
    · exact absurd (congrArg startTs (h.alone ht hu (inSection_of_validating hval')
        (inSection_of_validating hval))) hne
  | opened _ hopen => rw [hp'] at hopen; cases hopen
  | empty _ hend => rw [hp'] at hend; cases hend
  | outside hsec => exact absurd (inSection_of_committing hp') hsec
  | entered _ hval | checked _ _ _ hval => rw [hp'] at hval; cases hval

theorem Sequenced.valid_step (ht' : t' ∈ S'.txns) (hc' : t'.commitTs = some c')
    (hkeys : t'.keys ≠ []) (hk : k ∈ t'.readSet) (hu' : u' ∈ S'.txns)
    (hne : u'.startTs ≠ t'.startTs) (hd : Decided cfg S' u' c) (hku : k ∈ u'.keys.map Prod.fst) :
    c ≤ t'.startTs ∨ c' < c := by
  obtain ⟨u, hu, hus, huk, hfrom⟩ := h.decided_from hcalm hmove hu' hd
  rcases h.stride hvalidate hcalm hmove ht' with ⟨-, hnone⟩ | ⟨t, ht, hts, hstride⟩
  · rw [hnone] at hc'; cases hc'
  rw [hus, hts] at hne
  rw [hts]
  rw [huk] at hku
  rcases hstride.commitTs (h'.shaped ht') hc' hkeys with
    ⟨hct, htk, hread⟩ | ⟨hval, -, -, hread⟩
  · rcases hfrom with hd | ⟨huc, j, hp⟩
    · exact hseq.valid ht hct (htk ▸ hkeys) (hread ▸ hk) hu hne hd hku
    · -- it commits now, so its timestamp is the greatest
      exact .inr (hseq.latest hu hp huc ht hne.symm hct (htk ▸ hkeys))
  · rcases hfrom with hd | ⟨-, j, hp⟩
    · exact .inl (hseq.checked ht hval (hread ▸ hk) not_mem_nil hu hne hd hku)
    · exact absurd (congrArg startTs (h.alone hu ht (inSection_of_committing hp)
        (inSection_of_validating hval))) hne

include hatt

omit h' in
theorem Sequenced.checked_step (ht' : t' ∈ S'.txns) (hp' : t'.phase = .validating todo)
    (hk : k ∈ t'.readSet) (htodo : k ∉ todo) (hu' : u' ∈ S'.txns) (hne : u'.startTs ≠ t'.startTs)
    (hd : Decided cfg S' u' c) (hku : k ∈ u'.keys.map Prod.fst) : c ≤ t'.startTs := by
  obtain ⟨u, hu, hus, huk, hfrom⟩ := h.decided_from hcalm hmove hu' hd
  rcases h.stride hvalidate hcalm hmove ht' with ⟨hactive, -⟩ | ⟨t, ht, hts, hstride⟩
  · rw [hp'] at hactive; cases hactive
  rw [hus, hts] at hne
  rw [hts]
  rw [huk] at hku
  -- nobody else commits while it validates
  have hbefore : t.InSection → Decided cfg S u c := by
    intro hsec
    refine hfrom.resolve_right ?_
    rintro ⟨-, j, hp⟩
    exact hne (congrArg startTs (h.alone hu ht (inSection_of_committing hp) hsec))
  cases hstride with
  | rest hphase _ hread =>
    rw [hphase] at hp'
    exact hseq.checked ht hp' (hread ▸ hk) htodo hu hne
      (hbefore (inSection_of_validating hp')) hku
  | opened _ hopen => rw [hp'] at hopen; cases hopen
  | empty _ hend => rw [hp'] at hend; cases hend
  | outside hsec => exact absurd (inSection_of_validating hp') hsec
  | entered _ hval _ hread =>
    obtain rfl := Phase.validating.inj (hp'.symm.trans hval)
    exact absurd (hread ▸ hk) htodo
  | drawn _ hcom => rw [hp'] at hcom; cases hcom
  | @checked i key rest record he htxn hp hval hrecord hold _ hread =>
    obtain rfl := Phase.validating.inj (hp'.symm.trans hval)
    have hd := hbefore (inSection_of_validating hp)
    by_cases hkey : k = key
    · -- the key just checked: its newest record is not newer than the start
      subst hkey
      subst he
      obtain ⟨huc, -, hphase⟩ := h.decided_phase hu hd
      have hlocked : u.Locked := by
        rcases hphase with ⟨j, hp⟩ | ⟨ks, hp⟩ <;> simp [Transaction.Locked, hp]
      obtain ⟨row, hrow, rfl⟩ := mem_map.1 hku
      rcases h.rows.held hu hlocked hrow with ⟨f, hf, -⟩ | ⟨-, c₁, hc₁, hrec, -⟩
      · exact absurd hd (hatt t htxn row.1 (by simp [nextCheck, hp]) u hu
          (by simp [hf]) c huc)
      · cases huc.symm.trans hc₁
        exact le_of_getWriteRecord hrecord hold hrec
    · refine hseq.checked ht hp (hread ▸ hk) (fun hmem => ?_) hu hne hd hku
      exact (mem_cons.1 hmem).elim hkey htodo

end Step

/-- **Step.** -/
theorem Sequenced.step (h : Orderly cfg S) (hseq : Sequenced cfg S)
    (hvalidate : cfg.validateReads = true) (hcalm : Unfailing S e) (hatt : Attentive cfg S e)
    (hstep : S.step cfg e = some S') : Sequenced cfg S' where
  latest hu hp hc ht hne hc' hkeys := hseq.latest_step h (h.sound.step hstep) hvalidate hcalm
    (step_move hstep) hu hp hc ht hne hc' hkeys
  checked ht hp hk htodo hu hne hd hku := hseq.checked_step h hvalidate hcalm hatt
    (step_move hstep) ht hp hk htodo hu hne hd hku
  valid ht hc' hkeys hk hu hne hd hku := hseq.valid_step h (h.sound.step hstep) hvalidate hcalm
    (step_move hstep) ht hc' hkeys hk hu hne hd hku

end System
end OxideDB.Txn
