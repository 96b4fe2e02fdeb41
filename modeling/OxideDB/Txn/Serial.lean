import Mathlib.Data.List.Permutation
import OxideDB.SerialOrder
import OxideDB.Txn.CommitLock

/-!
# One coordinator is serializable

What the transactions of one coordinator that have committed are to be compared with is the
same transactions run one at a time: each reads the store, and then writes its rows to it.
The order is that of the commit timestamps.
-/

namespace OxideDB.Txn

open Raft (Bytes)
open Storage MVCCStateMachine List Transaction
open SerialOrder (store)

namespace Transaction

/-- `commit` has returned `True`. -/
def succeeded (t : Transaction) : Bool := t.returned.any (·.1)

/-- The commit timestamp, once there is one. -/
def time (t : Transaction) : ℤ := t.commitTs.getD 0

end Transaction

namespace System

/-- The transactions that have committed, one at a time in an order: each has read what those
before it had written, and a key on which none of them has a lock left holds what they all
have written. -/
structure SerialRun (cfg : Config) (S : System) (order : List Transaction) : Prop where
  perm : order.Perm (S.txns.filter (·.succeeded))
  reads {before after : List Transaction} {t : Transaction} (h : order = before ++ t :: after)
    {k : Bytes} {v : Option Bytes} (hread : (k, v) ∈ t.reads) :
    v = store Transaction.keys before k
  versions (k : Bytes) (h : ∀ t ∈ order, (S.machineOf cfg k).maps.lock k t.startTs = none) :
    ∃ r, Newest ((S.machineOf cfg k).maps.version k) r ∧
      r.bind Prod.snd = store Transaction.keys order k

variable {cfg : Config} {S S' : System} {e : Event} {i j : ℕ} {t t' u : Transaction}
  {k : Bytes} {s c : ℤ}

/-! ## The store and the versions -/

/-- The versions of a key, or some of them, are what a list of transactions has written to it:
the newest is what they leave when they are run one at a time. -/
theorem store_eq_of_newest {order : List Transaction} {f : ℤ → Option (Option Bytes)}
    {r : Option (ℤ × Option Bytes)}
    (hsorted : order.Pairwise fun a b => a.time < b.time)
    (hsound : ∀ c w, f c = some w → ∃ u ∈ order, ∃ v, u.time = c ∧ (k, v) ∈ u.keys ∧ w = some v)
    (hcomplete : ∀ u ∈ order, ∀ v, (k, v) ∈ u.keys → f u.time = some (some v))
    (hnew : Newest f r) : store Transaction.keys order k = r.bind Prod.snd := by
  cases hnew with
  | none hall =>
    refine SerialOrder.store_of_none fun u hu v hv => ?_
    have hver := hcomplete u hu v hv
    rw [hall] at hver
    cases hver
  | @some c w hw hmax =>
    obtain ⟨u, hu, v, rfl, hv, rfl⟩ := hsound c w hw
    refine SerialOrder.store_of_writer hsorted hu hv (fun v' hv' => ?_) fun u' hu' hlt v' hv' => ?_
    · have hver := hcomplete u hu v' hv'
      exact Option.some.inj (Option.some.inj (hver.symm.trans hw))
    · have hver := hcomplete u' hu' v' hv'
      rw [hmax _ hlt] at hver
      cases hver

/-! ## The invariant -/

/-- Everything there is about the runs in question. -/
structure Serializing (cfg : Config) (S : System) : Prop extends Orderly cfg S where
  sequenced : Sequenced cfg S
  steady : Steady cfg (fun _ _ => True) S
  unlocked {t : Transaction} (h : t ∈ S.txns) (hp : t.phase = .active) (k : Bytes) :
    (S.maps cfg).lock k t.startTs = none

theorem Serializing.init (cfg : Config) : Serializing cfg (init cfg) where
  toOrderly := .init cfg
  sequenced := .init cfg
  steady t ht := by cases ht
  unlocked ht := by cases ht

/-- A transaction has no lock before `commit` is called. -/
theorem Serializing.unlocked_step (h : Serializing cfg S) (h' : Sound cfg S')
    (hvalidate : cfg.validateReads = true) (hcalm : Unfailing S e) (hmove : Move cfg S e S')
    (ht' : t' ∈ S'.txns) (hp' : t'.phase = .active) (k : Bytes) :
    (S'.maps cfg).lock k t'.startTs = none := by
  -- it was active before
  have hwas : ∀ {t}, t ∈ S.txns → t.phase = .active → (S'.maps cfg).lock k t.startTs = none := by
    intro t ht hp
    rcases hmove.shards with ⟨j, now, rfl⟩ | hshards
    · obtain ⟨call, r, hcall, hpending, heff, -⟩ := h.sound.placed.effect hmove
      rcases hl : (S'.maps cfg).lock k t.startTs with _ | f
      · rfl
      rcases heff.lock_of hl with hold | ⟨p, v, hcmd, -⟩
      · rw [h.unlocked ht hp k] at hold
        cases hold
      · have hlive : LivePrewrite S.calls t.startTs j :=
          ⟨call, hcall, by simp [Call.live, hpending], by rw [hcmd]; rfl, by rw [hcmd]; rfl⟩
        exact absurd hlive (h.tracked.settled ht (.inl hp) j)
    · rw [maps_congr hshards]
      exact h.unlocked ht hp k
  cases hmove.txn_from h.sound ht' with
  | old hold => exact hwas hold hp'
  | fresh _ heq =>
    rcases hl : (S'.maps cfg).lock k t'.startTs with _ | f
    · rfl
    · have hmem := h'.mem_keys_of_lock ht' hl
      subst heq
      cases hmem
  | aborted hold heq =>
    subst heq
    have hnone := hwas hold hp'
    exact hnone
  | @moved i t htxn ht htmove hkept =>
    rw [hkept.startTs]
    cases htmove.stride hvalidate h.once hcalm (h.regular ht) htxn with
    | rest hphase => exact hwas ht (hphase ▸ hp')
    | opened hp => exact hwas ht hp
    | outside _ hactive => exact absurd hp' hactive
    | empty _ hp | entered _ hp | checked _ _ _ hp | drawn _ hp => rw [hp'] at hp; cases hp

/-- **Step.** -/
theorem Serializing.step (h : Serializing cfg S) (hvalidate : cfg.validateReads = true)
    (hcalm : Unfailing S e) (hspare : Spares cfg S e) (hatt : Attentive cfg S e)
    (hstep : S.step cfg e = some S') : Serializing cfg S' where
  toOrderly := h.toOrderly.step hcalm hspare hstep
  sequenced := h.sequenced.step h.toOrderly hvalidate hcalm hatt hstep
  steady := by
    refine h.steady.move h.sound (h.sound.step hstep) h.tracked
      (hcalm.current h.sound fun _ => h.regular) (step_move hstep) (fun _ _ _ _ => id)
      fun i t k he htxn _ => ?_
    subst he
    exact h.unlocked (mem_of_getElem? htxn) (hcalm t htxn) k
  unlocked ht hp := h.unlocked_step (h.sound.step hstep) hvalidate hcalm (step_move hstep) ht hp

/-! ## The order -/

section Final

variable (h : Serializing cfg S) (hquiet : ∀ t ∈ S.txns, ∀ j, t.phase ≠ .committing j)

include h

/-- What `commit` has returned `True` for is committed. -/
theorem committed_of_succeeded (ht : t ∈ S.txns) (hsucc : t.succeeded = true) :
    (∃ ks, t.phase = .committed ks) ∧ t.commitTs = some t.time ∧
      (t.keys = [] ∧ t.time = t.startTs ∨ t.keys ≠ [] ∧ Decided cfg S t t.time) := by
  have hshape := (h.sound.shaped ht).phase
  unfold Transaction.PhaseShape at hshape
  unfold succeeded at hsucc
  cases hp : t.phase with
  | closed =>
    simp only [hp] at hshape
    rcases hshape.2 with hret | hret <;> simp [hret] at hsucc
  | committed ks =>
    refine ⟨⟨ks, rfl⟩, ?_⟩
    simp only [hp] at hshape
    rcases hshape with ⟨hk, -, -, hc, -⟩ | ⟨hk, hc, -⟩
    · simp [time, hc, hk]
    obtain ⟨c, hc⟩ := Option.isSome_iff_exists.1 hc
    obtain ⟨c', hc', hrec⟩ := h.truthful.committed ht hp hk
    cases hc.symm.trans hc'
    have htime : t.time = c := by simp [time, hc]
    exact ⟨htime ▸ hc, .inr ⟨hk, htime ▸ hrec⟩⟩
  | _ =>
    simp only [hp] at hshape
    simp [hshape] at hsucc

/-- A row of a transaction that has committed is a version, once its lock is gone. -/
theorem version_of_row (ht : t ∈ S.txns) (hsucc : t.succeeded = true) {v : Bytes}
    (hrow : (k, v) ∈ t.keys) (hfree : (S.maps cfg).lock k t.startTs = none) :
    (S.maps cfg).version k t.time = some (some v) := by
  obtain ⟨⟨ks, hp⟩, hc, -⟩ := committed_of_succeeded h ht hsucc
  rcases h.rows.held ht (by simp [Transaction.Locked, hp]) hrow with
    ⟨f, hf, -⟩ | ⟨-, c, hc', -, hver⟩
  · exact absurd (hfree.symm.trans hf) (by simp)
  · cases hc.symm.trans hc'
    exact hver

include hquiet in
/-- A version is of a transaction that has committed. -/
theorem row_of_version {w : Option Bytes} (hver : (S.maps cfg).version k c = some w) :
    ∃ u ∈ S.txns, u.succeeded = true ∧ ∃ v, u.time = c ∧ (k, v) ∈ u.keys ∧ w = some v := by
  obtain ⟨s, v, p, hrec, rfl, u, hu, rfl, hrow, -⟩ := h.sound.owned.version hver
  -- its primary key has its record too
  have hdecided : Decided cfg S u c := by
    obtain ⟨call, hcall, hcmd, -⟩ := h.truthful.earned hrec
    rcases h.truthful.backed hcall hu hcmd with rfl | hprimary
    · exact hrec
    · exact hprimary
  obtain ⟨hc, hkeys, hphase⟩ := h.decided_phase hu hdecided
  obtain ⟨ks, hp⟩ := hphase.resolve_left fun ⟨j, hp⟩ => hquiet u hu j hp
  refine ⟨u, hu, ?_, v, by simp [time, hc], hrow, rfl⟩
  have hshape := (h.sound.shaped hu).phase
  simp only [Transaction.PhaseShape, hp] at hshape
  rcases hshape with ⟨hnil, -⟩ | ⟨-, -, hret, -⟩
  · exact absurd hnil hkeys
  · simp [succeeded, hret]

/-- The committed transactions can be put in the order of their commit timestamps. -/
theorem exists_serial_order : ∃ order : List Transaction,
    order.Perm (S.txns.filter (·.succeeded)) ∧ order.Pairwise fun a b => a.time < b.time := by
  refine SerialOrder.exists_order _ ?_
  have hdistinct : S.txns.Pairwise fun a b => ∀ x, a.commitTs = some x → b.commitTs ≠ some x := by
    rw [pairwise_iff_getElem]
    intro i j hi hj hlt x ha hb
    exact absurd (h.sound.stamped.unique (getElem?_eq_getElem hi) (getElem?_eq_getElem hj)
      (.inr ha) (.inr hb)) hlt.ne
  refine (hdistinct.filter _).imp_of_mem fun {a b} ha hb hab heq => ?_
  obtain ⟨ha, hsa⟩ := mem_filter.1 ha
  obtain ⟨hb, hsb⟩ := mem_filter.1 hb
  have hca := (committed_of_succeeded h ha hsa).2.1
  have hcb := (committed_of_succeeded h hb hsb).2.1
  exact hab _ hca (heq ▸ hcb)

variable {order : List Transaction} (hperm : order.Perm (S.txns.filter (·.succeeded)))
  (hsorted : order.Pairwise fun a b => a.time < b.time)

include hperm hquiet

omit h hquiet in
theorem mem_order : u ∈ order ↔ u ∈ S.txns ∧ u.succeeded = true := by
  rw [hperm.mem_iff, mem_filter]

include hsorted

/-- What a committed transaction has read is what those before it had written. -/
theorem read_eq_store {before after : List Transaction} (heq : order = before ++ t :: after)
    {v : Option Bytes} (hread : (k, v) ∈ t.reads) : v = store Transaction.keys before k := by
  have hmem : t ∈ order := by rw [heq]; exact mem_append_right _ mem_cons_self
  obtain ⟨ht, hsucc⟩ := (mem_order hperm).1 hmem
  obtain ⟨-, hct, hkind⟩ := committed_of_succeeded h ht hsucc
  have hreading := h.steady t ht k v hread trivial
  obtain ⟨r, hnew, rfl⟩ := hreading.shown
  have hbefore : ∀ {u}, u ∈ before ↔ u ∈ order ∧ u.time < t.time := by
    intro u
    rw [heq] at hsorted ⊢
    exact SerialOrder.mem_before hsorted
  -- another that has written the key is before it exactly if its version is in the snapshot
  have hsnapshot : ∀ {u v'}, u ∈ order → (k, v') ∈ u.keys →
      (u.time < t.time ↔ u.time ≤ t.startTs) := by
    intro u v' hu hrow
    obtain ⟨hu, husucc⟩ := (mem_order hperm).1 hu
    obtain ⟨-, hcu, hkind'⟩ := committed_of_succeeded h hu husucc
    have hku := ne_nil_of_mem hrow
    have hdu := (hkind'.resolve_left fun hnil => hku hnil.1).2
    rcases hkind with ⟨hnil, htime⟩ | ⟨hkeys, -⟩
    · -- a transaction that writes nothing stands at its start timestamp, which is nobody else's
      rw [htime]
      refine ⟨le_of_lt, fun hle => lt_of_le_of_ne hle fun hsame => hku ?_⟩
      rw [h.sound.stamped.eq_of_stamp hu ht (.inr hcu) (.inl hsame.symm), hnil]
    · constructor
      · intro hlt
        have hne : u.startTs ≠ t.startTs := fun hs => by
          rw [h.sound.stamped.eq_of_startTs hu ht hs] at hlt
          exact lt_irrefl _ hlt
        refine (h.sequenced.valid ht hct hkeys ((h.regular ht).reads hread) hu hne hdu
          (mem_map_of_mem hrow)).resolve_right (not_lt.2 hlt.le)
      · exact fun hle => lt_of_le_of_lt hle (h.sound.stamped.order ht hct hkeys)
  refine (store_eq_of_newest ?_ (fun c w hw => ?_) (fun u hu v' hrow => ?_) hnew).symm
  · rw [heq] at hsorted
    exact (pairwise_append.1 hsorted).1
  · obtain ⟨hle, hver⟩ := Maps.visible_eq_some.1 hw
    obtain ⟨u, hu, husucc, v', rfl, hrow, hw⟩ := row_of_version h hquiet hver
    have hmem := (mem_order hperm).2 ⟨hu, husucc⟩
    exact ⟨u, hbefore.2 ⟨hmem, (hsnapshot hmem hrow).2 hle⟩, v', rfl, hrow, hw⟩
  · obtain ⟨hmem, hlt⟩ := hbefore.1 hu
    have hle := (hsnapshot hmem hrow).1 hlt
    obtain ⟨hu, husucc⟩ := (mem_order hperm).1 hmem
    have hfree := hreading.closed hu (committed_of_succeeded h hu husucc).2.1 hle
    exact Maps.visible_eq_some.2 ⟨hle, version_of_row h hu husucc hrow hfree⟩

/-- What a key holds is what the committed transactions have written. -/
theorem newest_eq_store (hfree : ∀ t ∈ order, (S.maps cfg).lock k t.startTs = none) :
    ∃ r, Newest ((S.maps cfg).version k) r ∧
      r.bind Prod.snd = store Transaction.keys order k := by
  obtain ⟨r, hnew⟩ := exists_newest_version (S.machineOf cfg k) k
  refine ⟨r, hnew, (store_eq_of_newest hsorted (fun c w hw => ?_) (fun u hu v hrow => ?_) hnew).symm⟩
  · obtain ⟨u, hu, husucc, v, htime, hrow, hw⟩ := row_of_version h hquiet hw
    exact ⟨u, (mem_order hperm).2 ⟨hu, husucc⟩, v, htime, hrow, hw⟩
  · obtain ⟨hu', husucc⟩ := (mem_order hperm).1 hu
    exact version_of_row h hu' husucc hrow (hfree u hu)

end Final

/-- **One coordinator is serializable**, in every run without failures in which no key is
validated while a committed transaction has its lock on it, and no living transaction is
rolled back by another: once no `commit` is between its commit point and its return, the
transactions that have returned `True` are as if run one at a time. -/
theorem one_coordinator_serializable (cfg : Config) (hvalidate : cfg.validateReads = true)
    (es : List Event) (S : System)
    (hsteps : Along cfg (fun S e => Unfailing S e ∧ Spares cfg S e ∧ Attentive cfg S e)
      (init cfg) es)
    (hrun : run cfg (init cfg) es = some S)
    (hquiet : ∀ t ∈ S.txns, ∀ j, t.phase ≠ .committing j) :
    ∃ order, SerialRun cfg S order := by
  have hstep : ∀ S e S', (Unfailing S e ∧ Spares cfg S e ∧ Attentive cfg S e) →
      Serializing cfg S → S.step cfg e = some S' → Serializing cfg S' :=
    fun S e S' hP hI hstep => hI.step hvalidate hP.1 hP.2.1 hP.2.2 hstep
  have h := hsteps.invariant hstep (Serializing.init cfg) hrun
  obtain ⟨order, hperm, hsorted⟩ := exists_serial_order h
  exact ⟨order, hperm, fun heq _ _ hread => read_eq_store h hquiet hperm hsorted heq hread,
    fun k hfree => newest_eq_store h hquiet hperm hsorted hfree⟩

/-- Two transactions: the first reads `[3]` and writes `[1]` and `[2]`, the second reads `[2]`
and writes `[3]`.  All are of one shard.  The first commits its primary key. -/
def firstCommits : List Event :=
  [.begin 0, .begin 0, .read 0 [3], .read 1 [2], .addWrite 0 [1] [7], .addWrite 0 [2] [7],
    .start 0 true, .proposePrewrite 0 0, .ask 0, .applyEntry 0 0, .answer 0 (.result .ok),
    .prewriteAnswered 0 0, .proposePrewrite 0 0, .ask 1, .applyEntry 1 0,
    .answer 1 (.result .ok), .prewriteAnswered 0 0, .joined 0, .lockTaken 0, .validateKey 0,
    .proposePrimary 0, .ask 2, .applyEntry 2 0, .answer 2 (.result .ok), .primaryAnswered 0]

/-- The second is prewritten and takes the commit lock; the next proposal is number `j`. -/
def secondPrepares (j : ℕ) : List Event :=
  [.addWrite 1 [3] [8], .start 1 true, .proposePrewrite 1 0, .ask j, .applyEntry j 0,
    .answer j (.result .ok), .prewriteAnswered 1 0, .joined 1, .lockTaken 1]

/-- The commit of the first's other key is applied. -/
def secondaryCommits (j : ℕ) : List Event :=
  [.proposeSecondary 0 [2], .ask j, .applyEntry j 0, .answer j (.result .ok)]

/-- The second validates what it has read and commits. -/
def secondCommits (j : ℕ) : List Event :=
  [.validateKey 1, .proposePrimary 1, .ask j, .applyEntry j 0, .answer j (.result .ok),
    .primaryAnswered 1]

/-- The first gets its other key committed before the second validates, which finds that what
it has read was overwritten and rolls back. -/
theorem one_coordinator_serializable_conflict : ∃ S, run oneShard (init oneShard)
    (firstCommits ++ secondaryCommits 3 ++ secondPrepares 4 ++ [.validateKey 1]) = some S ∧
      S.txns.map (·.succeeded) = [true, false] ∧ ∃ order, SerialRun oneShard S order := by
  have hsteps : Along oneShard
      (fun S e => Unfailing S e ∧ Spares oneShard S e ∧ Attentive oneShard S e) (init oneShard)
      (firstCommits ++ secondaryCommits 3 ++ secondPrepares 4 ++ [.validateKey 1]) := by
    decide +kernel
  refine Transition.exists_run (p := fun S => S.txns.map (·.succeeded) = [true, false] ∧
      S.txns.map (·.phase) = [.committed [], .rollingBack [[3]] none]) (by decide +kernel)
    fun S hrun ⟨hsucc, hphases⟩ =>
      ⟨hsucc, one_coordinator_serializable oneShard rfl _ S hsteps hrun ?_⟩
  intro t ht j hp
  have hmem := mem_map_of_mem (f := phase) ht
  rw [hphases, hp] at hmem
  simp at hmem

/-- **Validation misses a secondary key**: the second validates what it has read while the
commit of that key is still with the executor.  Both commit, and each has read what the
other's write replaced. -/
theorem validation_misses_secondary :
    Along oneShard Unfailing (init oneShard)
      (firstCommits ++ secondPrepares 3 ++ secondCommits 4 ++ secondaryCommits 5) ∧
    ∃ S, run oneShard (init oneShard)
      (firstCommits ++ secondPrepares 3 ++ secondCommits 4 ++ secondaryCommits 5) = some S ∧
      S.txns.map (·.phase) = [.committed [], .committed []] ∧
      ¬ ∃ order, SerialRun oneShard S order := by
  refine ⟨by decide +kernel, Transition.exists_run
    (p := fun S => S.txns.map (·.phase) = [.committed [], .committed []] ∧
      S.txns.map (·.succeeded) = [true, true] ∧
      S.txns.map (·.reads) = [[([3], none)], [([2], none)]] ∧
      S.txns.map (·.keys) = [[([1], [7]), ([2], [7])], [([3], [8])]]) (by decide +kernel)
    fun S _ ⟨hphases, hsucc, hreads, hkeys⟩ => ⟨hphases, ?_⟩⟩
  rintro ⟨order, hperm, hread, -⟩
  obtain ⟨first, second, htxns⟩ := length_eq_two.1
    (by simpa using congrArg length hsucc : S.txns.length = 2)
  simp only [htxns, map_cons, map_nil, cons.injEq, and_true] at hsucc hreads hkeys
  rw [htxns, filter_cons_of_pos hsucc.1, filter_cons_of_pos hsucc.2, filter_nil]
    at hperm
  -- whichever of the two comes later has read what was there before the other
  rcases perm_pair.1 hperm with rfl | rfl
  · have hnone := @hread [first] [] second rfl [2] none (by rw [hreads.2]; exact mem_cons_self)
    simp [SerialOrder.store, SerialOrder.write, hkeys.1] at hnone
  · have hnone := @hread [second] [] first rfl [3] none (by rw [hreads.1]; exact mem_cons_self)
    simp [SerialOrder.store, SerialOrder.write, hkeys.2] at hnone

end System
end OxideDB.Txn
