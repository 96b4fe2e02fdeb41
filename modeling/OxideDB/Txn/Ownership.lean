import OxideDB.Txn.Stamps

/-!
# Whose row is it

Every lock, every write record and every proposal belongs to a transaction.  This holds in
every state of every run, whatever fails.
-/

namespace OxideDB.Txn

open Raft (Bytes ApplyResult)
open Storage MVCCStateMachine List Option MVCCStorage Maps

variable {r : ApplyResult} {k v p : Bytes} {call : Call} {cmd : Command} {j : ℕ} {s c : ℤ}

namespace System

variable {cfg : Config} {S S' : System} {e : Event} {i : ℕ} {t t' : Transaction}

/-! ## Rows and commands -/

/-- A transaction writes `v` to `k`, under `start_ts` and primary key. -/
def Writes (S : System) (k v : Bytes) (s : ℤ) (p : Bytes) : Prop :=
  ∃ t ∈ S.txns, t.startTs = s ∧ (k, v) ∈ t.keys ∧ t.primaryKey = p

/-- A transaction commits `k` at `c`. -/
def Commits (S : System) (k : Bytes) (s c : ℤ) : Prop :=
  ∃ t ∈ S.txns, t.startTs = s ∧ t.commitTs = some c ∧ k ∈ t.keys.map Prod.fst

/-- The transactions are those there were, or later. -/
def Grown (S S' : System) : Prop := ∀ t ∈ S.txns, ∃ t' ∈ S'.txns, Kept t t'

/-- Whose command it is. -/
inductive CommandOf (S : System) : Command → Prop
  | prewrite {k v p : Bytes} {s : ℤ} (h : Writes S k v s p) : CommandOf S (.prewrite k v s p)
  | commit {k : Bytes} {s c : ℤ} (h : Commits S k s c) : CommandOf S (.commit k s c)
  | rollback {k : Bytes} {s : ℤ} : CommandOf S (.rollback k s)

/-- The rows of the keyspace and the commands in flight, with their transactions. -/
structure Owned (cfg : Config) (S : System) : Prop where
  command {call : Call} (h : call ∈ S.calls) : CommandOf S call.command
  lock {k : Bytes} {s : ℤ} {f : LockFields} (h : (S.maps cfg).lock k s = some f) :
    Writes S k f.value s f.primaryKey
  record {k : Bytes} {s c : ℤ} (h : (S.maps cfg).record k c = some s) : Commits S k s c
  version {k : Bytes} {c : ℤ} {w : Option Bytes} (h : (S.maps cfg).version k c = some w) :
    ∃ s v p, (S.maps cfg).record k c = some s ∧ w = some v ∧ Writes S k v s p
  /-- A commit that has succeeded has left its record. -/
  succeeded {call : Call} {k : Bytes} {s c : ℤ} {r : ApplyResult} (h : call ∈ S.calls)
    (hcmd : call.command = .commit k s c) (hr : r ∈ call.results) (hsucc : r.success = true) :
    (S.maps cfg).record k c = some s
  /-- What the coordinator waits for is the commit of its primary key. -/
  committing {t : Transaction} {j : ℕ} (h : t ∈ S.txns) (hphase : t.phase = .committing j) :
    ∃ call c, S.calls[j]? = some call ∧ t.commitTs = some c ∧
      call.command = .commit t.primaryKey t.startTs c
  resolution {res : Resolution} (h : res ∈ S.resolutions) :
    Writes S res.key res.lock.value res.lock.startTs res.lock.primaryKey

theorem Grown.of_eq (h : S'.txns = S.txns) : Grown S S' :=
  fun t ht => ⟨t, h ▸ ht, Kept.refl t⟩

theorem Grown.set (htxn : S.txns[i]? = some t) (hset : S'.txns = S.txns.set i t')
    (hkept : Kept t t') : Grown S S' := by
  intro u hu
  obtain ⟨j, hj⟩ := getElem?_of_mem hu
  by_cases hij : i = j
  · subst hij
    cases htxn.symm.trans hj
    obtain ⟨hlt, -⟩ := List.getElem?_eq_some_iff.1 htxn
    exact ⟨t', hset ▸ mem_set hlt t', hkept⟩
  · exact ⟨u, hset ▸ mem_of_getElem? ((getElem?_set_ne hij).trans hj), Kept.refl u⟩

theorem Grown.writes (h : Grown S S') (hw : Writes S k v s p) : Writes S' k v s p := by
  obtain ⟨t, ht, hs, hk, hp⟩ := hw
  obtain ⟨t', ht', hkept⟩ := h t ht
  exact ⟨t', ht', hkept.startTs.trans hs, hkept.mem_keys hk,
    (hkept.primaryKey (ne_nil_of_mem hk)).trans hp⟩

theorem Grown.commits (h : Grown S S') (hc : Commits S k s c) : Commits S' k s c := by
  obtain ⟨t, ht, hs, hc, hk⟩ := hc
  obtain ⟨t', ht', hkept⟩ := h t ht
  exact ⟨t', ht', hkept.startTs.trans hs, hkept.commitTs hc, hkept.mem_map_keys hk⟩

theorem Grown.command (h : Grown S S') (hcmd : CommandOf S cmd) : CommandOf S' cmd := by
  cases hcmd with
  | prewrite hw => exact .prewrite (h.writes hw)
  | commit hc => exact .commit (h.commits hc)
  | rollback => exact .rollback

/-- A proposal keeps its number and its command. -/
theorem CallsMove.getElem? {calls : List Call} (h : CallsMove cfg S calls)
    (hcall : S.calls[j]? = some call) :
    ∃ call', calls[j]? = some call' ∧ call'.command = call.command := by
  cases h with
  | same => exact ⟨call, hcall, rfl⟩
  | proposed =>
    obtain ⟨hlt, -⟩ := List.getElem?_eq_some_iff.1 hcall
    exact ⟨call, (getElem?_append_left hlt).trans hcall, rfl⟩
  | @updated j' call₀ call' hcall₀ hcommand =>
    by_cases hj : j' = j
    · subst hj
      obtain ⟨hlt, -⟩ := List.getElem?_eq_some_iff.1 hcall
      cases hcall₀.symm.trans hcall
      exact ⟨call', by rw [getElem?_set_self hlt], hcommand⟩
    · exact ⟨call, (getElem?_set_ne hj).trans hcall, rfl⟩

/-- A proposal, and what a step makes of it. -/
theorem Move.call_next (hS : Placed cfg S) (hmove : Move cfg S e S')
    (hcall : S.calls[j]? = some call) :
    ∃ call', S'.calls[j]? = some call' ∧ CallUpdate cfg S S' e j call call' := by
  obtain ⟨call', hcall', -⟩ := hmove.calls.getElem? hcall
  refine ⟨call', hcall', ?_⟩
  rcases hmove.call hS hcall' with ⟨call₀, hcall₀, hupdate⟩ | ⟨_, _, rfl, -, -⟩
  · cases hcall.symm.trans hcall₀
    exact hupdate
  · simp at hcall

namespace CallUpdate

variable {call call' : Call}

theorem command (h : CallUpdate cfg S S' e i call call') : call'.command = call.command := by
  cases h <;> rfl

theorem results (h : CallUpdate cfg S S' e i call call') (hr : r ∈ call.results) :
    r ∈ call'.results := by
  cases h with
  | applied => exact mem_append_left _ hr
  | _ => exact hr

end CallUpdate

/-- Everything that holds in every state. -/
structure Sound (cfg : Config) (S : System) : Prop where
  shaped {t : Transaction} (h : t ∈ S.txns) : t.Shaped
  stamped : Stamped S
  placed : Placed cfg S
  owned : Owned cfg S

section

variable {u : Transaction} (h : Stamped S) (ht : t ∈ S.txns) (hu : u ∈ S.txns)
include h ht hu

/-- Two transactions with one timestamp are one. -/
theorem Stamped.eq_of_stamp {x : ℤ} (hx : t.Stamp x) (hx' : u.Stamp x) : t = u := by
  obtain ⟨i, hi⟩ := getElem?_of_mem ht
  obtain ⟨j, hj⟩ := getElem?_of_mem hu
  obtain rfl := h.unique hi hj hx hx'
  exact some.inj (hi.symm.trans hj)

theorem Stamped.eq_of_startTs (hs : t.startTs = u.startTs) : t = u :=
  h.eq_of_stamp ht hu (.inl hs) (.inl rfl)

end

/-- A commit timestamp is of one transaction. -/
theorem Commits.unique (h : Stamped S) {k' : Bytes} {s' : ℤ} (hc : Commits S k s c)
    (hc' : Commits S k' s' c) : s = s' := by
  obtain ⟨t, ht, rfl, hct, -⟩ := hc
  obtain ⟨u, hu, rfl, hcu, -⟩ := hc'
  rw [h.eq_of_stamp ht hu (.inr hct) (.inr hcu)]

theorem phase_keys_ne_nil (ht : t.Shaped) (hp : t.phase = .committing j) : t.keys ≠ [] := by
  have hphase := ht.phase
  simp only [Transaction.PhaseShape, hp] at hphase
  exact hphase.2.1

/-- A proposal that a transaction makes is its own. -/
theorem TxnMove.commands (ht : t.Shaped) (htxn : S.txns[i]? = some t)
    (h : TxnMove cfg S i t e t' S') (hcall : call ∈ S'.calls) :
    call ∈ S.calls ∨ CommandOf S' call.command ∧ call.results = [] := by
  obtain ⟨hlt, -⟩ := List.getElem?_eq_some_iff.1 htxn
  have hphase := ht.phase
  unfold Transaction.PhaseShape at hphase
  -- the proposal is there already, or it is the one that is made
  have hnew {cmd : Command} {shard : ℕ} (hcmd : CommandOf S' cmd)
      (hmem : call ∈ S.calls ++ [{ shard := shard, command := cmd }]) :
      call ∈ S.calls ∨ CommandOf S' call.command ∧ call.results = [] := by
    refine (mem_append.1 hmem).imp_right fun h => ?_
    obtain rfl := mem_singleton.1 h
    exact ⟨hcmd, rfl⟩
  cases h with
  | primaryCommitted | rolledBack | closed => rw [unlock_calls] at hcall; exact .inl hcall
  | proposePrewrite hp htask htodo hnone =>
    simp only [hp] at hphase
    refine hnew (.prewrite ⟨_, mem_set hlt _, rfl, ?_, rfl⟩) hcall
    exact hphase.2.2.2.1 _ (openTask_mem htask).1 _ (htodo ▸ mem_cons_self)
  | proposePrimary hp =>
    simp only [hp] at hphase
    exact hnew (.commit ⟨_, mem_set hlt _, rfl, rfl, primaryKey_mem hphase.2.1⟩) hcall
  | proposeRollback => exact hnew .rollback hcall
  | proposeSecondary hp hcommit hkey =>
    simp only [hp] at hphase
    rcases hphase with ⟨-, -, rfl, -⟩ | ⟨hk, -, -, hsecs⟩
    · cases hkey
    · exact hnew (.commit ⟨_, mem_set hlt _, rfl, hcommit, (hsecs _ hkey).2⟩) hcall
  | _ => exact .inl hcall

/-- A proposal as a step that applies nothing leaves it. -/
inductive CallFrom (S S' : System) (call : Call) : Prop
  | old {call₀ : Call} (h : call₀ ∈ S.calls) (hcommand : call.command = call₀.command)
      (hresults : call.results = call₀.results)
  | new (hcommand : CommandOf S' call.command) (hresults : call.results = [])

theorem Owned.quiet (h : Owned cfg S) (hshards : S'.shards = S.shards) (hgrown : Grown S S')
    (hcalls : ∀ call ∈ S'.calls, CallFrom S S' call)
    (hcommitting : ∀ t ∈ S'.txns, ∀ j, t.phase = .committing j → ∃ call c,
      S'.calls[j]? = some call ∧ t.commitTs = some c ∧
        call.command = .commit t.primaryKey t.startTs c)
    (hres : ∀ res ∈ S'.resolutions,
      Writes S' res.key res.lock.value res.lock.startTs res.lock.primaryKey) : Owned cfg S' := by
  have hmaps : S'.maps cfg = S.maps cfg := maps_congr hshards
  refine ⟨fun {call} hmem => ?_, fun hl => ?_, fun hr => ?_, fun hv => ?_,
    fun {call k s c r} hmem hcmd hr hsucc => ?_, fun {t j} ht => hcommitting t ht j,
    fun {res} hr => hres res hr⟩
  · cases hcalls call hmem with
    | old hold hcommand =>
      rw [hcommand]
      exact hgrown.command (h.command hold)
    | new hcommand => exact hcommand
  · exact hgrown.writes (h.lock (hmaps ▸ hl))
  · exact hgrown.commits (h.record (hmaps ▸ hr))
  · obtain ⟨s, v, p, hrec, hw, hwrites⟩ := h.version (hmaps ▸ hv)
    exact ⟨s, v, p, hmaps.symm ▸ hrec, hw, hgrown.writes hwrites⟩
  · cases hcalls call hmem with
    | old hold hcommand hresults =>
      rw [hmaps]
      exact h.succeeded hold (hcommand ▸ hcmd) (hresults ▸ hr) hsucc
    | new _ hresults => rw [hresults] at hr; cases hr

end System

/-! ## An entry is applied -/

namespace Effect

variable {M M' : Maps} {cmd : Command} {r : ApplyResult} {now : Time} {k : Bytes} {s c : ℤ}

section

variable (h : Effect now M cmd M' r)
include h

/-- Write records stay, where no two transactions commit at one timestamp. -/
theorem record_mono (hone : ∀ k s c s', cmd = .commit k s c → M.record k c = some s' → s' = s)
    (hrec : M.record k c = some s) : M'.record k c = some s := by
  cases h with
  | @committed k₀ s₀ c₀ f hlock =>
    rw [setLock_record, putRecord_record]
    split
    · rename_i hkc
      obtain ⟨rfl, rfl⟩ := hkc
      rw [hone _ _ _ _ rfl hrec]
    · exact hrec
  | _ => exact hrec

/-- A record is an old one, or the command's, whose lock was there. -/
theorem record_of (hrec : M'.record k c = some s) :
    M.record k c = some s ∨
      cmd = .commit k s c ∧ (∃ f, M.lock k s = some f) ∧ r.success = true := by
  cases h with
  | @committed k₀ s₀ c₀ f hlock =>
    rw [setLock_record, putRecord_record] at hrec
    split at hrec
    · rename_i hkc
      obtain ⟨rfl, rfl⟩ := hkc
      cases hrec
      exact .inr ⟨rfl, ⟨f, hlock⟩, rfl⟩
    · exact .inl hrec
  | _ => exact .inl hrec

/-- A lock is an old one, or the command's. -/
theorem lock_of {f : LockFields} (hlock : M'.lock k s = some f) :
    M.lock k s = some f ∨ ∃ p v, cmd = .prewrite k v s p ∧ f = ⟨.locked, p, now, v⟩ := by
  cases h with
  | refused | idle => exact .inl hlock
  | locked =>
    rw [setLock_lock] at hlock
    split at hlock
    · rename_i hks
      obtain ⟨rfl, rfl⟩ := hks
      exact .inr ⟨_, _, rfl, (some.inj hlock).symm⟩
    · exact .inl hlock
  | _ =>
    rw [setLock_lock] at hlock
    split at hlock
    · cases hlock
    · exact .inl hlock

/-- A version is an old one, or what the command's lock held, with its record. -/
theorem version_of {w : Option Bytes} (hv : M'.version k c = some w) :
    M.version k c = some w ∨ ∃ s f, cmd = .commit k s c ∧ M.lock k s = some f ∧
      w = some f.value ∧ M'.record k c = some s := by
  cases h with
  | committed hlock =>
    rw [setLock_version, putRecord_version, putVersion_version] at hv
    split at hv
    · rename_i hkc
      obtain ⟨rfl, rfl⟩ := hkc
      refine .inr ⟨_, _, rfl, hlock, (some.inj hv).symm, ?_⟩
      rw [setLock_record, putRecord_record]
      simp
    · exact .inl hv
  | _ => exact .inl hv

end

/-- A prewrite that succeeds leaves its lock, with its value. -/
theorem lock_of_prewrite (h : Effect now M (.prewrite k v s p) M' r) (hsucc : r.success = true) :
    ∃ f, M'.lock k s = some f ∧ f.value = v := by
  cases h with
  | refused hr => rw [hr] at hsucc; cases hsucc
  | locked => exact ⟨⟨.locked, p, now, v⟩, by rw [setLock_lock, if_pos ⟨rfl, rfl⟩], rfl⟩

/-- A commit that succeeds leaves its record. -/
theorem record_of_commit (h : Effect now M (.commit k s c) M' r) (hsucc : r.success = true) :
    M'.record k c = some s := by
  cases h with
  | refused hr => rw [hr] at hsucc; cases hsucc
  | committed =>
    rw [setLock_record, putRecord_record]
    simp

end Effect

namespace System

variable {cfg : Config} {S S' : System} {e : Event} {i j : ℕ} {t t' : Transaction}

/-- The records are of one transaction each. -/
theorem Sound.commit_one (hS : Sound cfg S) (hcall : call ∈ S.calls) (k : Bytes) (s c s' : ℤ)
    (hcmd : call.command = .commit k s c) (hrec : (S.maps cfg).record k c = some s') : s' = s := by
  have hown := hS.owned.command hcall
  rw [hcmd] at hown
  cases hown with
  | commit hc => exact Commits.unique hS.stamped (hS.owned.record hrec) hc

theorem Owned.applied (hS : Sound cfg S) {now : Time} (hcall : S.calls[j]? = some call)
    (heff : Effect now (S.maps cfg) call.command (S'.maps cfg) r) (htxns : S'.txns = S.txns)
    (hcalls : S'.calls = S.calls.set j (call.applied r)) (hcmove : CallsMove cfg S S'.calls)
    (hres : S'.resolutions = S.resolutions) : Owned cfg S' := by
  have hmem := mem_of_getElem? hcall
  have hgrown : Grown S S' := .of_eq htxns
  have hkeep : ∀ k c s, (S.maps cfg).record k c = some s → (S'.maps cfg).record k c = some s :=
    fun k c s => heff.record_mono (hS.commit_one hmem)
  have hown := hS.owned.command hmem
  -- a proposal is an old one, or the one whose entry this was
  have hcases : ∀ {call'}, call' ∈ S'.calls → call' ∈ S.calls ∨ call' = call.applied r :=
    fun {call'} h => by
      rw [hcalls] at h
      exact mem_or_eq_of_mem_set h
  refine ⟨fun {call'} h => ?_, fun {k s f} hl => ?_, fun {k s c} hr => ?_, fun {k c w} hv => ?_,
    fun {call' k s c r'} h hcmd hr hsucc => ?_, fun {t j'} ht hp => ?_, fun {res} hr => ?_⟩
  · rcases hcases h with h | rfl
    · exact hgrown.command (hS.owned.command h)
    · exact hgrown.command hown
  · rcases heff.lock_of hl with hold | ⟨p, v, hcmd, rfl⟩
    · exact hgrown.writes (hS.owned.lock hold)
    · rw [hcmd] at hown
      cases hown with
      | prewrite hw => exact hgrown.writes hw
  · rcases heff.record_of hr with hold | ⟨hcmd, -⟩
    · exact hgrown.commits (hS.owned.record hold)
    · rw [hcmd] at hown
      cases hown with
      | commit hc => exact hgrown.commits hc
  · rcases heff.version_of hv with hold | ⟨s, f, -, hlock, hw, hrec⟩
    · obtain ⟨s, v, p, hrec, hw, hwrites⟩ := hS.owned.version hold
      exact ⟨s, v, p, hkeep _ _ _ hrec, hw, hgrown.writes hwrites⟩
    · exact ⟨s, f.value, f.primaryKey, hrec, hw, hgrown.writes (hS.owned.lock hlock)⟩
  · rcases hcases h with h | rfl
    · exact hkeep _ _ _ (hS.owned.succeeded h hcmd hr hsucc)
    rcases mem_append.1 hr with hr | hr
    · exact hkeep _ _ _ (hS.owned.succeeded hmem hcmd hr hsucc)
    obtain rfl := mem_singleton.1 hr
    have hcmd' : call.command = .commit k s c := hcmd
    rw [hcmd'] at heff
    exact heff.record_of_commit hsucc
  · obtain ⟨call₀, c, hcall₀, hc, hcmd⟩ := hS.owned.committing (htxns ▸ ht) hp
    obtain ⟨call', hcall', hcmd'⟩ := hcmove.getElem? hcall₀
    exact ⟨call', c, hcall', hc, hcmd'.trans hcmd⟩
  · exact hgrown.writes (hS.owned.resolution (hres ▸ hr))

theorem CallFrom.same (h : call ∈ S.calls) : CallFrom S S' call := .old h rfl rfl

/-- What `primary_commit_ts` answers is a record of the primary. -/
theorem record_of_primaryCommitTs {pk : Bytes}
    (h : LockResolver.primaryCommitTs (some (S.machineOf cfg pk)) pk s = .ok (some c)) :
    (S.maps cfg).record pk c = some s := by
  by_cases hkey : ValidKey pk
  · simp only [LockResolver.primaryCommitTs, getWriteRecord_eq _ hkey, bind, Except.bind, pure,
      Except.pure] at h
    obtain ⟨w, hw, rfl⟩ := map_eq_some_iff.1 (Except.ok.inj h)
    obtain ⟨hlatest, hs⟩ := filter_eq_some_iff.1 hw
    have hnew := record_of_latest hkey hlatest
    cases hnew with
    | some hrec _ => rw [← of_decide_eq_true hs]; exact hrec
  · obtain ⟨msg, hmsg⟩ := getWriteRecord_invalid (S.machineOf cfg pk) hkey
    simp [LockResolver.primaryCommitTs, hmsg, bind, Except.bind] at h

/-- The lock somebody meets is a lock of the keyspace. -/
theorem lock_of_getLockStatus {lock : Lock}
    (h : (S.machineOf cfg k).getLockStatus k = .ok (some lock)) :
    ∃ f, (S.maps cfg).lock k lock.startTs = some f ∧ lock = lockOf k lock.startTs f := by
  obtain ⟨key, hkey, -⟩ := bind_ok h
  cases checkUserKey_ok hkey
  obtain ⟨newest, hnewest, hnew⟩ := getNewestLock_valid
    (S.machineOf cfg key.1).storage key.2
  rw [getLockStatus, hnewest] at h
  obtain ⟨p, rfl, rfl⟩ := map_eq_some_iff.1 (Except.ok.inj h)
  cases hnew with
  | some hlock _ => exact ⟨_, hlock, rfl⟩

/-- The transaction's `ABORTED` of a call of `rollback`. -/
theorem shaped_abort (ht : t.Shaped) : { t with status := .aborted }.Shaped := by
  refine ⟨ht.groups, ?_⟩
  have hphase := ht.phase
  unfold Transaction.PhaseShape at hphase ⊢
  cases hp : t.phase with
  | committed =>
    simp only [hp] at hphase ⊢
    exact hphase.imp (fun h => ⟨h.1, by simp, h.2.2⟩) id
  | _ => simp only [hp] at hphase ⊢; exact hphase

/-- What a step does to the transactions. -/
inductive TxnsMove (S : System) : List Transaction → Prop
  | same : TxnsMove S S.txns
  | begun (c : ℕ) (s : ℤ) : TxnsMove S (S.txns ++ [{ coordinator := c, startTs := s }])
  | updated {i : ℕ} {t t' : Transaction} (htxn : S.txns[i]? = some t) (hkept : Kept t t')
      (hshaped : t'.Shaped) : TxnsMove S (S.txns.set i t')

theorem Move.txns (hS : Sound cfg S) (h : Move cfg S e S') : TxnsMove S S'.txns := by
  cases h with
  | begin => exact .begun _ _
  | fetch => exact .same
  | txn htxn hmove =>
    obtain ⟨hkept, hshaped⟩ := hmove.kept (hS.shaped (mem_of_getElem? htxn))
    rw [hmove.txns htxn]
    exact .updated htxn hkept hshaped
  | cleanupDone htxn =>
    exact .updated htxn ⟨rfl, rfl, prefix_rfl, id⟩
      (shaped_abort (hS.shaped (mem_of_getElem? htxn)))
  | _ => exact .same

theorem TxnsMove.grown (h : TxnsMove S S'.txns) : Grown S S' := by
  generalize htxns : S'.txns = txns at h
  cases h with
  | same => exact .of_eq htxns
  | begun =>
    exact fun u hu => ⟨u, htxns ▸ mem_append_left _ hu, Kept.refl u⟩
  | updated htxn hkept => exact .set htxn htxns hkept

theorem TxnsMove.shaped (hS : Sound cfg S) {txns : List Transaction} (h : TxnsMove S txns)
    {u : Transaction} (hu : u ∈ txns) : u.Shaped := by
  cases h with
  | same => exact hS.shaped hu
  | begun =>
    rcases mem_append.1 hu with hu | hu
    · exact hS.shaped hu
    · obtain rfl := mem_singleton.1 hu
      exact ⟨nofun, rfl, rfl⟩
  | updated htxn hkept hshaped =>
    rcases mem_or_eq_of_mem_set hu with hu | rfl
    · exact hS.shaped hu
    · exact hshaped

/-- Where a transaction comes from in a step. -/
inductive TxnFrom (cfg : Config) (S : System) (e : Event) (S' : System) (t' : Transaction) : Prop
  | old (ht : t' ∈ S.txns)
      (hother : ∀ i t u, S.txns[i]? = some t → TxnMove cfg S i t e u S' → t.startTs ≠ t'.startTs)
  | fresh {c : ℕ} {x : ℤ} (hnew : ∀ t ∈ S.txns, t.startTs ≠ x)
      (h : t' = { coordinator := c, startTs := x }) (he : e = .begin c)
  | aborted {t : Transaction} (ht : t ∈ S.txns) (h : t' = { t with status := .aborted })
      (hquiet : ∀ i t u, ¬ TxnMove cfg S i t e u S')
  | moved {i : ℕ} {t : Transaction} (htxn : S.txns[i]? = some t) (ht : t ∈ S.txns)
      (hmove : TxnMove cfg S i t e t' S') (hkept : Kept t t')

theorem Move.txn_from (hS : Sound cfg S) (hmove : Move cfg S e S') (ht' : t' ∈ S'.txns) :
    TxnFrom cfg S e S' t' := by
  -- a step that is nobody's leaves the transactions alone
  have hkeep : t' ∈ S.txns → (∀ i, e.subject ≠ .txn i) → TxnFrom cfg S e S' t' :=
    fun hold he => .old hold fun i t _ _ hmove => absurd hmove.subject (he i)
  cases hmove with
  | begin =>
    rcases mem_append.1 ht' with hold | hnew
    · exact hkeep hold (by simp [Event.subject])
    · obtain ⟨n, hn, -, hfresh, -⟩ := hS.stamped.draw _
      exact .fresh (fun t ht heq => hfresh _ ⟨t, ht, rfl, .inl (heq.trans hn)⟩)
        (mem_singleton.1 hnew) rfl
  | @txn i t t₁ e S' htxn hmove =>
    obtain ⟨j, hj⟩ := getElem?_of_mem ht'
    rw [hmove.txns htxn] at hj
    rcases getElem?_set_eq_some hj with ⟨rfl, rfl⟩ | ⟨hne, hold⟩
    · have ht := mem_of_getElem? htxn
      exact .moved htxn ht hmove (hmove.kept (hS.shaped ht)).1
    · refine .old (mem_of_getElem? hold) fun i' u _ hu hmove' hs => hne ?_
      obtain rfl : i' = i := by injection hmove'.subject.symm.trans hmove.subject
      exact hS.stamped.unique hu hold (.inl hs) (.inl rfl)
  | cleanupDone htxn =>
    rcases mem_or_eq_of_mem_set ht' with hold | h
    · exact hkeep hold (by simp [Event.subject])
    · exact .aborted (mem_of_getElem? htxn) h fun i t _ hmove =>
        absurd hmove.subject (by simp [Event.subject])
  | _ =>
    exact hkeep ht' (by simp [Event.subject])

/-- What a step makes of a transaction. -/
inductive TxnStep (cfg : Config) (S : System) (e : Event) (S' : System) (t : Transaction) :
    Transaction → Prop
  | same : TxnStep cfg S e S' t t
  | aborted : TxnStep cfg S e S' t { t with status := .aborted }
  | moved {i : ℕ} {t' : Transaction} (htxn : S.txns[i]? = some t)
      (hmove : TxnMove cfg S i t e t' S') (hkept : Kept t t') : TxnStep cfg S e S' t t'

/-- Transactions are told apart by their start timestamp, across a step. -/
theorem Move.txn_step (hS : Sound cfg S) (hmove : Move cfg S e S') (ht : t ∈ S.txns)
    (ht' : t' ∈ S'.txns) (hs : t'.startTs = t.startTs) : TxnStep cfg S e S' t t' := by
  cases hmove.txn_from hS ht' with
  | old hold =>
    rw [hS.stamped.eq_of_startTs hold ht hs]
    exact .same
  | fresh hnew h =>
    subst h
    exact absurd hs.symm (hnew t ht)
  | aborted hold h =>
    subst h
    obtain rfl := hS.stamped.eq_of_startTs ht hold hs.symm
    exact .aborted
  | moved htxn hu hmove hkept =>
    obtain rfl := hS.stamped.eq_of_startTs ht hu (hs.symm.trans hkept.startTs)
    exact .moved htxn hmove hkept

/-- A transaction before a step and after it. -/
theorem Move.kept (hS : Sound cfg S) (hmove : Move cfg S e S') (ht : t ∈ S.txns)
    (ht' : t' ∈ S'.txns) (hs : t'.startTs = t.startTs) : Kept t t' := by
  cases hmove.txn_step hS ht ht' hs with
  | same => exact .refl t
  | aborted => exact ⟨rfl, rfl, prefix_rfl, id⟩
  | moved _ _ hkept => exact hkept

/-- A call of `resolve_lock` keeps its lock. -/
theorem Owned.setStage (h : Owned cfg S) {n : ℕ} {res₀ res : Resolution} {stage : ResolutionStage}
    (hres : S.resolutions[n]? = some res₀)
    (hr : res ∈ S.resolutions.set n { res₀ with stage := stage }) :
    Writes S res.key res.lock.value res.lock.startTs res.lock.primaryKey := by
  have hw := h.resolution (mem_of_getElem? hres)
  rcases mem_or_eq_of_mem_set hr with hr | rfl
  · exact h.resolution hr
  · exact hw

/-- The commit that a coordinator waits for, after the step. -/
theorem Sound.committing_step (h : Sound cfg S) (hmove : Move cfg S e S') (ht' : t' ∈ S'.txns)
    (hp : t'.phase = .committing j) :
    ∃ call c, S'.calls[j]? = some call ∧ t'.commitTs = some c ∧
      call.command = .commit t'.primaryKey t'.startTs c := by
  -- it waited for the same commit before
  have hwas : ∀ {t}, t ∈ S.txns → Kept t t' → t.phase = .committing j →
      ∃ call c, S'.calls[j]? = some call ∧ t'.commitTs = some c ∧
        call.command = .commit t'.primaryKey t'.startTs c := fun {t} ht hkept hp => by
    obtain ⟨call, c, hcall, hc, hcmd⟩ := h.owned.committing ht hp
    obtain ⟨call', hcall', hcmd'⟩ := hmove.calls.getElem? hcall
    refine ⟨call', c, hcall', hkept.commitTs hc, ?_⟩
    rw [hcmd', hcmd, hkept.startTs, hkept.primaryKey (phase_keys_ne_nil (h.shaped ht) hp)]
  cases hmove.txn_from h ht' with
  | old hold => exact hwas hold (.refl _) hp
  | fresh _ heq => subst heq; cases hp
  | aborted hold heq =>
    subst heq
    exact hwas hold ⟨rfl, rfl, prefix_rfl, id⟩ hp
  | moved htxn ht htmove hkept =>
    cases htmove with
    | addWrite | read | rollbackPending | rollbackCalled => exact hwas ht hkept hp
    | proposePrimary =>
      cases hp
      exact ⟨_, _, getElem?_concat_length, rfl, rfl⟩
    | joinedLocked => exact absurd (Transaction.locked_phase hp) (by simp)
    | _ => cases hp

/-- **Step**, of the rows and commands. -/
theorem Sound.owned_step (h : Sound cfg S) (hmove : Move cfg S e S') : Owned cfg S' := by
  have hgrown := (hmove.txns h).grown
  have hcalls := hmove.calls
  have hold : ∀ {res}, res ∈ S.resolutions →
      Writes S' res.key res.lock.value res.lock.startTs res.lock.primaryKey :=
    fun hr => hgrown.writes (h.owned.resolution hr)
  have hcommitting : ∀ t ∈ S'.txns, ∀ j, t.phase = .committing j → ∃ call c,
      S'.calls[j]? = some call ∧ t.commitTs = some c ∧
        call.command = .commit t.primaryKey t.startTs c :=
    fun t ht j => h.committing_step hmove ht
  -- a step that applies nothing
  have hquiet : S'.shards = S.shards → (∀ call ∈ S'.calls, CallFrom S S' call) →
      (∀ res ∈ S'.resolutions, Writes S res.key res.lock.value res.lock.startTs res.lock.primaryKey) →
      Owned cfg S' := fun hshards hfrom hres =>
    h.owned.quiet hshards hgrown hfrom hcommitting fun res hr => hgrown.writes (hres res hr)
  -- a proposal that is new
  have hnew : ∀ {key cmd}, CommandOf S' cmd →
      ∀ call ∈ (S.propose cfg key cmd).calls, CallFrom S S' call := fun hcmd call hmem => by
    rcases mem_append.1 hmem with hmem | hmem
    · exact .same hmem
    · obtain rfl := mem_singleton.1 hmem
      exact .new hcmd rfl
  cases hmove with
  | txn htxn hmove =>
    have hres : S'.resolutions = S.resolutions := by cases hmove <;> simp
    refine h.owned.quiet hmove.shards hgrown (fun call hmem => ?_) hcommitting
      fun res hr => hold (hres ▸ hr)
    rcases hmove.commands (h.shaped (mem_of_getElem? htxn)) htxn hmem with hmem | ⟨hcmd, hresults⟩
    · exact .same hmem
    · exact .new hcmd hresults
  | cleanupNext => exact hquiet rfl (hnew .rollback) fun res hr => h.owned.resolution hr
  | @meet k lock hlock =>
    refine hquiet rfl (fun call hmem => .same hmem) fun res hr => ?_
    rcases mem_append.1 hr with hr | hr
    · exact h.owned.resolution hr
    obtain rfl := mem_singleton.1 hr
    obtain ⟨f, hf, heq⟩ := lock_of_getLockStatus hlock
    have hw := h.owned.lock hf
    rw [heq]
    exact hw
  | readRecord hres | readLock hres | readCommitTs hres =>
    exact hquiet rfl (fun call hmem => .same hmem) fun res hr => h.owned.setStage hres hr
  | resolveRollback hres => exact hquiet rfl (hnew .rollback) fun res hr => h.owned.setStage hres hr
  | @resolveCommit n res₀ c hres hstage hcommit =>
    -- the record of the primary names the transaction whose lock this is
    obtain ⟨u, hu, hus, huk, hup⟩ := h.owned.resolution (mem_of_getElem? hres)
    obtain ⟨u', hu', hus', huc, -⟩ := h.owned.record (record_of_primaryCommitTs hcommit)
    obtain rfl := h.stamped.eq_of_startTs hu hu' (hus.trans hus'.symm)
    refine hquiet rfl (hnew ?_) fun res hr => h.owned.setStage hres hr
    exact .commit ⟨u, hu, hus, huc, mem_map_of_mem huk⟩
  | @ask j call hcall | @answer j call _ hcall =>
    refine hquiet rfl (fun call' hmem => ?_) fun res hr => h.owned.resolution hr
    rcases mem_or_eq_of_mem_set hmem with hmem | rfl
    · exact .same hmem
    · exact .old (mem_of_getElem? hcall) rfl rfl
  | @applyEntry j now call hcall hpending =>
    exact Owned.applied h hcall (h.placed.effect_of_shards hcall now rfl) rfl rfl hcalls rfl
  | _ => exact hquiet rfl (fun call hmem => .same hmem) fun res hr => h.owned.resolution hr

/-- **Step.** -/
theorem Sound.step (h : Sound cfg S) (hstep : S.step cfg e = some S') : Sound cfg S' := by
  have hmove := step_move hstep
  exact ⟨(hmove.txns h).shaped h, h.stamped.step (fun t ht => h.shaped ht) hmove,
    h.placed.step hstep, h.owned_step hmove⟩

theorem sound_init (cfg : Config) : Sound cfg (init cfg) where
  shaped h := by cases h
  stamped := .init cfg
  placed := .init cfg
  owned := by
    refine ⟨fun h => ?_, fun h => ?_, fun h => ?_, fun h => ?_, fun h => ?_, fun h => ?_,
      fun h => ?_⟩
    all_goals first | cases h | simp [maps, machineOf, init, MVCCStateMachine.maps,
      MVCCStateMachine.empty] at h

section

variable {k : Bytes} {s c : ℤ} (hS : Sound cfg S) (hmove : Move cfg S e S')
include hS hmove

theorem Sound.record_mono (hrec : (S.maps cfg).record k c = some s) :
    (S'.maps cfg).record k c = some s := by
  rcases hmove.shards with ⟨j, now, rfl⟩ | hshards
  · obtain ⟨call, r, hcall, -, heff, -⟩ := hS.placed.effect hmove
    exact heff.record_mono (hS.commit_one (mem_of_getElem? hcall)) hrec
  · rwa [maps_congr hshards]

/-- A write record is an old one, or left by the entry just applied. -/
theorem Sound.record_from (hrec : (S'.maps cfg).record k c = some s) :
    (S.maps cfg).record k c = some s ∨ ∃ j call r, S.calls[j]? = some call ∧
      call.command = .commit k s c ∧ S'.calls = S.calls.set j (call.applied r) ∧
      r.success = true ∧ S'.txns = S.txns ∧ 0 < call.pending := by
  rcases hmove.shards with ⟨j, now, rfl⟩ | hshards
  · obtain ⟨call, r, hcall, hpending, heff, hcalls, htxns, -⟩ := hS.placed.effect hmove
    rcases heff.record_of hrec with hold | ⟨hcmd, -, hsucc⟩
    · exact .inl hold
    · exact .inr ⟨j, call, r, hcall, hcmd, hcalls, hsucc, htxns, hpending⟩
  · rw [maps_congr hshards] at hrec
    exact .inl hrec

end

/-- A result of a proposal was there before, or is that of the entry just applied. -/
theorem Move.results (hS : Placed cfg S) (hmove : Move cfg S e S') (hcall : call ∈ S'.calls)
    (hr : r ∈ call.results) :
    (∃ call₀ ∈ S.calls, call₀.command = call.command ∧ r ∈ call₀.results) ∨
      ∃ now, Effect now (S.maps cfg) call.command (S'.maps cfg) r := by
  obtain ⟨j, hj⟩ := getElem?_of_mem hcall
  rcases hmove.call hS hj with ⟨call₀, hcall₀, hupdate⟩ | ⟨shard, cmd, -, rfl, -⟩
  · have hmem := mem_of_getElem? hcall₀
    cases hupdate with
    | applied hpending heff =>
      rcases mem_append.1 hr with hr | hr
      · exact .inl ⟨call₀, hmem, rfl, hr⟩
      · obtain rfl := mem_singleton.1 hr
        exact .inr ⟨_, heff⟩
    | _ => exact .inl ⟨_, hmem, rfl, hr⟩
  · cases hr

/-- The commit of a primary key is proposed by the transaction itself, or when the primary
has its record. -/
theorem Proposes.commit_of (hS : Sound cfg S) (h : Proposes cfg S cmd) (htype : cmd.type = .commit)
    (ht : t ∈ S.txns) (hkey : cmd.key = some t.primaryKey) (hs : cmd.startTs = some t.startTs) :
    t.phase = .validating [] ∨ ∃ c, (S.maps cfg).record t.primaryKey c = some t.startTs := by
  cases h with
  | primary htxn hphase =>
    obtain rfl := hS.stamped.eq_of_startTs (mem_of_getElem? htxn) ht (some.inj hs)
    exact .inl hphase
  | secondary htxn hphase hcommit hsec =>
    obtain rfl := hS.stamped.eq_of_startTs (mem_of_getElem? htxn) ht (some.inj hs)
    have hshape := (hS.shaped ht).phase
    simp only [Transaction.PhaseShape, hphase] at hshape
    rcases hshape with ⟨-, -, rfl, -⟩ | ⟨-, -, -, hsecs⟩
    · cases hsec
    · exact absurd (some.inj hkey) (hsecs _ hsec).1
  | @resolved n res c hres hcommit =>
    obtain ⟨u, hu, hus, -, hup⟩ := hS.owned.resolution (mem_of_getElem? hres)
    have hlock := some.inj hs
    obtain rfl := hS.stamped.eq_of_startTs hu ht (hus.trans hlock)
    refine .inr ⟨c, ?_⟩
    rw [hup, hus]
    exact record_of_primaryCommitTs hcommit
  | _ => cases htype

end System
end OxideDB.Txn
