import OxideDB.Txn.Moves

/-!
# The shards as one keyspace

Every command of a transaction goes to the shard its key lives on, and changes rows of that
key only.  So the shards together are one keyspace, and what the commands do is said over it:
a lock is taken, turned into a version and a write record, or removed.
-/

namespace OxideDB.Txn

open Raft (Bytes ApplyResult)
open Storage MVCCStateMachine List Function Maps

variable {t t' : Transaction} {j i : ℕ}

/-- What a command of a transaction does to a keyspace, and what it is answered. -/
inductive Effect (now : Time) (M : Maps) : Command → Maps → ApplyResult → Prop
  | refused {cmd : Command} {r : ApplyResult} (hr : r.success = false) : Effect now M cmd M r
  | locked {k v p : Bytes} {s : ℤ} (hfree : ∀ s', M.lock k s' = none)
      (hrecord : ∀ c s', M.record k c = some s' → c ≤ s)
      (hversion : ∀ c v', M.version k c = some v' → c ≤ s) :
      Effect now M (.prewrite k v s p) (M.setLock k s (some ⟨.locked, p, now, v⟩)) .ok
  | committed {k : Bytes} {s c : ℤ} {f : LockFields} (hlock : M.lock k s = some f) :
      Effect now M (.commit k s c)
        (((M.putVersion k c (some f.value)).putRecord k c s).setLock k s none) .ok
  | unlocked {k : Bytes} {s : ℤ} {f : LockFields} (hlock : M.lock k s = some f) :
      Effect now M (.rollback k s) (M.setLock k s none) .ok
  | idle {k : Bytes} {s : ℤ} : Effect now M (.rollback k s) M .ok

/-- The commands of transactions, by their key. -/
inductive TxnCommand : Bytes → Command → Prop
  | prewrite (k v : Bytes) (s : ℤ) (p : Bytes) : TxnCommand k (.prewrite k v s p)
  | commit (k : Bytes) (s c : ℤ) : TxnCommand k (.commit k s c)
  | rollback (k : Bytes) (s : ℤ) : TxnCommand k (.rollback k s)

variable {now : Time} {m m' : MVCCStateMachine} {r : ApplyResult} {k v p : Bytes} {s c : ℤ}

/-- A machine's part of a keyspace, changed as the command says. -/
theorem effect_of_applied {cmd : Command} (hcmd : TxnCommand k cmd) (htidy : Tidy m)
    (h : Applied now m cmd m' r) : Effect now m.maps cmd m'.maps r := by
  cases hcmd with
  | prewrite v s p =>
    cases h with
    | refused hr => exact .refused hr
    | kept htype => rcases htype with ⟨htype, -⟩ | htype <;> cases htype
    | wrote htype | copied htype | halfCopied _ htype | deleted htype | committed htype =>
      cases htype
    | unlocked htype => rcases htype with ⟨htype, -⟩ | ⟨htype, -⟩ <;> cases htype
    | locked htype hkey hvalue hs hp hvalid hfree hrecord hversion hmaps =>
      cases hkey; cases hvalue; cases hs; cases hp
      rw [hmaps]
      exact .locked (htidy.free hfree) hrecord hversion
  | commit s c =>
    cases h with
    | refused hr => exact .refused hr
    | kept htype => rcases htype with ⟨htype, -⟩ | htype <;> cases htype
    | wrote htype | copied htype | halfCopied _ htype | deleted htype | locked htype =>
      cases htype
    | unlocked htype => rcases htype with ⟨htype, -⟩ | ⟨htype, -⟩ <;> cases htype
    | committed htype hkey hs hc hvalid hlock hstatus hmaps =>
      cases hkey; cases hs; cases hc
      rw [hmaps]
      exact .committed hlock
  | rollback s =>
    cases h with
    | refused hr => exact .refused hr
    | kept => exact .idle
    | wrote htype | copied htype | halfCopied _ htype | deleted htype | locked htype
    | committed htype => cases htype
    | unlocked htype hkey hlock hmaps =>
      cases hkey
      rcases htype with ⟨-, hs⟩ | ⟨htype, -⟩
      · cases hs
        rw [hmaps]
        exact .unlocked hlock
      · cases htype

namespace Effect

variable {M M' N N' : Maps} {cmd : Command}

/-- Two keyspaces with the same rows for every key. -/
theorem ext_keys (h : ∀ k, M.version k = M'.version k ∧ M.record k = M'.record k ∧
    M.lock k = M'.lock k) : M = M' :=
  Maps.ext (funext fun k => (h k).1) (funext fun k => (h k).2.1) (funext fun k => (h k).2.2)

/-- The rows of the other keys are as they were. -/
theorem frame (hcmd : TxnCommand k cmd) (h : Effect now M cmd M' r) {k' : Bytes} (hne : k' ≠ k) :
    M'.version k' = M.version k' ∧ M'.record k' = M.record k' ∧ M'.lock k' = M.lock k' := by
  have hoff : ∀ (t t' : ℤ), ¬ (k' = k ∧ t' = t) := fun _ _ h => hne h.1
  cases h with
  | refused | idle => exact ⟨rfl, rfl, rfl⟩
  | locked | unlocked =>
    cases hcmd
    refine ⟨rfl, rfl, funext fun t => ?_⟩
    rw [setLock_lock, if_neg (hoff _ t)]
  | committed =>
    cases hcmd
    refine ⟨funext fun t => ?_, funext fun t => ?_, funext fun t => ?_⟩
    · rw [setLock_version, putRecord_version, putVersion_version,
        if_neg (hoff _ t)]
    · rw [setLock_record, putRecord_record, if_neg (hoff _ t)]
      rfl
    · rw [setLock_lock, if_neg (hoff _ t)]
      rfl

/-- What a command does to the rows of its key, it does to any keyspace with those rows. -/
theorem lift (hcmd : TxnCommand k cmd) (h : Effect now N cmd N' r)
    (hversion : M.version k = N.version k) (hrecord : M.record k = N.record k)
    (hlock : M.lock k = N.lock k)
    (hkey : M'.version k = N'.version k ∧ M'.record k = N'.record k ∧ M'.lock k = N'.lock k)
    (hother : ∀ k', k' ≠ k → M'.version k' = M.version k' ∧ M'.record k' = M.record k' ∧
      M'.lock k' = M.lock k') : Effect now M cmd M' r := by
  -- it is enough to name the effect on `M` and compare it with `M'` key by key
  have hwhole : ∀ {M₁ : Maps}, Effect now M cmd M₁ r → (M₁.version k = N'.version k ∧
      M₁.record k = N'.record k ∧ M₁.lock k = N'.lock k) → Effect now M cmd M' r := by
    intro M₁ h₁ hk₁
    have heq : M₁ = M' := ext_keys fun k' => by
      by_cases hk : k' = k
      · rw [hk, hkey.1, hkey.2.1, hkey.2.2]
        exact hk₁
      obtain ⟨h1, h2, h3⟩ := frame hcmd h₁ hk
      obtain ⟨h1', h2', h3'⟩ := hother k' hk
      rw [h1, h2, h3, h1', h2', h3']
      exact ⟨rfl, rfl, rfl⟩
    exact heq ▸ h₁
  cases h with
  | refused hr => exact hwhole (.refused hr) ⟨hversion, hrecord, hlock⟩
  | idle => exact hwhole .idle ⟨hversion, hrecord, hlock⟩
  | locked hfree hrec hver =>
    cases hcmd
    refine hwhole (.locked (hlock ▸ hfree) (hrecord ▸ hrec) (hversion ▸ hver))
      ⟨hversion, hrecord, funext fun t => ?_⟩
    rw [setLock_lock, setLock_lock, hlock]
  | unlocked hl =>
    cases hcmd
    refine hwhole (.unlocked (hlock ▸ hl)) ⟨hversion, hrecord, funext fun t => ?_⟩
    rw [setLock_lock, setLock_lock, hlock]
  | committed hl =>
    cases hcmd
    refine hwhole (.committed (hlock ▸ hl))
      ⟨funext fun t => ?_, funext fun t => ?_, funext fun t => ?_⟩
    · simp only [setLock_version, putRecord_version, putVersion_version, hversion]
    · simp only [setLock_record, putRecord_record, putVersion_record, hrecord]
    · simp only [setLock_lock, putRecord_lock, putVersion_lock, hlock]

end Effect

namespace System

/-- The keyspace of the shards: the rows of each key on the shard it lives on. -/
def maps (cfg : Config) (S : System) : Maps where
  version k := (S.machineOf cfg k).maps.version k
  record k := (S.machineOf cfg k).maps.record k
  lock k := (S.machineOf cfg k).maps.lock k

variable {cfg : Config} {S S' : System} {e : Event}

theorem maps_congr (h : S'.shards = S.shards) : S'.maps cfg = S.maps cfg := by
  simp only [maps, machineOf, h]

/-- The commands in flight are commands of transactions, at the shard of their key, and no
key of a shard has two locks. -/
structure Placed (cfg : Config) (S : System) : Prop where
  tidy (n : ℕ) : Tidy (S.shards n)
  placed {call : Call} (h : call ∈ S.calls) :
    ∃ k, TxnCommand k call.command ∧ call.shard = cfg.shardOf k

/-- Who proposes a command, and when. -/
inductive Proposes (cfg : Config) (S : System) : Command → Prop
  | prewrite {i : ℕ} {t : Transaction} {tasks : List ShardTask} {task : ShardTask}
      {key value : Bytes} (htxn : S.txns[i]? = some t) (hphase : t.phase = .prewriting tasks)
      (htask : task ∈ tasks) (hrow : (key, value) ∈ task.todo) :
      Proposes cfg S (.prewrite key value t.startTs t.primaryKey)
  | primary {i : ℕ} {t : Transaction} {c : ℤ} (htxn : S.txns[i]? = some t)
      (hphase : t.phase = .validating []) : Proposes cfg S (.commit t.primaryKey t.startTs c)
  | secondary {i : ℕ} {t : Transaction} {key : Bytes} {secondaries : List Bytes} {c : ℤ}
      (htxn : S.txns[i]? = some t) (hphase : t.phase = .committed secondaries)
      (hcommit : t.commitTs = some c) (hkey : key ∈ secondaries) :
      Proposes cfg S (.commit key t.startTs c)
  | resolved {n : ℕ} {res : Resolution} {c : ℤ} (hres : S.resolutions[n]? = some res)
      (hcommit : LockResolver.primaryCommitTs (some (S.machineOf cfg res.lock.primaryKey))
        res.lock.primaryKey res.lock.startTs = .ok (some c)) :
      Proposes cfg S (.commit res.key res.lock.startTs c)
  | rollback {k : Bytes} {s : ℤ} : Proposes cfg S (.rollback k s)

/-- What a step does to the proposals: a new one, or one that is live goes on. -/
inductive CallsMove (cfg : Config) (S : System) : List Call → Prop
  | same : CallsMove cfg S S.calls
  | proposed {k : Bytes} {cmd : Command} (hcmd : TxnCommand k cmd) (hwho : Proposes cfg S cmd) :
      CallsMove cfg S (S.calls ++ [{ shard := cfg.shardOf k, command := cmd }])
  | updated {j : ℕ} {call call' : Call} (hcall : S.calls[j]? = some call)
      (hcommand : call'.command = call.command) (hshard : call'.shard = call.shard)
      (hlive : call.live = true) : CallsMove cfg S (S.calls.set j call')

theorem TxnMove.calls (htxn : S.txns[i]? = some t) (h : TxnMove cfg S i t e t' S') :
    CallsMove cfg S S'.calls := by
  cases h with
  | primaryCommitted | rolledBack | closed => rw [unlock_calls]; exact .same
  | proposePrewrite hphase htask htodo =>
    refine .proposed (.prewrite _ _ _ _) (.prewrite htxn hphase (mem_of_find?_eq_some htask) ?_)
    rw [htodo]
    exact mem_cons_self
  | proposePrimary hphase => exact .proposed (.commit _ _ _) (.primary htxn hphase)
  | proposeSecondary hphase hcommit hkey =>
    exact .proposed (.commit _ _ _) (.secondary htxn hphase hcommit hkey)
  | proposeRollback => exact .proposed (.rollback _ _) .rollback
  | _ => exact .same

theorem Move.calls (h : Move cfg S e S') : CallsMove cfg S S'.calls := by
  cases h with
  | txn htxn hmove => exact hmove.calls htxn
  | cleanupNext | resolveRollback => exact .proposed (.rollback _ _) .rollback
  | resolveCommit hres hstage hcommit => exact .proposed (.commit _ _ _) (.resolved hres hcommit)
  | ask hcall hopen | answer hcall hopen =>
    exact .updated hcall rfl rfl (by simp [Call.live, hopen])
  | applyEntry hcall hpending => exact .updated hcall rfl rfl (by simp [Call.live, hpending])
  | _ =>
    exact .same

theorem TxnMove.shards (h : TxnMove cfg S i t e t' S') : S'.shards = S.shards := by
  cases h <;> simp

/-- Only an entry that is applied changes a shard. -/
theorem Move.shards (h : Move cfg S e S') :
    (∃ j now, e = .applyEntry j now) ∨ S'.shards = S.shards := by
  cases h with
  | txn _ hmove => exact .inr hmove.shards
  | applyEntry => exact .inl ⟨_, _, rfl⟩
  | _ => exact .inr rfl

namespace Placed

theorem init (cfg : Config) : Placed cfg (init cfg) where
  tidy _ := tidy_empty
  placed h := by cases h

variable (h : Placed cfg S)
include h

theorem calls_move {calls : List Call} (hmove : CallsMove cfg S calls) {call : Call}
    (hmem : call ∈ calls) : ∃ k, TxnCommand k call.command ∧ call.shard = cfg.shardOf k := by
  cases hmove with
  | same => exact h.placed hmem
  | proposed hcmd =>
    rcases mem_append.1 hmem with hold | hnew
    · exact h.placed hold
    · rw [mem_singleton.1 hnew]
      exact ⟨_, hcmd, rfl⟩
  | updated hcall hcommand hshard =>
    rcases mem_or_eq_of_mem_set hmem with hold | rfl
    · exact h.placed hold
    · rw [hcommand, hshard]
      exact h.placed (mem_of_getElem? hcall)

/-- **Step.** -/
theorem step (hstep : S.step cfg e = some S') : Placed cfg S' := by
  have hmove := step_move hstep
  refine ⟨fun n => ?_, fun hmem => h.calls_move hmove.calls hmem⟩
  rcases hmove.shards with ⟨j, now, rfl⟩ | hshards
  · cases hmove with
    | txn _ hmove => exact absurd hmove.subject (by simp [Event.subject])
    | @applyEntry _ _ call hcall hpending =>
      by_cases hn : n = call.shard
      · rw [hn]
        show Tidy (update S.shards call.shard _ call.shard)
        rw [update_self]
        exact (h.tidy _).apply now call.command
      · show Tidy (update S.shards call.shard _ n)
        rw [update_of_ne hn]
        exact h.tidy n
  · rw [hshards]
    exact h.tidy n

/-- The keyspace after an entry of a call has been applied. -/
theorem effect_of_shards {call : Call} (hcall : S.calls[j]? = some call) (now : Time)
    (hshards : S'.shards = update S.shards call.shard
      (apply now (S.shards call.shard) call.command).1) :
    Effect now (S.maps cfg) call.command (S'.maps cfg)
      (apply now (S.shards call.shard) call.command).2 := by
  obtain ⟨k, hcmd, hshard⟩ := h.placed (mem_of_getElem? hcall)
  have happ := effect_of_applied hcmd (h.tidy call.shard)
    (apply_applied now (S.shards call.shard) call.command)
  have hold : S.machineOf cfg k = S.shards call.shard := by rw [machineOf, hshard]
  have hnew : S'.machineOf cfg k =
      (apply now (S.shards call.shard) call.command).1 := by
    rw [machineOf, hshards, ← hshard, update_self]
  refine happ.lift hcmd ?_ ?_ ?_ ?_ fun k' hne => ?_
  · simp only [maps, hold]
  · simp only [maps, hold]
  · simp only [maps, hold]
  · simp only [maps, hnew, and_self]
  simp only [maps]
  -- another key is on another shard, or its rows there are as they were
  by_cases hk : cfg.shardOf k' = call.shard
  · have hnew' : S'.machineOf cfg k' =
        (apply now (S.shards call.shard) call.command).1 := by
      rw [machineOf, hshards, hk, update_self]
    have hold' : S.machineOf cfg k' = S.shards call.shard := by rw [machineOf, hk]
    rw [hnew', hold']
    exact happ.frame hcmd hne
  · have hsame : S'.machineOf cfg k' = S.machineOf cfg k' := by
      rw [machineOf, hshards, update_of_ne hk, machineOf]
    rw [hsame]
    exact ⟨rfl, rfl, rfl⟩

/-- **An entry that is applied** has the effect of its command, and nothing else. -/
theorem effect {now : Time} (hmove : Move cfg S (.applyEntry j now) S') :
    ∃ call r, S.calls[j]? = some call ∧ 0 < call.pending ∧
      Effect now (S.maps cfg) call.command (S'.maps cfg) r ∧
      S'.calls = S.calls.set j (call.applied r) ∧ S'.txns = S.txns ∧
      S'.resolutions = S.resolutions := by
  cases hmove with
  | txn _ hmove => exact absurd hmove.subject (by simp [Event.subject])
  | applyEntry hcall hpending =>
    exact ⟨_, _, hcall, hpending, h.effect_of_shards hcall now rfl, rfl, rfl, rfl⟩

end Placed

/-- What a step makes of one proposal. -/
inductive CallUpdate (cfg : Config) (S S' : System) (e : Event) (j : ℕ) (call : Call) : Call → Prop
  | same : CallUpdate cfg S S' e j call call
  | asked (hopen : call.answer = none) (he : e = .ask j) :
      CallUpdate cfg S S' e j call { call with pending := call.pending + 1 }
  | applied {now : Time} {r : ApplyResult} (hpending : 0 < call.pending)
      (heff : Effect now (S.maps cfg) call.command (S'.maps cfg) r) (he : e = .applyEntry j now) :
      CallUpdate cfg S S' e j call (call.applied r)
  | answered {a : Answer} (he : e = .answer j a) (hopen : call.answer = none)
      (hhear : call.mayHear a = true) : CallUpdate cfg S S' e j call { call with answer := some a }

/-- **What a step makes of the proposals**: each goes on, or is new.  A prewrite is new only
when its transaction has moved. -/
theorem Move.call (hS : Placed cfg S) (hmove : Move cfg S e S') {call' : Call}
    (hcall' : S'.calls[j]? = some call') :
    (∃ call, S.calls[j]? = some call ∧ CallUpdate cfg S S' e j call call') ∨
      ∃ shard cmd, j = S.calls.length ∧ call' = { shard := shard, command := cmd } ∧
        Proposes cfg S cmd ∧ (cmd.type = .prewrite →
          ∃ i t t', S.txns[i]? = some t ∧ TxnMove cfg S i t e t' S' ∧ cmd.startTs = some t.startTs) := by
  have hsame : S.calls[j]? = some call' →
      ∃ call, S.calls[j]? = some call ∧ CallUpdate cfg S S' e j call call' :=
    fun h => ⟨call', h, .same⟩
  cases hmove with
  | cleanupNext | resolveRollback =>
    rcases getElem?_concat hcall' with hold | ⟨hj, hnew⟩
    · exact .inl (hsame hold)
    · exact .inr ⟨_, _, hj, hnew, .rollback, nofun⟩
  | resolveCommit hres hstage hcommit =>
    rcases getElem?_concat hcall' with hold | ⟨hj, hnew⟩
    · exact .inl (hsame hold)
    · exact .inr ⟨_, _, hj, hnew, .resolved hres hcommit, nofun⟩
  | ask hcall hopen =>
    rcases getElem?_set_eq_some hcall' with ⟨rfl, rfl⟩ | ⟨-, hold⟩
    · exact .inl ⟨_, hcall, .asked hopen rfl⟩
    · exact .inl (hsame hold)
  | answer hcall hopen hhear =>
    rcases getElem?_set_eq_some hcall' with ⟨rfl, rfl⟩ | ⟨-, hold⟩
    · exact .inl ⟨_, hcall, .answered rfl hopen hhear⟩
    · exact .inl (hsame hold)
  | applyEntry hcall hpending =>
    rcases getElem?_set_eq_some hcall' with ⟨rfl, rfl⟩ | ⟨-, hold⟩
    · exact .inl ⟨_, hcall, .applied hpending (hS.effect_of_shards hcall _ rfl) rfl⟩
    · exact .inl (hsame hold)
  | txn htxn hmove =>
    cases hmove with
    | primaryCommitted | rolledBack | closed =>
      rw [unlock_calls] at hcall'
      exact .inl (hsame hcall')
    | proposePrewrite hphase htask htodo hcall =>
      rcases getElem?_concat hcall' with hold | ⟨hj, hnew⟩
      · exact .inl (hsame hold)
      refine .inr ⟨_, _, hj, hnew, .prewrite htxn hphase (mem_of_find?_eq_some htask) ?_,
        fun _ => ⟨_, _, _, htxn, .proposePrewrite hphase htask htodo hcall, rfl⟩⟩
      rw [htodo]
      exact mem_cons_self
    | proposePrimary hphase =>
      rcases getElem?_concat hcall' with hold | ⟨hj, hnew⟩
      · exact .inl (hsame hold)
      · exact .inr ⟨_, _, hj, hnew, .primary htxn hphase, nofun⟩
    | proposeSecondary hphase hcommit hkey =>
      rcases getElem?_concat hcall' with hold | ⟨hj, hnew⟩
      · exact .inl (hsame hold)
      · exact .inr ⟨_, _, hj, hnew, .secondary htxn hphase hcommit hkey, nofun⟩
    | proposeRollback =>
      rcases getElem?_concat hcall' with hold | ⟨hj, hnew⟩
      · exact .inl (hsame hold)
      · exact .inr ⟨_, _, hj, hnew, .rollback, nofun⟩
    | _ => exact .inl (hsame hcall')
  | _ =>
    exact .inl (hsame hcall')

end System
end OxideDB.Txn
