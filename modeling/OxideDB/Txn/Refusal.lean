import OxideDB.Storage.Effect
import OxideDB.Txn.Answered

/-!
# What a refused transaction leaves

A `commit` that cannot go through asks every key of its shard groups for a `ROLLBACK` before it
returns `(False, None)`.  By then no prewrite of the transaction is on its way, so a lock that is
gone stays gone; and no commit of its primary key was ever applied, so there is nothing that
anybody could have rolled forward.
-/

namespace OxideDB.Txn

open Raft (Bytes ApplyResult)
open Storage MVCCStateMachine List Option Function Transaction

variable {todo : List Bytes}

/-- The keys a call of `commit` that will not go through has not rolled back. -/
def Transaction.remaining (t : Transaction) : Option (List Bytes) :=
  match t.phase with
  | .rollingBack todo _ => some todo
  | _ => if t.returned = some (false, none) then some [] else none

namespace System

variable {cfg : Config} {S S' : System} {e : Event} {i j : ℕ} {t t' : Transaction}
  {k : Bytes} {s c : ℤ} {f : LockFields}

/-! ## The groups of a call -/

/-- A transaction with this start timestamp has the key in its groups. -/
def InGroups (S : System) (k : Bytes) (s : ℤ) : Prop :=
  ∃ t ∈ S.txns, t.startTs = s ∧ k ∈ t.groups.keys

/-- What a transaction locks is in the groups its call was started with. -/
structure Grouped (cfg : Config) (S : System) : Prop where
  active {t : Transaction} (h : t ∈ S.txns) (hp : t.phase = .active) : t.groups = []
  todo {t : Transaction} {tasks : List ShardTask} {task : ShardTask} {row : Bytes × Bytes}
    (h : t ∈ S.txns) (hp : t.phase = .prewriting tasks) (htask : task ∈ tasks)
    (hrow : row ∈ task.todo) : row.1 ∈ t.groups.keys
  command {call : Call} {k v p : Bytes} {s : ℤ} (h : call ∈ S.calls)
    (hcmd : call.command = .prewrite k v s p) : InGroups S k s
  lock {k : Bytes} {s : ℤ} {f : LockFields} (h : (S.maps cfg).lock k s = some f) : InGroups S k s

theorem Grouped.init (cfg : Config) : Grouped cfg (init cfg) where
  active h := by cases h
  todo h := by cases h
  command h := by cases h
  lock h := by simp [maps, machineOf, System.init, MVCCStateMachine.maps,
    empty] at h

/-- A call keeps the groups it was started with. -/
theorem TxnMove.groups (h : TxnMove cfg S i t e t' S') :
    t'.groups = t.groups ∧ (t'.phase = .active → t.phase = .active) ∨
      t.phase = .active ∧ t'.phase ≠ .active := by
  cases h with
  | startEmpty _ hp | start _ hp | startRefused _ hp =>
    exact .inr ⟨hp, nofun⟩
  | addWrite | read | rollbackPending | rollbackCalled => exact .inl ⟨rfl, id⟩
  | joinedLocked =>
    refine .inl ⟨rfl, fun h => ?_⟩
    exact absurd (locked_phase h) (by simp)
  | _ => exact .inl ⟨rfl, nofun⟩

section

variable (hS : Sound cfg S)
include hS

theorem InGroups.move (h : Grouped cfg S) (hmove : Move cfg S e S') (hin : InGroups S k s) :
    InGroups S' k s := by
  obtain ⟨t, ht, hs, hk⟩ := hin
  obtain ⟨t', ht', hkept⟩ := (hmove.txns hS).grown t ht
  refine ⟨t', ht', hkept.startTs.trans hs, ?_⟩
  cases hmove.txn_step hS ht ht' hkept.startTs with
  | same | aborted => exact hk
  | moved _ htmove =>
    rcases htmove.groups with ⟨hsame, -⟩ | ⟨hactive, -⟩
    · rwa [hsame]
    · rw [h.active ht hactive] at hk
      cases hk

/-- A lock is an old one, or of a prewrite that was on its way. -/
theorem Move.lock_from (hmove : Move cfg S e S') (hlock : (S'.maps cfg).lock k s = some f) :
    (S.maps cfg).lock k s = some f ∨
      ∃ (j : ℕ) (call : Call) (v p : Bytes), S.calls[j]? = some call ∧ 0 < call.pending ∧
        call.command = .prewrite k v s p := by
  rcases hmove.shards with ⟨j, now, rfl⟩ | hshards
  · obtain ⟨call, r, hcall, hpending, heff, -⟩ := hS.placed.effect hmove
    rcases heff.lock_of hlock with hold | ⟨p, v, hcmd, -⟩
    · exact .inl hold
    · exact .inr ⟨j, call, v, p, hcall, hpending, hcmd⟩
  · rw [maps_congr hshards] at hlock
    exact .inl hlock

/-- The locks of a transaction without prewrites on their way are old ones. -/
theorem Move.lock_old (hmove : Move cfg S e S') (hnone : ∀ j, ¬ LivePrewrite S.calls s j)
    (hlock : (S'.maps cfg).lock k s = some f) : (S.maps cfg).lock k s = some f := by
  rcases hmove.lock_from hS hlock with hold | ⟨j, call, v, p, hcall, hpending, hcmd⟩
  · exact hold
  · exact absurd ⟨call, hcall, by simp [Call.live, hpending], by simp [hcmd, Command.prewrite],
      by simp [hcmd, Command.prewrite]⟩ (hnone j)

theorem Grouped.todo_step (h : Grouped cfg S) (hmove : Move cfg S e S') {tasks : List ShardTask}
    {task : ShardTask} {row : Bytes × Bytes} (ht' : t' ∈ S'.txns)
    (hp' : t'.phase = .prewriting tasks) (htask : task ∈ tasks) (hrow : row ∈ task.todo) :
    row.1 ∈ t'.groups.keys := by
  -- it had this to do before the step
  have hwas : ∀ {t tasks task}, t ∈ S.txns → t'.groups = t.groups → t.phase = .prewriting tasks →
      task ∈ tasks → row ∈ task.todo → row.1 ∈ t'.groups.keys :=
    fun ht hgroups hp htask hrow => hgroups ▸ h.todo ht hp htask hrow
  cases hmove.txn_from hS ht' with
  | old hold => exact hwas hold rfl hp' htask hrow
  | fresh _ heq => subst heq; cases hp'
  | aborted hold heq => subst heq; exact hwas hold rfl hp' htask hrow
  | @moved i t htxn ht htmove hkept =>
    cases htmove with
    | addWrite | read | rollbackPending | rollbackCalled => exact hwas ht rfl hp' htask hrow
    | start =>
      obtain rfl := Phase.prewriting.inj hp'
      obtain ⟨g, hg, rfl⟩ := mem_map.1 htask
      exact mem_flatMap.2 ⟨g, hg, mem_map_of_mem hrow⟩
    | proposePrewrite hp hopen htodo =>
      obtain rfl := Phase.prewriting.inj hp'
      rcases mem_setTask htask with rfl | hold
      · exact hwas ht rfl hp (openTask_mem hopen).1 (htodo ▸ hrow)
      · exact hwas ht rfl hp hold hrow
    | prewriteAnswered hp hopen =>
      obtain rfl := Phase.prewriting.inj hp'
      rcases mem_setTask htask with rfl | hold
      · exact hwas ht rfl hp (openTask_mem hopen).1 (ShardTask.mem_heard hrow)
      · exact hwas ht rfl hp hold hrow
    | joinedLocked => exact absurd (locked_phase hp') (by simp)
    | _ => cases hp'

/-- **Step.** -/
theorem Grouped.step (h : Grouped cfg S) (hmove : Move cfg S e S') :
    Grouped cfg S' where
  active {t'} ht' hp' := by
    cases hmove.txn_from hS ht' with
    | old hold => exact h.active hold hp'
    | fresh _ heq => subst heq; rfl
    | @aborted t hold heq =>
      subst heq
      have hgroups : t.groups = [] := h.active hold hp'
      exact hgroups
    | @moved i t htxn _ htmove hkept =>
      rcases htmove.groups with ⟨hsame, hactive⟩ | ⟨-, hne⟩
      · exact hsame.trans (h.active (mem_of_getElem? htxn) (hactive hp'))
      · exact absurd hp' hne
  todo ht' hp' htask hrow := h.todo_step hS hmove ht' hp' htask hrow
  command {call k v p s} hcall hcmd := by
    obtain ⟨j, hj⟩ := getElem?_of_mem hcall
    rcases hmove.call hS.placed hj with ⟨call₀, hcall₀, hupdate⟩ | ⟨shard, cmd, -, rfl, hwho, -⟩
    · exact (h.command (mem_of_getElem? hcall₀) (hupdate.command ▸ hcmd)).move hS h hmove
    refine InGroups.move hS h hmove ?_
    obtain rfl : cmd = .prewrite k v s p := hcmd
    generalize hcmd' : Command.prewrite k v s p = cmd at hwho
    cases hwho with
    | prewrite htxn hphase htask hrow =>
      cases hcmd'
      exact ⟨_, mem_of_getElem? htxn, rfl, h.todo (mem_of_getElem? htxn) hphase htask hrow⟩
    | _ => cases hcmd'
  lock {k s f} hlock := by
    refine InGroups.move hS h hmove ?_
    rcases hmove.lock_from hS hlock with hold | ⟨j, call, v, p, hcall, -, hcmd⟩
    · exact h.lock hold
    · exact h.command (mem_of_getElem? hcall) hcmd

end

/-! ## The rows of a shard -/

/-- A shard has rows of its own keys only. -/
def Homed (cfg : Config) (S : System) : Prop :=
  ∀ n k, cfg.shardOf k ≠ n → (∀ c, (S.shards n).maps.version k c = none) ∧
    (∀ c, (S.shards n).maps.record k c = none) ∧ ∀ s, (S.shards n).maps.lock k s = none

theorem Homed.init (cfg : Config) : Homed cfg (init cfg) := fun n k _ => by
  simp [System.init, MVCCStateMachine.maps, MVCCStateMachine.empty]

theorem Homed.step (hS : Sound cfg S) (h : Homed cfg S) (hmove : Move cfg S e S') :
    Homed cfg S' := by
  rcases hmove.shards with ⟨j, now, rfl⟩ | hshards
  · cases hmove with
    | txn _ hmove => exact absurd hmove.subject (by simp [Event.subject])
    | @applyEntry _ _ call hcall hpending =>
      intro n k hk
      obtain ⟨key, hcmd, hshard⟩ := hS.placed.placed (mem_of_getElem? hcall)
      by_cases hn : n = call.shard
      · -- the command is one of another key of this shard
        subst hn
        have hne : k ≠ key := fun heq => hk (heq ▸ hshard.symm)
        have heff := effect_of_applied hcmd (hS.placed.tidy call.shard)
          (apply_applied now (S.shards call.shard) call.command)
        obtain ⟨hversion, hrecord, hlock⟩ := heff.frame hcmd hne
        have hrows := h call.shard k hk
        show (∀ c, (update S.shards call.shard _ call.shard).maps.version k c = none) ∧
          (∀ c, (update S.shards call.shard _ call.shard).maps.record k c = none) ∧
          ∀ s, (update S.shards call.shard _ call.shard).maps.lock k s = none
        rw [update_self, hversion, hrecord, hlock]
        exact hrows
      · have hsame : update S.shards call.shard
            (apply now (S.shards call.shard) call.command).1 n = S.shards n :=
          update_of_ne hn _ _
        have hrows := h n k hk
        rw [← hsame] at hrows
        exact hrows
  · intro n k hk
    rw [hshards]
    exact h n k hk

/-- An applied `ROLLBACK` leaves no lock of its transaction on its key. -/
theorem Placed.rolledBack (hS : Placed cfg S) {now : Time} (hmove : Move cfg S (.applyEntry j now) S')
    {call : Call} (hcall : S.calls[j]? = some call) (hcmd : call.command = .rollback k s) :
    (S'.maps cfg).lock k s = none := by
  cases hmove with
  | txn _ hmove => exact absurd hmove.subject (by simp [Event.subject])
  | applyEntry hcall' hpending =>
    cases hcall.symm.trans hcall'
    obtain ⟨key, htxn, hshard⟩ := hS.placed (mem_of_getElem? hcall)
    rw [hcmd] at htxn
    cases htxn
    have hmaps := (apply_release (hS.tidy call.shard) now (.inl rfl) rfl rfl :
      (apply now (S.shards call.shard) (.rollback k s)).1.maps = _ ∧ _).1
    show (update S.shards call.shard _ (cfg.shardOf k)).maps.lock k s = none
    rw [← hshard, update_self, hcmd, hmaps, Maps.setLock_lock, if_pos ⟨rfl, rfl⟩]

/-! ## Rolling back -/

/-- A transaction that is over has no prewrite on its way, and locks only on the keys it has not
got through. -/
structure Cleaning (cfg : Config) (S : System) : Prop where
  quiet {t : Transaction} {todo : List Bytes} (ht : t ∈ S.txns) (hrem : t.remaining = some todo)
    (j : ℕ) : ¬ LivePrewrite S.calls t.startTs j
  todo {t : Transaction} {todo : List Bytes} {k : Bytes} {f : LockFields} (ht : t ∈ S.txns)
    (hrem : t.remaining = some todo) (hlock : (S.maps cfg).lock k t.startTs = some f) : k ∈ todo
  asked {t : Transaction} {todo : List Bytes} {j : ℕ} (ht : t ∈ S.txns)
    (hp : t.phase = .rollingBack todo (some j)) :
    ∃ key rest call, todo = key :: rest ∧ S.calls[j]? = some call ∧
      call.command = .rollback key t.startTs ∧
      (call.results ≠ [] → (S.maps cfg).lock key t.startTs = none)

theorem Cleaning.init (cfg : Config) : Cleaning cfg (init cfg) where
  quiet h := by cases h
  todo h := by cases h
  asked h := by cases h

/-- How a transaction comes to have these keys left. -/
inductive Turn (S S' : System) (t : Transaction) (todo : List Bytes) : Prop
  /-- It had them before. -/
  | same (hrem : t.remaining = some todo)
      (hlive : ∀ j, LivePrewrite S'.calls t.startTs j → LivePrewrite S.calls t.startTs j)
  /-- It turns to rolling back, or is refused at once. -/
  | begun (hcalls : S'.calls = S.calls)
      (hdone : t.Settled ∨ ∃ tasks, t.phase = .prewriting tasks ∧
        ∀ task ∈ tasks, task.verdict ≠ none)
      (htodo : todo = t.groups.keys ∨ t.phase = .active)
  /-- It has heard of the first key. -/
  | next {key : Bytes} {j : ℕ} {a : Answer} (hp : t.phase = .rollingBack (key :: todo) (some j))
      (hans : S.answerOf j = some a) (hcalls : S'.calls = S.calls)

theorem remaining_of_rollingBack {call : Option ℕ} (hp : t.phase = .rollingBack todo call) :
    t.remaining = some todo := by
  simp only [remaining, hp]

/-- A call that has returned `(False, None)` has no key left. -/
theorem remaining_of_refused (ht : t.Shaped) (hret : t.returned = some (false, none)) :
    t.remaining = some [] := by
  have hshape := ht.phase
  unfold Transaction.PhaseShape at hshape
  cases hp : t.phase with
  | rollingBack => simp [hp, hret] at hshape
  | _ =>
    simp [remaining, hp, hret]

theorem returned_of_remaining (hp : ∀ todo call, t.phase ≠ .rollingBack todo call)
    (hrem : t.remaining = some todo) : t.returned = some (false, none) ∧ todo = [] := by
  unfold remaining at hrem
  split at hrem
  · exact absurd ‹_› (hp _ _)
  · split at hrem
    · exact ⟨‹_›, (some.inj hrem).symm⟩
    · cases hrem

theorem TxnMove.turn (ht : t.Shaped) (hclean : Cleaning cfg S) (htxn : S.txns[i]? = some t)
    (h : TxnMove cfg S i t e t' S')
    (hrem : t'.remaining = some todo) : Turn S S' t todo := by
  have hshape := ht.phase
  unfold Transaction.PhaseShape at hshape
  cases h with
  | startRefused _ hp => exact .begun rfl (.inl (.inl hp)) (.inr hp)
  | joinedFailed hp hjoined =>
    exact .begun rfl (.inr ⟨_, hp, hjoined⟩) (.inl (some.inj hrem).symm)
  | conflict _ hp | primaryRefused hp =>
    exact .begun rfl (.inl (.inr (.inr (.inl ⟨_, hp⟩)))) (.inl (some.inj hrem).symm)
  | primaryFailed hp =>
    simp only [hp] at hshape
    exact .begun rfl (.inl (.inr (.inr (.inr (isSome_iff_ne_none.1 hshape.1)))))
      (.inl (some.inj hrem).symm)
  | proposeRollback hp =>
    refine .same ?_ fun j hj => hj.concat nofun
    rw [← hrem, remaining_of_rollingBack hp, remaining_of_rollingBack rfl]
  | rollbackAnswered hp hans =>
    obtain ⟨key, rest, call, rfl, -⟩ := hclean.asked (mem_of_getElem? htxn) hp
    cases hrem
    exact .next hp hans rfl
  | rolledBack hp =>
    obtain ⟨-, rfl⟩ := returned_of_remaining (fun _ _ h => by cases h) hrem
    exact .same (remaining_of_rollingBack hp) fun j hj => by rwa [unlock_calls] at hj
  | closed _ hactive hcommitted =>
    obtain ⟨hret, rfl⟩ := returned_of_remaining (fun _ _ h => by cases h) hrem
    exact .same (remaining_of_refused ht hret) fun j hj => by rwa [unlock_calls] at hj
  | startEmpty | primaryCommitted =>
    obtain ⟨hret, -⟩ := returned_of_remaining (fun _ _ h => by cases h) hrem
    cases hret
  | proposeSecondary hp =>
    obtain ⟨hret, rfl⟩ := returned_of_remaining (fun _ _ h => by cases h) hrem
    replace hret : t.returned = some (false, none) := hret
    simp [hp, hret] at hshape
  | start _ hp | proposePrewrite hp | prewriteAnswered hp | lockTaken hp | validated hp
  | proposePrimary hp =>
    obtain ⟨hret, rfl⟩ := returned_of_remaining (fun _ _ h => by cases h) hrem
    replace hret : t.returned = some (false, none) := hret
    simp [hp, hret] at hshape
  | joinedLocked hp =>
    obtain ⟨hret, rfl⟩ := returned_of_remaining (fun _ _ h => by
      exact absurd (locked_phase h) (by simp)) hrem
    replace hret : t.returned = some (false, none) := hret
    simp [hp, hret] at hshape
  | _ => exact .same hrem fun _ => id

section Step

variable (hS : Sound cfg S) (hgroups : Grouped cfg S) (htracked : Tracked S) (honce : Once S)
  (h : Cleaning cfg S) (hmove : Move cfg S e S')

include hS h hmove

include htracked in
theorem Cleaning.quiet_step (ht' : t' ∈ S'.txns) (hrem : t'.remaining = some todo) (j : ℕ) :
    ¬ LivePrewrite S'.calls t'.startTs j := by
  intro hlive
  cases hmove.txn_from hS ht' with
  | old hold hother =>
    exact h.quiet hold hrem j (hmove.livePrewrite_of_still hS hother hlive)
  | fresh _ heq => subst heq; cases hrem
  | aborted hold heq hquiet =>
    subst heq
    exact h.quiet hold hrem j
      (hmove.livePrewrite_of_still hS (fun i t u _ hmove => absurd hmove (hquiet i t u)) hlive)
  | @moved i t htxn ht htmove hkept =>
    rw [hkept.startTs] at hlive
    cases htmove.turn (hS.shaped ht) h htxn hrem with
    | same hrem hold => exact h.quiet ht hrem j (hold j hlive)
    | begun hcalls hdone =>
      rw [hcalls] at hlive
      rcases hdone with hsettled | ⟨tasks, hp, hjoined⟩
      · exact htracked.settled ht hsettled j hlive
      -- every task has been heard of, so none waits for a prewrite
      obtain ⟨task, htask, hcall⟩ := (htracked.tasks ht hp).live hlive
      rw [(htracked.tasks ht hp).idle htask (hjoined task htask)] at hcall
      cases hcall
    | next hp _ hcalls =>
      rw [hcalls] at hlive
      exact h.quiet ht (remaining_of_rollingBack hp) j hlive

include hgroups honce

theorem Cleaning.todo_step (ht' : t' ∈ S'.txns) (hrem : t'.remaining = some todo)
    (hlock : (S'.maps cfg).lock k t'.startTs = some f) : k ∈ todo := by
  -- it had these keys left before the step
  have hwas : ∀ {t}, t ∈ S.txns → t'.startTs = t.startTs → t.remaining = some todo → k ∈ todo := by
    intro t ht hs hrem
    rw [hs] at hlock
    exact h.todo ht hrem (hmove.lock_old hS (h.quiet ht hrem) hlock)
  cases hmove.txn_from hS ht' with
  | old hold => exact hwas hold rfl hrem
  | fresh _ heq => subst heq; cases hrem
  | aborted hold heq => subst heq; exact hwas hold rfl hrem
  | @moved i t htxn ht htmove hkept =>
    cases htmove.turn (hS.shaped ht) h htxn hrem with
    | same hrem => exact hwas ht hkept.startTs hrem
    | begun _ _ htodo =>
      have hold : ∃ f, (S.maps cfg).lock k t.startTs = some f := by
        rw [hkept.startTs, maps_congr htmove.shards] at hlock
        exact ⟨f, hlock⟩
      obtain ⟨u, hu, hs, hk⟩ := hgroups.lock hold.choose_spec
      obtain rfl := hS.stamped.eq_of_startTs hu ht hs
      rcases htodo with rfl | hactive
      · exact hk
      · rw [hgroups.active ht hactive] at hk
        cases hk
    | @next key j a hp hans =>
      obtain ⟨key', rest, call, hcons, hcall, -, hgone⟩ := h.asked ht hp
      obtain ⟨rfl, rfl⟩ := cons.inj hcons
      rw [hkept.startTs, maps_congr htmove.shards] at hlock
      rcases mem_cons.1 (h.todo ht (remaining_of_rollingBack hp) hlock) with
        rfl | hrest
      · -- the key it has heard of: its lock is gone
        rw [answerOf, hcall] at hans
        obtain ⟨-, r, -, hresults⟩ := honce.answered (mem_of_getElem? hcall) hans
        rw [hgone (by simp [hresults])] at hlock
        cases hlock
      · exact hrest

omit hgroups honce in
theorem Cleaning.asked_step (ht' : t' ∈ S'.txns) (hp' : t'.phase = .rollingBack todo (some j)) :
    ∃ key rest call, todo = key :: rest ∧ S'.calls[j]? = some call ∧
      call.command = .rollback key t'.startTs ∧
      (call.results ≠ [] → (S'.maps cfg).lock key t'.startTs = none) := by
  -- it was waiting for this proposal already
  have hwas : ∀ {t}, t ∈ S.txns → t'.startTs = t.startTs → t.phase = .rollingBack todo (some j) →
      ∃ key rest call, todo = key :: rest ∧ S'.calls[j]? = some call ∧
        call.command = .rollback key t'.startTs ∧
        (call.results ≠ [] → (S'.maps cfg).lock key t'.startTs = none) := by
    intro t ht hs hp
    obtain ⟨key, rest, call, htodo, hcall, hcmd, hgone⟩ := h.asked ht hp
    obtain ⟨call', hcall', hupdate⟩ := hmove.call_next hS.placed hcall
    refine ⟨key, rest, call', htodo, hcall', hs ▸ hupdate.command.trans hcmd, fun hne => ?_⟩
    have hstays : call.results ≠ [] → (S'.maps cfg).lock key t'.startTs = none := by
      intro hne
      rcases hl : (S'.maps cfg).lock key t'.startTs with _ | f
      · rfl
      · rw [hs] at hl
        have hold := hmove.lock_old hS (h.quiet ht (remaining_of_rollingBack hp)) hl
        exact absurd (hold.symm.trans (hgone hne)) (by simp)
    cases hupdate with
    | applied _ _ he =>
      subst he
      rw [hs]
      exact hS.placed.rolledBack hmove hcall hcmd
    | _ => exact hstays hne
  cases hmove.txn_from hS ht' with
  | old hold => exact hwas hold rfl hp'
  | fresh _ heq => subst heq; cases hp'
  | aborted hold heq => subst heq; exact hwas hold rfl hp'
  | @moved i t htxn ht htmove hkept =>
    cases htmove with
    | addWrite | read | rollbackPending | rollbackCalled => exact hwas ht rfl hp'
    | @proposeRollback key rest hp =>
      obtain ⟨rfl, hj⟩ := Phase.rollingBack.inj hp'
      cases hj
      exact ⟨key, rest, _, rfl, getElem?_concat_length, rfl, fun hne => absurd rfl hne⟩
    | joinedLocked => exact absurd (locked_phase hp') (by simp)
    | _ => cases hp'

end Step

/-- Everything there is about runs in which every proposal is answered. -/
structure Tidied (cfg : Config) (S : System) : Prop where
  sound : Sound cfg S
  tracked : Tracked S
  truthful : Truthful cfg S
  once : Once S
  grouped : Grouped cfg S
  homed : Homed cfg S
  cleaning : Cleaning cfg S

theorem Tidied.init (cfg : Config) : Tidied cfg (init cfg) :=
  ⟨sound_init cfg, .init cfg, .init cfg, .init cfg, .init cfg, .init cfg, .init cfg⟩

/-- **Step.** -/
theorem Tidied.step (h : Tidied cfg S) (hans : Answered S e) (hstep : S.step cfg e = some S') :
    Tidied cfg S' := by
  have hmove := step_move hstep
  refine ⟨h.sound.step hstep, h.tracked.step h.sound hans.prompt hstep,
    h.truthful.step h.sound (hans.honest h.once) hstep, h.once.step h.sound hans hmove,
    h.grouped.step h.sound hmove, h.homed.step h.sound hmove, ?_⟩
  exact {
    quiet := fun ht hrem j => h.cleaning.quiet_step h.sound h.tracked hmove ht hrem j
    todo := fun ht hrem hlock =>
      h.cleaning.todo_step h.sound h.grouped h.once hmove ht hrem hlock
    asked := fun ht hp => h.cleaning.asked_step h.sound hmove ht hp }

/-- A transaction whose `commit` has returned `(False, None)` has no write record. -/
theorem Truthful.no_record (h : Truthful cfg S) (ht : t ∈ S.txns)
    (hover : Over t) : (S.maps cfg).record k c ≠ some t.startTs := by
  have hprimary : ∀ {c}, (S.maps cfg).record t.primaryKey c ≠ some t.startTs := by
    intro c hrec
    obtain ⟨call, hcall, hcmd, r, hr, hsucc⟩ := h.earned hrec
    rw [(h.refused ht hover call hcall c hcmd).2 r hr] at hsucc
    cases hsucc
  intro hrec
  obtain ⟨call, hcall, hcmd, -⟩ := h.earned hrec
  rcases h.backed hcall ht hcmd with rfl | hrec'
  · exact hprimary hrec
  · exact hprimary hrec'

/-- **A refused transaction leaves nothing**: in every run whose proposals are answered with what
the machine said, and in which no transaction is called again, when `commit` has returned
`(False, None)`, no shard has a lock or a write record of the transaction, and every version there
is was written by another one. -/
theorem refused_leaves_nothing (cfg : Config) (es : List Recalled.Event) (R : Recalled)
    (hans : Recalled.Along cfg (Recalled.Once Answered) (.init cfg) es)
    (hrun : Recalled.run cfg (.init cfg) es = some R)
    (t : Transaction) (ht : t ∈ R.system.txns) (hret : t.returned = some (false, none)) (n : ℕ)
    (k : Bytes) :
    (R.system.shards n).maps.lock k t.startTs = none ∧
      (∀ c, (R.system.shards n).maps.record k c ≠ some t.startTs) ∧
      ∀ c w, (R.system.shards n).maps.version k c = some w → ∃ u ∈ R.system.txns,
        u.startTs ≠ t.startTs ∧ u.commitTs = some c ∧
          (R.system.shards n).maps.record k c = some u.startTs := by
  have h := Recalled.invariant (fun _ _ _ hP hI hstep => Tidied.step hI hP hstep) (Tidied.init cfg)
    hans hrun
  obtain ⟨S, hS⟩ : ∃ S, S = R.system := ⟨_, rfl⟩
  rw [← hS] at h ht ⊢
  by_cases hn : cfg.shardOf k = n
  · subst hn
    refine ⟨?_, fun c hrec => h.truthful.no_record ht (.inr hret) hrec, fun c w hver => ?_⟩
    · have hrem := remaining_of_refused (h.sound.shaped ht) hret
      rcases hl : (S.shards (cfg.shardOf k)).maps.lock k t.startTs with _ | f
      · rfl
      · exact absurd (h.cleaning.todo ht hrem hl) not_mem_nil
    · obtain ⟨s, v, p, hrec, -⟩ := h.sound.owned.version hver
      obtain ⟨u, hu, rfl, hc, -⟩ := h.sound.owned.record hrec
      exact ⟨u, hu, fun heq => h.truthful.no_record ht (.inr hret) (heq ▸ hrec), hc, hrec⟩
  · obtain ⟨hversion, hrecord, hlock⟩ := h.homed n k hn
    refine ⟨hlock _, fun c => by rw [hrecord c]; simp, fun c w hver => ?_⟩
    rw [hversion c] at hver
    cases hver

/-- A transaction reads a key that another one then commits, locks its own key, and fails its
validation. -/
def validationConflict : List Event :=
  [.begin 0, .read 0 [3], .addWrite 0 [1] [7], .begin 0, .addWrite 1 [3] [8], .start 1 true,
    .proposePrewrite 1 0] ++ asked 0 ++
  [.prewriteAnswered 1 0, .joined 1, .lockTaken 1, .proposePrimary 1] ++ asked 1 ++
  [.primaryAnswered 1, .start 0 true, .proposePrewrite 0 0] ++ asked 2 ++
  [.prewriteAnswered 0 0, .joined 0, .lockTaken 0, .validateKey 0, .proposeRollback 0] ++ asked 3 ++
  [.rollbackAnswered 0, .rolledBack 0]

theorem refused_leaves_nothing_conflict :
    ∃ R, Recalled.run oneShard (.init oneShard) (validationConflict.map .step) = some R ∧
      ∃ t ∈ R.system.txns, t.returned = some (false, none) ∧ ([1], [7]) ∈ t.keys ∧
        (R.system.shards 0).maps.lock [1] t.startTs = none ∧
        ∀ c, (R.system.shards 0).maps.record [1] c ≠ some t.startTs := by
  have hans : Recalled.Along oneShard (Recalled.Once Answered) (.init oneShard)
      (validationConflict.map .step) := by decide +kernel
  refine Transition.exists_run (p := fun R => ∃ t ∈ R.system.txns,
    t.returned = some (false, none) ∧ ([1], [7]) ∈ t.keys) (by decide +kernel)
    fun R hrun ⟨t, ht, hret, hrow⟩ => ?_
  obtain ⟨hlock, hrecord, -⟩ :=
    refused_leaves_nothing oneShard _ R hans hrun t ht hret 0 [1]
  exact ⟨t, ht, hret, hrow, hlock, hrecord⟩

/-- What the machine says to a second `PREWRITE` of the key. -/
def heldAnswer : ApplyResult :=
  (apply 0 (apply 0 empty (.prewrite [1] [7] 1 [1])).1 (.prewrite [1] [7] 1 [1])).2

/-- `commit` is called again while the first call prewrites: the second is refused by the lock of the
first, which goes on and commits. -/
def calledTwice : List Recalled.Event :=
  let before : List Event := [.begin 0, .addWrite 0 [1] [7], .start 0 true]
  let after : List Event := [.start 1 true, .proposePrewrite 0 0] ++ asked 0 ++
    [.proposePrewrite 1 0, .ask 1, .applyEntry 1 0, .answer 1 (.result heldAnswer),
      .prewriteAnswered 1 0, .joined 1, .prewriteAnswered 0 0, .joined 0, .lockTaken 0,
      .proposePrimary 0] ++ asked 2 ++
    [.primaryAnswered 0, .proposeRollback 1] ++ asked 3 ++ [.rollbackAnswered 1, .rolledBack 1]
  before.map .step ++ .again 0 :: after.map .step

/-- **A second call is refused and the transaction commits**: every proposal is answered with what
the machine said, a `commit` of the transaction has returned `(False, None)`, and its key has the
version and the write record. -/
theorem second_call_denies_commit :
    Recalled.Along oneShard (Recalled.Meets Answered True) (.init oneShard) calledTwice ∧
    ∃ R, Recalled.run oneShard (.init oneShard) calledTwice = some R ∧
      ∃ t ∈ R.system.txns, t.returned = some (false, none) ∧ t.groups ≠ [] ∧
        (R.system.shards 0).maps.record [1] 2 = some t.startTs ∧
        (R.system.shards 0).maps.version [1] 2 = some (some [7]) :=
  ⟨by decide +kernel, Transition.exists_of_any (by decide +kernel)⟩

end System
end OxideDB.Txn
