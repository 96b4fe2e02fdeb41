import OxideDB.Txn.Ownership

/-!
# The threads that prewrite

`_prewrite_all_shards` gives each shard a thread that gets through its rows one after the
other.  So a row of the transaction is still with its thread, or its prewrite has been
answered with success.
-/

namespace OxideDB.Txn

open Raft (Bytes)
open Storage MVCCStateMachine List Transaction

variable {row : Bytes × Bytes} {shard : ℕ}

namespace System

variable {cfg : Config} {S S' : System} {e : Event} {i j : ℕ} {t t' : Transaction} {c : ℤ}

/-- Nothing is written to a transaction that is being committed. -/
def WritesEarly (S : System) : Event → Prop
  | .addWrite i _ _ => ∀ t ∈ S.txns[i]?, t.phase = .active
  | _ => True

/-- Where nothing is written to a transaction that is being committed, only an active
transaction gets another key. -/
theorem Move.keys (hS : Sound cfg S) (hearly : WritesEarly S e) (hmove : Move cfg S e S')
    (ht : t ∈ S.txns) (ht' : t' ∈ S'.txns) (hs : t'.startTs = t.startTs)
    (hactive : t.phase ≠ .active) : t'.keys = t.keys := by
  cases hmove.txn_step hS ht ht' hs with
  | same | aborted => rfl
  | moved htxn hmove =>
    cases hmove with
    | addWrite => exact absurd (hearly t htxn) hactive
    | _ =>
      rfl

theorem not_active_of_commitTs (ht : t.Shaped) (hc : t.commitTs = some c) : t.phase ≠ .active := by
  intro hp
  have hphase := ht.phase
  simp only [Transaction.PhaseShape, hp, hc] at hphase
  cases hphase.1

/-! ## The groups of a transaction -/

theorem mem_addToGroup_self (shard : ℕ) (row : Bytes × Bytes) (groups : Groups) :
    ∃ g ∈ addToGroup shard row groups, row ∈ g.2 := by
  induction groups with
  | nil => exact ⟨_, mem_cons_self, mem_cons_self⟩
  | cons g groups ih =>
    simp only [addToGroup]
    split
    · exact ⟨_, mem_cons_self, mem_append_right _ mem_cons_self⟩
    · obtain ⟨g', hg', hrow⟩ := ih
      exact ⟨g', mem_cons_of_mem _ hg', hrow⟩

theorem mem_addToGroup_of_mem {row' : Bytes × Bytes} {groups : Groups}
    {g : ℕ × List (Bytes × Bytes)} (hg : g ∈ groups) (hrow : row' ∈ g.2) :
    ∃ g' ∈ addToGroup shard row groups, row' ∈ g'.2 := by
  induction groups with
  | nil => cases hg
  | cons g₀ groups ih =>
    simp only [addToGroup]
    rcases mem_cons.1 hg with rfl | hg
    · split
      · exact ⟨_, mem_cons_self, mem_append_left _ hrow⟩
      · exact ⟨g, mem_cons_self, hrow⟩
    · split
      · exact ⟨g, mem_cons_of_mem _ hg, hrow⟩
      · obtain ⟨g', hg', hrow'⟩ := ih hg
        exact ⟨g', mem_cons_of_mem _ hg', hrow'⟩

/-- Every row of the transaction is in a group. -/
theorem exists_group_of_mem {keys : List (Bytes × Bytes)} (h : row ∈ keys) :
    ∃ g ∈ groupKeysByShard cfg keys, row ∈ g.2 := by
  induction keys using reverseRecOn with
  | nil => cases h
  | append_singleton keys last ih =>
    rw [groupKeysByShard, foldl_append]
    rcases mem_append.1 h with hold | hnew
    · obtain ⟨g, hg, hrow⟩ := ih hold
      exact mem_addToGroup_of_mem hg hrow
    · obtain rfl := mem_singleton.1 hnew
      exact mem_addToGroup_self _ _ _

/-! ## The tasks -/

/-- The tasks of a transaction that is being prewritten, where the rows they have got through
meet `ok`. -/
structure TasksOk (S : System) (t : Transaction) (ok : Bytes × Bytes → Prop)
    (tasks : List ShardTask) : Prop where
  row {row : Bytes × Bytes} (h : row ∈ t.keys) : (∃ task ∈ tasks, row ∈ task.todo) ∨ ok row
  done {task : ShardTask} (h : task ∈ tasks) (hv : task.verdict = some true) : task.todo = []
  call {task : ShardTask} {j : ℕ} (h : task ∈ tasks) (hj : task.call = some j) :
    ∃ call k v rest, task.todo = (k, v) :: rest ∧ S.calls[j]? = some call ∧
      call.command = .prewrite k v t.startTs t.primaryKey

namespace TasksOk

variable {ok ok' : Bytes × Bytes → Prop} {tasks : List ShardTask}

/-- Once every task has got through, every row is as it should be. -/
theorem all_ok (h : TasksOk S t ok tasks) (hall : ∀ task ∈ tasks, task.verdict = some true)
    (hrow : row ∈ t.keys) : ok row := by
  refine (h.row hrow).resolve_left ?_
  rintro ⟨task, htask, htodo⟩
  rw [h.done htask (hall task htask)] at htodo
  cases htodo

theorem mono (h : TasksOk S t ok tasks) (hok : ∀ row ∈ t.keys, ok row → ok' row)
    (hcalls : CallsMove cfg S S'.calls) (hkeys : t'.keys = t.keys)
    (hstart : t'.startTs = t.startTs) : TasksOk S' t' ok' tasks := by
  have hpk : t'.primaryKey = t.primaryKey := by
    rw [primaryKey, hkeys, primaryKey]
  refine ⟨fun {row} hrow => ?_, h.done, fun {task j} htask hj => ?_⟩
  · rw [hkeys] at hrow
    exact (h.row hrow).imp_right (hok row hrow)
  · obtain ⟨call, k, v, rest, htodo, hcall, hcmd⟩ := h.call htask hj
    obtain ⟨call', hcall', hcmd'⟩ := hcalls.getElem? hcall
    exact ⟨call', k, v, rest, htodo, hcall', by rw [hcmd', hcmd, hstart, hpk]⟩

theorem started (t : Transaction) (via : Bool) :
    TasksOk S (t.started cfg via) ok
      ((groupKeysByShard cfg t.keys).map fun g => { shard := g.1, todo := g.2 }) := by
  refine ⟨fun {row} hrow => ?_, fun {task} htask hv => ?_, fun {task j} htask hj => ?_⟩
  · obtain ⟨g, hg, hmem⟩ := exists_group_of_mem hrow
    exact .inl ⟨_, mem_map_of_mem hg, hmem⟩
  · obtain ⟨g, -, rfl⟩ := mem_map.1 htask
    cases hv
  · obtain ⟨g, -, rfl⟩ := mem_map.1 htask
    cases hj

/-- A task goes on: what it has got through is as it should be. -/
theorem replace {task new : ShardTask} (h : TasksOk S t ok tasks)
    (hshards : tasks.Pairwise fun a b => a.shard ≠ b.shard)
    (htask : openTask tasks shard = some task) (hshard : new.shard = shard)
    (hrow : ∀ row ∈ task.todo, row ∈ new.todo ∨ ok row)
    (hdone : new.verdict = some true → new.todo = [])
    (hcall : ∀ j, new.call = some j → ∃ call k v rest, new.todo = (k, v) :: rest ∧
      S.calls[j]? = some call ∧ call.command = .prewrite k v t.startTs t.primaryKey) :
    TasksOk S t ok (setTask tasks new) := by
  obtain ⟨hmem, htshard, -⟩ := openTask_mem htask
  have hnew : new ∈ setTask tasks new := by
    refine mem_map.2 ⟨task, hmem, if_pos ?_⟩
    rw [htshard, hshard]
  refine ⟨fun {row} hr => ?_, fun {task'} hmem' hv => ?_, fun {task' j} hmem' hj => ?_⟩
  · rcases h.row hr with ⟨task', hmem', htodo⟩ | hok
    · by_cases hs : task'.shard = shard
      · rw [eq_of_shard hshards hmem' hmem (hs.trans htshard.symm)] at htodo
        rcases hrow row htodo with hin | hok
        · exact .inl ⟨new, hnew, hin⟩
        · exact .inr hok
      · refine .inl ⟨task', mem_map.2 ⟨task', hmem', if_neg ?_⟩, htodo⟩
        rwa [hshard]
    · exact .inr hok
  · rcases mem_setTask hmem' with rfl | hold
    · exact hdone hv
    · exact h.done hold hv
  · rcases mem_setTask hmem' with rfl | hold
    · exact hcall j hj
    · exact h.call hold hj

end TasksOk

/-- **A step keeps the tasks in order**, if the rows they have got through stay as they should
be and a row whose prewrite is heard to have succeeded is. -/
theorem Move.tasks_step (hS : Sound cfg S) (hmove : Move cfg S e S')
    (ok : System → Transaction → Bytes × Bytes → Prop)
    (h : ∀ t ∈ S.txns, ∀ tasks, t.phase = .prewriting tasks → TasksOk S t (ok S t) tasks)
    {tasks : List ShardTask} (ht' : t' ∈ S'.txns) (hphase : t'.phase = .prewriting tasks)
    (hkeep : ∀ t ∈ S.txns, ∀ tasks, t.phase = .prewriting tasks → t'.startTs = t.startTs →
      t'.keys = t.keys ∧ ∀ row ∈ t.keys, ok S t row → ok S' t' row)
    (hheard : ∀ call ∈ S'.calls, ∀ k v,
      call.command = .prewrite k v t'.startTs t'.primaryKey → ∀ a, call.answer = some a →
        a.success = true → ok S' t' (k, v)) :
    TasksOk S' t' (ok S' t') tasks := by
  -- the tasks of a transaction that is being prewritten, before its own step
  have hsame : ∀ {t tasks}, t ∈ S.txns → t'.startTs = t.startTs → t.phase = .prewriting tasks →
      TasksOk S' t' (ok S' t') tasks := by
    intro t tasks ht hs hp
    obtain ⟨hkeys, hok⟩ := hkeep t ht tasks hp hs
    exact (h t ht tasks hp).mono hok hmove.calls hkeys hs
  cases hmove.txn_from hS ht' with
  | old hold => exact hsame hold rfl hphase
  | fresh _ heq => subst heq; cases hphase
  | aborted hold heq =>
    subst heq
    exact hsame hold rfl hphase
  | @moved i t htxn ht htmove hkept =>
    cases htmove with
    | addWrite | read | rollbackPending | rollbackCalled => exact hsame ht rfl hphase
    | start hstatus hp hkeys =>
      obtain rfl := Phase.prewriting.inj hphase
      exact TasksOk.started t _
    | @proposePrewrite shard tasks₀ task key value rest hp htask htodo hcall =>
      have hbefore := hsame ht hkept.startTs hp
      obtain rfl := Phase.prewriting.inj hphase
      refine hbefore.replace (task_shards (hS.shaped ht) hp) htask rfl
        (fun row hrow => .inl (htodo ▸ hrow)) nofun fun j hj => ?_
      cases hj
      exact ⟨_, key, value, rest, rfl, getElem?_concat_length, rfl⟩
    | @prewriteAnswered shard j tasks₀ task a hp htask hcall hans =>
      have hbefore := hsame ht hkept.startTs hp
      obtain rfl := Phase.prewriting.inj hphase
      obtain ⟨hmem, htshard, -⟩ := openTask_mem htask
      obtain ⟨call, k, v, rest, htodo, hcall', hcmd⟩ := hbefore.call hmem hcall
      have hans : S.calls[j]?.bind (·.answer) = some a := hans
      rw [show S.calls[j]? = some call from hcall', Option.bind_some] at hans
      refine hbefore.replace (task_shards (hS.shaped ht) hp) htask
        (ShardTask.heard_shard.trans htshard) (fun row hrow => ?_)
        ShardTask.todo_of_heard fun j' hj' => ?_
      · rw [ShardTask.heard_todo]
        split
        · -- the row that was asked for has been prewritten
          rename_i hsucc
          rw [htodo] at hrow ⊢
          rcases mem_cons.1 hrow with rfl | hrest
          · exact .inr (hheard call (mem_of_getElem? hcall') k v hcmd a hans hsucc)
          · exact .inl hrest
        · exact .inl hrow
      · rw [ShardTask.heard_call] at hj'
        cases hj'
    | joinedLocked => exact absurd (locked_phase hphase) (by simp)
    | _ => cases hphase

end System
end OxideDB.Txn
