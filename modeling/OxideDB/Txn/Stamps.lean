import OxideDB.Txn.Keyspace

/-!
# Transactions and their timestamps

A transaction's phase says much about the rest of it, and no two transactions share a
timestamp.  This holds in every state of every run, whatever fails.

* `Shaped` — what a transaction's phase says about the rest of it; `TxnMove.txns`.
-/

namespace OxideDB.Txn

open Raft (Bytes)
open Storage MVCCStateMachine List Function Transaction

variable {k : Bytes} {row : Bytes × Bytes} {cfg : Config} {groups : Groups}
  {keys : List (Bytes × Bytes)} {l : List Transaction} {task task' : ShardTask} {t : Transaction}
  {g : ℕ × List (Bytes × Bytes)}

/-! ## One transaction -/

/-- What later steps keep of a transaction. -/
structure Kept (t t' : Transaction) : Prop where
  coordinator : t'.coordinator = t.coordinator
  startTs : t'.startTs = t.startTs
  keys : t.keys <+: t'.keys
  commitTs {c : ℤ} (h : t.commitTs = some c) : t'.commitTs = some c

namespace Kept

variable {t t' : Transaction}

theorem refl (t : Transaction) : Kept t t := ⟨rfl, rfl, prefix_rfl, id⟩

variable (h : Kept t t')
include h

theorem mem_keys (hrow : row ∈ t.keys) : row ∈ t'.keys :=
  h.keys.subset hrow

theorem mem_map_keys (hk : k ∈ t.keys.map Prod.fst) : k ∈ t'.keys.map Prod.fst :=
  (h.keys.map Prod.fst).subset hk

theorem keys_ne_nil (hne : t.keys ≠ []) : t'.keys ≠ [] :=
  fun heq => hne (prefix_nil.1 (heq ▸ h.keys))

/-- The primary key is the first that was added. -/
theorem primaryKey (hne : t.keys ≠ []) : t'.primaryKey = t.primaryKey := by
  obtain ⟨rest, hrest⟩ := h.keys
  rw [Transaction.primaryKey, Transaction.primaryKey, ← hrest, head?_append_of_ne_nil _ hne]

end Kept

theorem ne_nil_of_mem_map (hk : k ∈ t.keys.map Prod.fst) :
    t.keys ≠ [] := fun heq => by simp [heq] at hk

theorem primaryKey_mem (hne : t.keys ≠ []) : t.primaryKey ∈ t.keys.map Prod.fst := by
  obtain ⟨row, rest, hkeys⟩ := exists_cons_of_ne_nil hne
  simp [primaryKey, hkeys]

/-- What a transaction's phase says about the rest of it. -/
def Transaction.PhaseShape (t : Transaction) : Prop :=
  match t.phase with
  | .active => t.commitTs = none ∧ t.returned = none
  | .prewriting tasks => t.commitTs = none ∧ t.keys ≠ [] ∧ t.returned = none ∧
    (∀ task ∈ tasks, ∀ row ∈ task.todo, row ∈ t.keys) ∧
    tasks.Pairwise fun a b => a.shard ≠ b.shard
  | .prewritten | .awaitingLock | .validating _ =>
    t.commitTs = none ∧ t.keys ≠ [] ∧ t.returned = none
  | .committing _ => t.commitTs.isSome ∧ t.keys ≠ [] ∧ t.returned = none
  | .rollingBack _ _ => t.keys ≠ [] ∧ t.returned = none
  | .committed secondaries =>
    t.keys = [] ∧ t.status ≠ .pending ∧ secondaries = [] ∧ t.commitTs = some t.startTs ∧
      t.returned = some (true, some t.startTs) ∨
    t.keys ≠ [] ∧ t.commitTs.isSome ∧ t.returned = some (true, t.commitTs) ∧
      ∀ k ∈ secondaries, k ≠ t.primaryKey ∧ k ∈ t.keys.map Prod.fst
  | .closed => t.keys ≠ [] ∧ (t.returned = none ∨ t.returned = some (false, none))

structure Transaction.Shaped (t : Transaction) : Prop where
  groups {k : Bytes} (h : k ∈ t.groups.keys) : k ∈ t.keys.map Prod.fst
  phase : t.PhaseShape

variable {shard : ℕ}

theorem mem_addToGroup {row' : Bytes × Bytes} (hg : g ∈ addToGroup shard row groups)
    (hrow : row' ∈ g.2) : row' = row ∨ ∃ g' ∈ groups, row' ∈ g'.2 := by
  induction groups with
  | nil =>
    obtain rfl := mem_singleton.1 hg
    exact .inl (mem_singleton.1 hrow)
  | cons g₀ groups ih =>
    simp only [addToGroup] at hg
    split at hg
    · rcases mem_cons.1 hg with rfl | hg
      · rcases mem_append.1 hrow with hrow | hrow
        · exact .inr ⟨g₀, mem_cons_self, hrow⟩
        · exact .inl (mem_singleton.1 hrow)
      · exact .inr ⟨g, mem_cons_of_mem _ hg, hrow⟩
    · rcases mem_cons.1 hg with rfl | hg
      · exact .inr ⟨g₀, mem_cons_self, hrow⟩
      · rcases ih hg with h | ⟨g', hg', h⟩
        · exact .inl h
        · exact .inr ⟨g', mem_cons_of_mem _ hg', h⟩

variable {row : Bytes × Bytes}

/-- The rows of the groups are the transaction's. -/
theorem mem_of_mem_group (hg : g ∈ groupKeysByShard cfg keys) (hrow : row ∈ g.2) : row ∈ keys := by
  induction keys using reverseRecOn generalizing g with
  | nil => cases hg
  | append_singleton keys last ih =>
    rw [groupKeysByShard, foldl_append] at hg
    rcases mem_addToGroup hg hrow with rfl | ⟨g', hg', h⟩
    · exact mem_append_right _ (mem_singleton_self _)
    · exact mem_append_left _ (ih hg' h)

theorem mem_keys_of_mem_groups (h : k ∈ (groupKeysByShard cfg keys).keys) :
    k ∈ keys.map Prod.fst := by
  obtain ⟨g, hg, hk⟩ := mem_flatMap.1 h
  obtain ⟨row, hrow, rfl⟩ := mem_map.1 hk
  exact mem_map_of_mem (mem_of_mem_group hg hrow)

theorem addToGroup_shards {n : ℕ} (h : n ∈ (addToGroup shard row groups).map Prod.fst) :
    n = shard ∨ n ∈ groups.map Prod.fst := by
  induction groups with
  | nil => exact .inl (by simpa [addToGroup] using h)
  | cons g groups ih =>
    simp only [addToGroup] at h
    split at h
    · exact .inr h
    · rcases mem_cons.1 h with rfl | h
      · exact .inr mem_cons_self
      · exact (ih h).imp_right (mem_cons_of_mem _)

theorem addToGroup_nodup (h : (groups.map Prod.fst).Nodup) :
    ((addToGroup shard row groups).map Prod.fst).Nodup := by
  induction groups with
  | nil => simp [addToGroup]
  | cons g groups ih =>
    obtain ⟨hg, hrest⟩ := nodup_cons.1 h
    simp only [addToGroup]
    split
    · exact h
    rename_i hne
    refine nodup_cons.2 ⟨fun hmem => ?_, ih hrest⟩
    rcases addToGroup_shards hmem with heq | hmem
    · exact hne heq
    · exact hg hmem

theorem groupKeysByShard_nodup (cfg : Config) (keys : List (Bytes × Bytes)) :
    ((groupKeysByShard cfg keys).map Prod.fst).Nodup := by
  induction keys using reverseRecOn with
  | nil => exact nodup_nil
  | append_singleton keys row ih =>
    rw [groupKeysByShard, foldl_append]
    exact addToGroup_nodup ih

variable {tasks : List ShardTask}

theorem mem_setTask (h : task' ∈ setTask tasks task) : task' = task ∨ task' ∈ tasks := by
  obtain ⟨task₀, hmem, rfl⟩ := mem_map.1 h
  split
  · exact .inl rfl
  · exact .inr hmem

/-- The shards of the tasks stay as they are. -/
theorem setTask_shards (h : tasks.Pairwise fun a b => a.shard ≠ b.shard) (task : ShardTask) :
    (setTask tasks task).Pairwise fun a b => a.shard ≠ b.shard := by
  have hshards : ∀ task', (if task'.shard = task.shard then task else task').shard =
      task'.shard := fun task' => by
    split
    · exact Eq.symm ‹_›
    · rfl
  rw [setTask, pairwise_map]
  simp only [hshards]
  exact h

theorem eq_of_shard (h : tasks.Pairwise fun a b => a.shard ≠ b.shard) (hmem : task ∈ tasks)
    (hmem' : task' ∈ tasks) (hs : task.shard = task'.shard) : task = task' := by
  by_contra hne
  have hpair := pairwise_iff_get.1 h
  obtain ⟨n, rfl⟩ := get_of_mem hmem
  obtain ⟨m, rfl⟩ := get_of_mem hmem'
  rcases lt_trichotomy n m with hlt | heq | hlt
  · exact hpair n m hlt hs
  · exact hne (by rw [heq])
  · exact hpair m n hlt hs.symm

theorem openTask_mem (h : openTask tasks shard = some task) :
    task ∈ tasks ∧ task.shard = shard ∧ task.verdict = none := by
  have hp := find?_some h
  rw [decide_eq_true_iff] at hp
  exact ⟨mem_of_find?_eq_some h, hp⟩

namespace ShardTask

variable {task : ShardTask} {a : Answer}

@[simp] theorem heard_shard : (task.heard a).shard = task.shard := by
  unfold heard; split <;> rfl

@[simp] theorem heard_call : (task.heard a).call = none := by
  unfold heard; split <;> rfl

theorem heard_todo : (task.heard a).todo = if a.success then task.todo.tail else task.todo := by
  unfold heard; split <;> rfl

/-- A task that has got through has nothing left. -/
theorem todo_of_heard (h : (task.heard a).verdict = some true) : (task.heard a).todo = [] := by
  unfold heard at h ⊢
  split at h
  · by_contra hne
    rename_i hsucc
    rw [if_pos hsucc] at hne
    simp only [if_neg hne] at h
    cases h
  · cases h

/-- What is left of a task is part of what there was. -/
theorem mem_heard (h : row ∈ (task.heard a).todo) : row ∈ task.todo := by
  rw [heard_todo] at h
  split at h
  · exact mem_of_mem_tail h
  · exact h

end ShardTask

namespace Transaction

variable {t : Transaction} {cfg : Config}

theorem locked_phase {phase : Phase} (h : t.locked.phase = phase) :
    phase = .awaitingLock ∨ phase = .prewritten := by
  subst h
  unfold locked
  cases t.viaCommit <;> simp

theorem addWrite_kept (key value : Bytes) :
    Kept t { t with keys := t.keys ++ [(key, value)] } :=
  ⟨rfl, rfl, prefix_append _ _, id⟩

theorem addWrite_shaped (h : t.Shaped) (hstatus : t.status = .pending) (key value : Bytes) :
    { t with keys := t.keys ++ [(key, value)] }.Shaped := by
  have hkept := addWrite_kept (t := t) key value
  have hmap : ∀ {k}, k ∈ t.keys.map Prod.fst → k ∈ (t.keys ++ [(key, value)]).map Prod.fst :=
    fun hk => by rw [map_append]; exact mem_append_left _ hk
  refine ⟨fun hk => hmap (h.groups hk), ?_⟩
  have hphase := h.phase
  unfold PhaseShape at hphase ⊢
  cases hp : t.phase with
  | active => simpa only [hp] using hphase
  | prewriting tasks =>
    simp only [hp] at hphase ⊢
    obtain ⟨hc, hk, hr, hrows, hshards⟩ := hphase
    exact ⟨hc, hkept.keys_ne_nil hk, hr, fun task ht row hrow =>
      hkept.mem_keys (hrows task ht row hrow), hshards⟩
  | rollingBack | closed =>
    simp only [hp] at hphase ⊢
    exact ⟨hkept.keys_ne_nil hphase.1, hphase.2⟩
  | committed secondaries =>
    simp only [hp] at hphase ⊢
    rcases hphase with ⟨-, hpending, -⟩ | ⟨hk, hc, hr, hsecs⟩
    · exact absurd hstatus hpending
    · refine .inr ⟨hkept.keys_ne_nil hk, hc, hr, fun k hmem => ⟨fun heq => ?_, ?_⟩⟩
      · exact (hsecs k hmem).1 (heq.trans (hkept.primaryKey hk))
      · exact hmap (hsecs k hmem).2
  | _ =>
    simp only [hp] at hphase ⊢
    exact ⟨hphase.1, hkept.keys_ne_nil hphase.2.1, hphase.2.2⟩

end Transaction

namespace System

variable {cfg : Config} {S S' : System} {e : Event} {i : ℕ} {t t' : Transaction}

/-- **A step of a transaction** keeps what `Kept` lists, and the shape. -/
theorem TxnMove.kept (ht : t.Shaped) (h : TxnMove cfg S i t e t' S') : Kept t t' ∧ t'.Shaped := by
  have hphase := ht.phase
  unfold Transaction.PhaseShape at hphase
  cases h with
  | addWrite hstatus =>
    exact ⟨addWrite_kept _ _, addWrite_shaped ht hstatus _ _⟩
  | read => exact ⟨⟨rfl, rfl, prefix_rfl, id⟩, ⟨ht.groups, ht.phase⟩⟩
  | startEmpty hstatus hp hkeys =>
    simp only [hp] at hphase
    refine ⟨⟨rfl, rfl, prefix_rfl, fun hc => ?_⟩, ⟨ht.groups, ?_⟩⟩
    · rw [hphase.1] at hc; cases hc
    · exact .inl ⟨hkeys, by simp [committedEmpty], rfl, rfl, rfl⟩
  | start hstatus hp hkeys =>
    simp only [hp] at hphase
    refine ⟨⟨rfl, rfl, prefix_rfl, id⟩, ⟨mem_keys_of_mem_groups, ?_⟩⟩
    refine ⟨hphase.1, hkeys, hphase.2, fun task htask row hrow => ?_, ?_⟩
    · obtain ⟨g, hg, rfl⟩ := mem_map.1 htask
      exact mem_of_mem_group hg hrow
    have hnodup := groupKeysByShard_nodup cfg t.keys
    rw [List.Nodup, pairwise_map] at hnodup
    rw [pairwise_map]
    exact hnodup
  | startRefused hstatus hp hkeys =>
    simp only [hp] at hphase
    refine ⟨⟨rfl, rfl, prefix_rfl, id⟩, ⟨ht.groups, hkeys, ?_⟩⟩
    show (if _ then _ else _) = _ ∨ (if _ then _ else _) = _
    split
    · exact .inr rfl
    · exact .inl hphase.2
  | proposePrewrite hp htask htodo hcall =>
    simp only [hp] at hphase
    obtain ⟨hc, hk, hr, hrows, hshards⟩ := hphase
    refine ⟨⟨rfl, rfl, prefix_rfl, id⟩, ⟨ht.groups, hc, hk, hr, ?_, ?_⟩⟩
    · intro task' hmem row hrow
      rcases mem_setTask hmem with rfl | hold
      · exact hrows _ (openTask_mem htask).1 row (by rw [htodo]; exact hrow)
      · exact hrows task' hold row hrow
    · exact setTask_shards hshards _
  | prewriteAnswered hp htask hcall hans =>
    simp only [hp] at hphase
    obtain ⟨hc, hk, hr, hrows, hshards⟩ := hphase
    refine ⟨⟨rfl, rfl, prefix_rfl, id⟩, ⟨ht.groups, hc, hk, hr, ?_, ?_⟩⟩
    · intro task' hmem row hrow
      rcases mem_setTask hmem with rfl | hold
      · exact hrows _ (openTask_mem htask).1 row (ShardTask.mem_heard hrow)
      · exact hrows task' hold row hrow
    · exact setTask_shards hshards _
  | joinedLocked hp hall =>
    simp only [hp] at hphase
    refine ⟨⟨rfl, rfl, prefix_rfl, id⟩, ⟨ht.groups, ?_⟩⟩
    unfold Transaction.PhaseShape locked
    cases t.viaCommit <;> exact ⟨hphase.1, hphase.2.1, hphase.2.2.1⟩
  | joinedFailed hp =>
    simp only [hp] at hphase
    exact ⟨⟨rfl, rfl, prefix_rfl, id⟩, ⟨ht.groups, hphase.2.1, hphase.2.2.1⟩⟩
  | lockTaken hp =>
    simp only [hp] at hphase
    exact ⟨⟨rfl, rfl, prefix_rfl, id⟩, ⟨ht.groups, hphase⟩⟩
  | validated hp =>
    simp only [hp] at hphase
    exact ⟨⟨rfl, rfl, prefix_rfl, id⟩, ⟨ht.groups, hphase⟩⟩
  | conflict _ hp =>
    simp only [hp] at hphase
    exact ⟨⟨rfl, rfl, prefix_rfl, id⟩, ⟨ht.groups, hphase.2⟩⟩
  | proposePrimary hp =>
    simp only [hp] at hphase
    refine ⟨⟨rfl, rfl, prefix_rfl, fun hc => ?_⟩, ⟨ht.groups, rfl, hphase.2⟩⟩
    rw [hphase.1] at hc; cases hc
  | primaryRefused hp =>
    simp only [hp] at hphase
    refine ⟨⟨rfl, rfl, prefix_rfl, fun hc => ?_⟩, ⟨ht.groups, hphase.2⟩⟩
    rw [hphase.1] at hc; cases hc
  | primaryCommitted hp hans hsucc =>
    simp only [hp] at hphase
    refine ⟨⟨rfl, rfl, prefix_rfl, id⟩, ⟨ht.groups, ?_⟩⟩
    refine .inr ⟨hphase.2.1, hphase.1, rfl, fun k hk => ?_⟩
    obtain ⟨hmem, hne⟩ := mem_filter.1 hk
    exact ⟨of_decide_eq_true hne, ht.groups hmem⟩
  | primaryFailed hp =>
    simp only [hp] at hphase
    exact ⟨⟨rfl, rfl, prefix_rfl, id⟩, ⟨ht.groups, hphase.2⟩⟩
  | proposeRollback hp | rollbackAnswered hp =>
    simp only [hp] at hphase
    exact ⟨⟨rfl, rfl, prefix_rfl, id⟩, ⟨ht.groups, hphase⟩⟩
  | rolledBack hp =>
    simp only [hp] at hphase
    refine ⟨⟨rfl, rfl, prefix_rfl, id⟩, ⟨ht.groups, hphase.1, ?_⟩⟩
    show (if _ then _ else _) = _ ∨ (if _ then _ else _) = _
    split
    · exact .inr rfl
    · exact .inl hphase.2
  | proposeSecondary hp hcommit hkey =>
    simp only [hp] at hphase
    refine ⟨⟨rfl, rfl, prefix_rfl, id⟩, ⟨ht.groups, ?_⟩⟩
    rcases hphase with ⟨-, -, rfl, -⟩ | ⟨hk, hc, hr, hsecs⟩
    · cases hkey
    · exact .inr ⟨hk, hc, hr, fun k hmem => hsecs k (mem_of_mem_erase hmem)⟩
  | closed _ hactive hcommitted =>
    refine ⟨⟨rfl, rfl, prefix_rfl, id⟩, ⟨ht.groups, ?_⟩⟩
    show t.keys ≠ [] ∧ (t.returned = none ∨ t.returned = some (false, none))
    cases hp : t.phase with
    | active => exact absurd hp hactive
    | committed ks => exact absurd hp (hcommitted ks)
    | prewriting => simp only [hp] at hphase; exact ⟨hphase.2.1, .inl hphase.2.2.1⟩
    | rollingBack => simp only [hp] at hphase; exact ⟨hphase.1, .inl hphase.2⟩
    | closed => simp only [hp] at hphase; exact hphase
    | _ =>
      simp only [hp] at hphase; exact ⟨hphase.2.1, .inl hphase.2.2⟩
  | rollbackPending hstatus =>
    refine ⟨⟨rfl, rfl, prefix_rfl, id⟩, ⟨ht.groups, ?_⟩⟩
    cases hp : t.phase with
    | committed =>
      simp only [hp] at hphase ⊢
      rcases hphase with ⟨-, hpending, -⟩ | hphase
      · exact absurd hstatus hpending
      · exact .inr hphase
    | _ => simp only [hp] at hphase ⊢; exact hphase
  | rollbackCalled => exact ⟨Kept.refl _, ht⟩

end System

/-! ## Timestamps -/

/-- The timestamps a transaction was given. -/
def Transaction.Stamp (t : Transaction) (x : ℤ) : Prop := t.startTs = x ∨ t.commitTs = some x

namespace System

variable {cfg : Config} {S S' : System} {e : Event} {i : ℕ} {t t' : Transaction}

/-- What the client of a coordinator has handed out. -/
def Used (S : System) (c n : ℕ) : Prop := ∃ t ∈ S.txns, t.coordinator = c ∧ t.Stamp n

/-- The timestamps come from one counter, each drawn once. -/
structure Stamped (S : System) : Prop where
  batch (c : ℕ) : 1 ≤ (S.clocks c).batchSize
  allotment : Allotment S.group.currentTs (fun c => (S.clocks c).Holds) S.Used
  natural {t : Transaction} {x : ℤ} (ht : t ∈ S.txns) (hx : t.Stamp x) : ∃ n : ℕ, x = n
  unique {i j : ℕ} {t u : Transaction} {x : ℤ} (ht : S.txns[i]? = some t)
    (hu : S.txns[j]? = some u) (hx : t.Stamp x) (hx' : u.Stamp x) : i = j
  order {t : Transaction} {c : ℤ} (ht : t ∈ S.txns) (hc : t.commitTs = some c)
    (hkeys : t.keys ≠ []) : t.startTs < c

namespace Stamped

theorem init (cfg : Config) : Stamped (init cfg) where
  batch c := cfg.batch_pos c
  allotment := (Allotment.nothing 0).mono
    (fun c n hn => by
      have := hn.1.trans_lt hn.2
      simp [System.init] at this)
    (fun c n ⟨t, ht, _⟩ => by cases ht)
  natural ht := by cases ht
  unique ht := by cases ht
  order ht := by cases ht

/-- The number a client hands out is nobody's yet. -/
theorem draw (h : Stamped S) (c : ℕ) : ∃ n : ℕ, (S.draw c).1 = n ∧ 1 ≤ n ∧
    (∀ c', ¬ S.Used c' n) ∧ (∀ m, S.Used c m → m < n) ∧
    Allotment (S.draw c).2.group.currentTs (fun c' => ((S.draw c).2.clocks c').Holds)
      (fun c' m => S.Used c' m ∨ c' = c ∧ m = n) ∧
    ∀ c', 1 ≤ ((S.draw c).2.clocks c').batchSize := by
  obtain ⟨hall, hfresh, hpos, habove⟩ := Tso.TSOClient.getTimestamp_allotment (h.batch c) h.allotment
  refine ⟨_, rfl, hpos, hfresh, habove, hall, fun c' => ?_⟩
  show 1 ≤ (update S.clocks c ((S.clocks c).getTimestamp S.group).2.1 c').batchSize
  by_cases hc : c' = c
  · subst hc
    rw [update_self, Tso.TSOClient.getTimestamp_batchSize]
    exact h.batch c'
  · rw [update_of_ne hc]
    exact h.batch c'

section

variable (h : Stamped S) (htxn : S.txns[i]? = some t) (hS : S'.txns = S.txns.set i t')
include h htxn hS

/-- A transaction is given the numbers `new`, which nobody had. -/
theorem set (hcoord : t'.coordinator = t.coordinator) (new : ℕ → Prop)
    (hstamp : ∀ x, t'.Stamp x → t.Stamp x ∨ ∃ n, new n ∧ x = n)
    (hfresh : ∀ n c', new n → ¬ S.Used c' n)
    (hall : Allotment S'.group.currentTs (fun c => (S'.clocks c).Holds)
      fun c m => S.Used c m ∨ c = t.coordinator ∧ new m) (hbatch : ∀ c, 1 ≤ (S'.clocks c).batchSize)
    (horder : ∀ c, t'.commitTs = some c → t'.keys ≠ [] → t'.startTs < c) : Stamped S' := by
  have hmem : ∀ {u}, u ∈ S'.txns → u = t' ∨ u ∈ S.txns := fun {u} hu => by
    rw [hS] at hu
    exact (mem_or_eq_of_mem_set hu).symm
  have hti : t ∈ S.txns := mem_of_getElem? htxn
  have hused : ∀ c n, S'.Used c n → S.Used c n ∨ c = t.coordinator ∧ new n := by
    rintro c n ⟨u, hu, hc, hx⟩
    rcases hmem hu with rfl | hu
    · rcases hstamp _ hx with hx | ⟨m, hnew, hm⟩
      · exact .inl ⟨t, hti, hcoord.symm.trans hc, hx⟩
      · obtain rfl : n = m := by exact_mod_cast hm
        exact .inr ⟨hc.symm.trans hcoord, hnew⟩
    · exact .inl ⟨u, hu, hc, hx⟩
  -- a new number is at no other transaction
  have hapart : ∀ {j u x}, S.txns[j]? = some u → u.Stamp x → t'.Stamp x → i = j := by
    intro j u x hu hx hx'
    rcases hstamp x hx' with hold | ⟨n, hnew, rfl⟩
    · exact h.unique htxn hu hold hx
    · exact absurd ⟨u, mem_of_getElem? hu, rfl, hx⟩ (hfresh n _ hnew)
  refine ⟨hbatch, hall.mono (fun _ _ => id) hused, fun {u x} hu hx => ?_,
    fun {j₁ j₂ u₁ u₂ x} hu₁ hu₂ hx₁ hx₂ => ?_, fun {u c} hu hc hk => ?_⟩
  · rcases hmem hu with rfl | hu
    · rcases hstamp x hx with hx | ⟨n, -, rfl⟩
      · exact h.natural hti hx
      · exact ⟨n, rfl⟩
    · exact h.natural hu hx
  · rw [hS] at hu₁ hu₂
    rcases getElem?_set_eq_some hu₁ with ⟨rfl, rfl⟩ | ⟨-, hold₁⟩ <;>
      rcases getElem?_set_eq_some hu₂ with ⟨rfl, rfl⟩ | ⟨-, hold₂⟩
    · rfl
    · exact hapart hold₂ hx₂ hx₁
    · exact (hapart hold₁ hx₁ hx₂).symm
    · exact h.unique hold₁ hold₂ hx₁ hx₂
  · rcases hmem hu with rfl | hu
    · exact horder c hc hk
    · exact h.order hu hc hk

theorem keep (hkept : Kept t t') (hstamp : ∀ x, t'.Stamp x → t.Stamp x)
    (hgroup : S'.group = S.group) (hclocks : S'.clocks = S.clocks)
    (horder : ∀ c, t'.commitTs = some c → t'.keys ≠ [] → t'.startTs < c) : Stamped S' := by
  refine h.set htxn hS hkept.coordinator (fun _ => False) (fun x hx => .inl (hstamp x hx))
    (fun _ _ => False.elim) ?_ (hclocks ▸ h.batch) horder
  rw [hgroup, hclocks]
  exact h.allotment.mono (fun _ _ => id) fun c n hn => hn.resolve_right fun hn => hn.2

theorem drawn (hcoord : t'.coordinator = t.coordinator) (hstart : t'.startTs = t.startTs)
    (hcommit : t'.commitTs = some (S.draw t.coordinator).1)
    (hgroup : S'.group = (S.draw t.coordinator).2.group)
    (hclocks : S'.clocks = (S.draw t.coordinator).2.clocks) : Stamped S' := by
  obtain ⟨n, hn, -, hfresh, habove, hall, hbatch⟩ := h.draw t.coordinator
  have hlt : t.startTs < n := by
    obtain ⟨m, hm⟩ := h.natural (mem_of_getElem? htxn) (.inl rfl)
    have := habove m ⟨t, mem_of_getElem? htxn, rfl, .inl hm⟩
    rw [hm]
    exact_mod_cast this
  refine h.set htxn hS hcoord (· = n) (fun x hx => ?_) (fun m c' hm => hm ▸ hfresh c') ?_
    (hclocks ▸ hbatch) fun c hc _ => ?_
  · rcases hx with hx | hx
    · exact .inl (.inl (hstart.symm.trans hx))
    · rw [hcommit, hn] at hx
      exact .inr ⟨n, rfl, (Option.some.inj hx).symm⟩
  · rw [hgroup, hclocks]
    exact hall
  · rw [hcommit, hn] at hc
    rw [hstart, ← Option.some.inj hc]
    exact hlt

end

theorem begin (h : Stamped S) (c : ℕ)
    (hS : S'.txns = S.txns ++ [{ coordinator := c, startTs := (S.draw c).1 }])
    (hgroup : S'.group = (S.draw c).2.group) (hclocks : S'.clocks = (S.draw c).2.clocks) :
    Stamped S' := by
  obtain ⟨n, hn, -, hfresh, -, hall, hbatch⟩ := h.draw c
  have hmem : ∀ {u}, u ∈ S'.txns → u ∈ S.txns ∨ u = { coordinator := c, startTs := (n : ℤ) } := by
    intro u hu
    rw [hS, hn] at hu
    simpa using hu
  have hget : ∀ {j u}, S'.txns[j]? = some u → S.txns[j]? = some u ∨
      j = S.txns.length ∧ u = { coordinator := c, startTs := (n : ℤ) } := by
    intro j u hu
    rw [hS, hn, getElem?_append] at hu
    split at hu
    · exact .inl hu
    rename_i hlt
    obtain ⟨hj, hu⟩ := List.getElem?_eq_some_iff.1 hu
    simp only [length_singleton] at hj
    refine .inr ⟨by omega, ?_⟩
    simpa using hu.symm
  have hstamp : ∀ {x}, ({ coordinator := c, startTs := (n : ℤ) } : Transaction).Stamp x → x = n :=
    fun hx => hx.elim Eq.symm nofun
  have hapart : ∀ {j : ℕ} {u : Transaction} {x : ℤ}, S.txns[j]? = some u → u.Stamp x → x ≠ n :=
    fun hu hx heq => hfresh _ ⟨_, mem_of_getElem? hu, rfl, heq ▸ hx⟩
  refine ⟨hclocks ▸ hbatch, ?_, fun {u x} hu hx => ?_,
    fun {j₁ j₂ u₁ u₂ x} hu₁ hu₂ hx₁ hx₂ => ?_, fun {u c'} hu hc hk => ?_⟩
  · rw [hgroup, hclocks]
    refine hall.mono (fun _ _ => id) ?_
    rintro c' m ⟨u, hu, hc, hx⟩
    rcases hmem hu with hu | rfl
    · exact .inl ⟨u, hu, hc, hx⟩
    · exact .inr ⟨hc.symm, by exact_mod_cast hstamp hx⟩
  · rcases hmem hu with hu | rfl
    · exact h.natural hu hx
    · exact ⟨n, hstamp hx⟩
  · rcases hget hu₁ with hold₁ | ⟨rfl, rfl⟩ <;> rcases hget hu₂ with hold₂ | ⟨rfl, rfl⟩
    · exact h.unique hold₁ hold₂ hx₁ hx₂
    · exact absurd (hstamp hx₂) (hapart hold₁ hx₁)
    · exact absurd (hstamp hx₁) (hapart hold₂ hx₂)
    · rfl
  · rcases hmem hu with hu | rfl
    · exact h.order hu hc hk
    · cases hc

end Stamped

/-- Where nothing has been written, a commit timestamp is the start timestamp. -/
theorem keys_ne_nil_of_commitTs {c : ℤ} (ht : t.Shaped) (hstatus : t.status = .pending)
    (hc : t.commitTs = some c) : t.keys ≠ [] := by
  have hphase := ht.phase
  unfold Transaction.PhaseShape at hphase
  cases hp : t.phase with
  | active => simp [hp, hc] at hphase
  | committing => simp only [hp] at hphase; exact hphase.2.1
  | rollingBack | closed => simp only [hp] at hphase; exact hphase.1
  | committed =>
    simp only [hp] at hphase
    rcases hphase with ⟨-, hpending, -⟩ | hphase
    · exact absurd hstatus hpending
    · exact hphase.1
  | _ => simp [hp, hc] at hphase

/-- A step of a transaction gives it no timestamp, or a commit timestamp that is drawn. -/
theorem TxnMove.stamps (ht : t.Shaped) (h : TxnMove cfg S i t e t' S') :
    S'.group = S.group ∧ S'.clocks = S.clocks ∧ (∀ x, t'.Stamp x → t.Stamp x) ∧
        (∀ c, t'.commitTs = some c → t'.keys ≠ [] → t.commitTs = some c ∧ t.keys ≠ []) ∨
      S'.group = (S.draw t.coordinator).2.group ∧ S'.clocks = (S.draw t.coordinator).2.clocks ∧
        t'.commitTs = some (S.draw t.coordinator).1 := by
  cases h with
  | addWrite hstatus =>
    exact .inl ⟨rfl, rfl, fun _ => id, fun c hc _ => ⟨hc, keys_ne_nil_of_commitTs ht hstatus hc⟩⟩
  | startEmpty hstatus hp hkeys =>
    refine .inl ⟨rfl, rfl, fun x hx => ?_, fun c _ hk => absurd hkeys hk⟩
    rcases hx with hx | hx
    · exact .inl hx
    · exact .inl (Option.some.inj hx)
  | proposePrimary | primaryRefused => exact .inr ⟨rfl, rfl, rfl⟩
  | primaryCommitted | rolledBack | closed =>
    exact .inl ⟨unlock_group, unlock_clocks, fun _ => id, fun _ hc hk => ⟨hc, hk⟩⟩
  | _ => exact .inl ⟨rfl, rfl, fun _ => id, fun _ hc hk => ⟨hc, hk⟩⟩

theorem Stamped.fetch (h : Stamped S) (c : ℕ) : Stamped (S.fetch c) := by
  refine ⟨fun c' => ?_, Tso.TSOClient.fetched_allotment h.allotment c, h.natural, h.unique,
    h.order⟩
  show 1 ≤ (update S.clocks c _ c').batchSize
  by_cases hc : c' = c
  · subst hc
    rw [update_self]
    exact h.batch c'
  · rw [update_of_ne hc]
    exact h.batch c'

/-- No two tasks of a transaction are of one shard. -/
theorem task_shards (ht : t.Shaped) (hp : t.phase = .prewriting tasks) :
    tasks.Pairwise fun a b => a.shard ≠ b.shard := by
  have hphase := ht.phase
  simp only [Transaction.PhaseShape, hp] at hphase
  exact hphase.2.2.2.2

theorem set_self (htxn : l[i]? = some t) : l.set i t = l := by
  obtain ⟨hlt, rfl⟩ := List.getElem?_eq_some_iff.1 htxn
  simp

/-- **Step.** -/
theorem Stamped.step (h : Stamped S) (hshaped : ∀ t ∈ S.txns, t.Shaped)
    (hmove : Move cfg S e S') : Stamped S' := by
  cases hmove with
  | begin => exact h.begin _ rfl rfl rfl
  | fetch => exact h.fetch _
  | txn htxn hmove =>
    have ht := hshaped _ (mem_of_getElem? htxn)
    have hset := hmove.txns htxn
    obtain ⟨hkept, -⟩ := hmove.kept ht
    rcases hmove.stamps ht with ⟨hgroup, hclocks, hstamp, hold⟩ | ⟨hgroup, hclocks, hcommit⟩
    · refine h.keep htxn hset hkept hstamp hgroup hclocks fun c hc hk => ?_
      rw [hkept.startTs]
      exact h.order (mem_of_getElem? htxn) (hold c hc hk).1 (hold c hc hk).2
    · exact h.drawn htxn hset hkept.coordinator hkept.startTs hcommit hgroup hclocks
  | cleanupDone htxn =>
    refine h.keep htxn rfl ⟨rfl, rfl, prefix_rfl, id⟩ (fun _ => id) rfl rfl fun c hc hk => ?_
    have horder := h.order (mem_of_getElem? htxn) hc hk
    exact horder
  | _ =>
    exact ⟨h.batch, h.allotment, h.natural, h.unique, h.order⟩

end System
end OxideDB.Txn
