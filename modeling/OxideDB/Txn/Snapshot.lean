import OxideDB.Storage.Snapshot
import OxideDB.Txn.Ownership

/-!
# Reads that repeat

A transaction reads at its start timestamp.  What it reads stays, if whoever commits below
that timestamp had all its locks in place when the transaction began: the reader meets the
lock, or the version.  Locks are in place when the commit timestamp is drawn, so it is enough
that a commit timestamp is above every start timestamp there is.
-/

namespace OxideDB.Txn

open Raft (Bytes ApplyResult)
open Storage MVCCStateMachine List

variable {r : ApplyResult} {call : Call} {calls : List Call} {tasks : List ShardTask} {now : Time}

/-- The call has not begun with its prewrites, or is through with them. -/
def Transaction.Settled (t : Transaction) : Prop :=
  t.phase = .active ∨ t.phase = .awaitingLock ∨ (∃ todo, t.phase = .validating todo) ∨
    t.commitTs ≠ none

/-- While the prewrites go on there is no commit timestamp. -/
theorem Transaction.Settled.not_prewriting {t t' : Transaction} {tasks' : List ShardTask}
    (hdone : t'.Settled) (ht : t.Shaped) (hp : t.phase = .prewriting tasks)
    (hp' : t'.phase = .prewriting tasks') (hc : t'.commitTs = t.commitTs) : False := by
  have hshape := ht.phase
  simp only [Transaction.PhaseShape, hp] at hshape
  simp [Transaction.Settled, hp', hc, hshape.1] at hdone

/-- A version changes only where a lock is committed. -/
theorem Effect.version_eq {M M' : Maps} {cmd : Command} {k : Bytes} {c : ℤ}
    (h : Effect now M cmd M' r) (hno : ∀ s f, cmd = .commit k s c → M.lock k s ≠ some f) :
    M'.version k c = M.version k c := by
  cases h with
  | committed hlock =>
    rw [Maps.setLock_version, Maps.putRecord_version, Maps.putVersion_version, if_neg]
    rintro ⟨rfl, rfl⟩
    exact hno _ _ rfl hlock
  | _ => rfl

namespace System

/-- Nothing fails, as far as it matters here: a coordinator hears of a prewrite when no entry
of it is left to be applied. -/
def Prompt (S : System) : Event → Prop
  | .answer j _ => ∀ call ∈ S.calls[j]?, call.command.type = .prewrite → call.pending = 0
  | _ => True

/-- A commit timestamp comes from a fresh run, or from the rest of one that lies above every
start timestamp. -/
def Current (S : System) : Event → Prop
  | .proposePrimary i => ∀ t ∈ S.txns[i]?, (S.clocks t.coordinator).exhausted = false →
    ∀ u ∈ S.txns, u.startTs < (S.clocks t.coordinator).localStart
  | .primaryRefused i => ∀ t ∈ S.txns[i]?, (S.clocks t.coordinator).exhausted = false →
    ∀ u ∈ S.txns, u.startTs < (S.clocks t.coordinator).localStart
  | _ => True

instance (S : System) (e : Event) : Decidable (Prompt S e) := by
  induction e using Event.casesOn <;> dsimp only [Prompt] <;> infer_instance

instance (S : System) (e : Event) : Decidable (Current S e) := by
  induction e using Event.casesOn <;> dsimp only [Current] <;> infer_instance

variable {cfg : Config} {S S' : System} {e : Event} {i j : ℕ} {t t' u : Transaction}
  {k : Bytes} {s c : ℤ}

/-! ## Commit timestamps are above the start timestamps -/

theorem Stamped.draw_above (h : Stamped S) (n : ℕ)
    (hcur : (S.clocks n).exhausted = false → ∀ u ∈ S.txns, u.startTs < (S.clocks n).localStart)
    (ht : t ∈ S.txns) : t.startTs < (S.draw n).1 := by
  obtain ⟨m, hm⟩ := h.natural ht (.inl rfl)
  have hdraw : (S.draw n).1 = ((S.clocks n).getTimestamp S.group).1 := rfl
  rw [hdraw]
  cases hex : (S.clocks n).exhausted with
  | true =>
    have hle := h.allotment.used_le ⟨t, ht, rfl, .inl hm⟩
    rw [Tso.TSOClient.getTimestamp_exhausted hex, hm]
    show (m : ℤ) < ((S.group.currentTs + 1 : ℕ) : ℤ)
    omega
  | false =>
    rw [Tso.TSOClient.getTimestamp_cached hex]
    exact hcur hex t ht

/-- A commit timestamp was there before, or is above every start timestamp. -/
theorem Move.commitTs_from (hS : Sound cfg S) (hcur : Current S e) (hmove : Move cfg S e S')
    (ht' : t' ∈ S'.txns) (hc : t'.commitTs = some c) (hkeys : t'.keys ≠ []) :
    (∃ t ∈ S.txns, t.startTs = t'.startTs ∧ t.commitTs = some c) ∨ ∀ u ∈ S.txns, u.startTs < c := by
  cases hmove.txn_from hS ht' with
  | old hold => exact .inl ⟨t', hold, rfl, hc⟩
  | fresh _ h => subst h; cases hc
  | aborted hold h => subst h; exact .inl ⟨_, hold, rfl, hc⟩
  | @moved i t htxn ht htmove hkept =>
    have hsame : t.commitTs = some c →
        ∃ t ∈ S.txns, t.startTs = t'.startTs ∧ t.commitTs = some c :=
      fun h => ⟨t, ht, hkept.startTs.symm, h⟩
    cases htmove with
    | startEmpty _ _ hk =>
      exact absurd hk hkeys
    | proposePrimary | primaryRefused =>
      cases hc
      exact .inr fun u hu => hS.stamped.draw_above _ (hcur t htxn) hu
    | _ => exact .inl (hsame hc)

/-! ## The prewrites in flight -/

/-- Proposal `j` is a prewrite of the transaction, and may still be applied. -/
def LivePrewrite (calls : List Call) (s : ℤ) (j : ℕ) : Prop :=
  ∃ call, calls[j]? = some call ∧ call.live = true ∧ call.command.type = .prewrite ∧
    call.command.startTs = some s

/-- The tasks wait for the prewrites in flight. -/
structure TasksLive (calls : List Call) (s : ℤ) (tasks : List ShardTask) : Prop where
  idle {task : ShardTask} (h : task ∈ tasks) (hv : task.verdict ≠ none) : task.call = none
  live {j : ℕ} (h : LivePrewrite calls s j) : ∃ task ∈ tasks, task.call = some j

/-- Where the prewrites of the transactions are. -/
structure Tracked (S : System) : Prop where
  answered {call : Call} (h : call ∈ S.calls) (htype : call.command.type = .prewrite)
    (ha : call.answer ≠ none) : call.pending = 0
  settled {t : Transaction} (h : t ∈ S.txns) (ht : t.Settled) (j : ℕ) :
    ¬ LivePrewrite S.calls t.startTs j
  tasks {t : Transaction} {tasks : List ShardTask} (h : t ∈ S.txns)
    (hp : t.phase = .prewriting tasks) : TasksLive S.calls t.startTs tasks

theorem Tracked.init (cfg : Config) : Tracked (init cfg) where
  answered h := by cases h
  settled h := by cases h
  tasks h := by cases h

theorem LivePrewrite.concat (h : LivePrewrite (calls ++ [call]) s j)
    (htype : call.command.type ≠ .prewrite) : LivePrewrite calls s j := by
  obtain ⟨call', hcall, hrest⟩ := h
  rcases getElem?_concat hcall with hold | ⟨-, rfl⟩
  · exact ⟨call', hold, hrest⟩
  · exact absurd hrest.2.1 htype

/-- A prewrite in flight was in flight before, or its transaction has proposed it. -/
theorem Move.livePrewrite (hS : Sound cfg S) (hmove : Move cfg S e S')
    (h : LivePrewrite S'.calls s j) :
    LivePrewrite S.calls s j ∨
      ∃ i t t', S.txns[i]? = some t ∧ TxnMove cfg S i t e t' S' ∧ t.startTs = s := by
  obtain ⟨call', hcall', hlive, htype, hs⟩ := h
  rcases hmove.call hS.placed hcall' with ⟨call₀, hcall, hupdate⟩ | ⟨shard, cmd, -, rfl, -, hwho⟩
  · have hold : call₀.live = true → LivePrewrite S.calls s j := fun hlive₀ =>
      ⟨call₀, hcall, hlive₀, hupdate.command ▸ htype, hupdate.command ▸ hs⟩
    refine .inl (hold ?_)
    cases hupdate with
    | same => exact hlive
    | asked hopen | answered _ hopen => simp [Call.live, hopen]
    | applied hpending => simp [Call.live, hpending]
  · obtain ⟨i, t, t', htxn, htmove, hts⟩ := hwho htype
    exact .inr ⟨i, t, t', htxn, htmove, Option.some.inj (hts.symm.trans hs)⟩

/-- The prewrites of a transaction that does not move. -/
theorem Move.livePrewrite_of_still (hS : Sound cfg S) (hmove : Move cfg S e S')
    (hstill : ∀ i t t', S.txns[i]? = some t → TxnMove cfg S i t e t' S' → t.startTs ≠ s)
    (h : LivePrewrite S'.calls s j) : LivePrewrite S.calls s j :=
  (hmove.livePrewrite hS h).resolve_right fun ⟨i, t, t', htxn, htmove, hs⟩ =>
    hstill i t t' htxn htmove hs

theorem Tracked.answered_step (hS : Sound cfg S) (h : Tracked S) (hprompt : Prompt S e)
    (hmove : Move cfg S e S') (hcall : call ∈ S'.calls) (htype : call.command.type = .prewrite)
    (ha : call.answer ≠ none) : call.pending = 0 := by
  obtain ⟨j, hj⟩ := getElem?_of_mem hcall
  rcases hmove.call hS.placed hj with ⟨call₀, hcall₀, hupdate⟩ | ⟨shard, cmd, -, rfl, -⟩
  · have hmem := mem_of_getElem? hcall₀
    cases hupdate with
    | same => exact h.answered hmem htype ha
    | asked hopen => exact absurd hopen ha
    | applied =>
      have hzero := h.answered hmem htype ha
      simp [Call.applied, hzero]
    | answered he hopen =>
      subst he
      exact hprompt call₀ hcall₀ htype
  · exact absurd rfl ha

theorem TasksLive.started (t : Transaction) (hnone : ∀ j, ¬ LivePrewrite calls s j) :
    TasksLive calls s ((groupKeysByShard cfg t.keys).map fun g => { shard := g.1, todo := g.2 }) where
  idle htask _ := by
    obtain ⟨g, -, rfl⟩ := mem_map.1 htask
    rfl
  live hlive := absurd hlive (hnone _)

/-- A task goes on: it waits for the proposal it waited for, or that one is over. -/
theorem TasksLive.replace {calls' : List Call} {shard : ℕ} {task new : ShardTask}
    (h : TasksLive calls s tasks) (hshards : tasks.Pairwise fun a b => a.shard ≠ b.shard)
    (htask : openTask tasks shard = some task) (hshard : new.shard = shard)
    (hidle : new.verdict ≠ none → new.call = none)
    (hlive : ∀ j, LivePrewrite calls' s j →
      new.call = some j ∨ LivePrewrite calls s j ∧ task.call ≠ some j) :
    TasksLive calls' s (setTask tasks new) := by
  obtain ⟨hmem, htshard, -⟩ := openTask_mem htask
  refine ⟨fun {task'} hmem' hv => ?_, fun {j} hj => ?_⟩
  · rcases mem_setTask hmem' with rfl | hold
    · exact hidle hv
    · exact h.idle hold hv
  · rcases hlive j hj with hnew | ⟨hold, hne⟩
    · refine ⟨new, mem_map.2 ⟨task, hmem, if_pos ?_⟩, hnew⟩
      rw [htshard, hshard]
    obtain ⟨task', hmem', hcall⟩ := h.live hold
    refine ⟨task', mem_map.2 ⟨task', hmem', if_neg fun hs => hne ?_⟩, hcall⟩
    rw [eq_of_shard hshards hmem hmem' (htshard.trans (hshard.symm.trans hs.symm))]
    exact hcall

/-- A prewrite in flight is of a transaction. -/
theorem LivePrewrite.owner (hS : Sound cfg S) (h : LivePrewrite S.calls s j) :
    ∃ t ∈ S.txns, t.startTs = s := by
  obtain ⟨call, hcall, -, htype, hs⟩ := h
  have hown := hS.owned.command (mem_of_getElem? hcall)
  generalize call.command = cmd at hown htype hs
  cases hown with
  | prewrite hw =>
    obtain ⟨t, ht, hts, -⟩ := hw
    exact ⟨t, ht, hts.trans (Option.some.inj hs)⟩
  | commit | rollback => cases htype

section Step

variable (hS : Sound cfg S) (h : Tracked S) (hmove : Move cfg S e S')

include hS h hmove

theorem Tracked.settled_step (ht' : t' ∈ S'.txns) (hdone : t'.Settled) (j : ℕ) :
    ¬ LivePrewrite S'.calls t'.startTs j := by
  intro hlive
  cases hmove.txn_from hS ht' with
  | old hold hother =>
    exact h.settled hold hdone j (hmove.livePrewrite_of_still hS hother hlive)
  | fresh hnew heq =>
    subst heq
    rcases hmove.livePrewrite hS hlive with hlive | ⟨i, t, _, htxn, -, hs⟩
    · obtain ⟨t, ht, hs⟩ := hlive.owner hS
      exact hnew t ht hs
    · exact hnew t (mem_of_getElem? htxn) hs
  | aborted hold heq hquiet =>
    subst heq
    exact h.settled hold hdone j
      (hmove.livePrewrite_of_still hS (fun i t u _ hmove => absurd hmove (hquiet i t u)) hlive)
  | @moved i t htxn ht htmove hkept =>
    rw [hkept.startTs] at hlive
    -- once it has its commit timestamp, or is in none of the phases named
    have hstamp : t'.phase ≠ .active → t'.phase ≠ .awaitingLock →
        (∀ todo, t'.phase ≠ .validating todo) → t'.commitTs = t.commitTs →
        ∀ j, ¬ LivePrewrite S.calls t.startTs j := by
      intro hactive hawait hvalid hc
      refine h.settled ht (.inr (.inr (.inr ?_)))
      rcases hdone with hp | hp | ⟨todo, hp⟩ | hp
      · exact absurd hp hactive
      · exact absurd hp hawait
      · exact absurd hp (hvalid todo)
      · exact hc ▸ hp
    cases htmove with
    | addWrite | read | rollbackPending | rollbackCalled => exact h.settled ht hdone j hlive
    | startEmpty _ hp | start _ hp | startRefused _ hp => exact h.settled ht (.inl hp) j hlive
    | lockTaken hp => exact h.settled ht (.inr (.inl hp)) j hlive
    | validated hp | conflict _ hp | primaryRefused hp =>
      exact h.settled ht (.inr (.inr (.inl ⟨_, hp⟩))) j hlive
    | proposePrimary hp =>
      exact h.settled ht (.inr (.inr (.inl ⟨_, hp⟩))) j (hlive.concat nofun)
    | proposePrewrite hp | prewriteAnswered hp =>
      exact hdone.not_prewriting (hS.shaped ht) hp rfl rfl
    | joinedLocked hp hall =>
      obtain ⟨task, htask, hcall⟩ := (h.tasks ht hp).live hlive
      rw [(h.tasks ht hp).idle htask (by simp [hall task htask])] at hcall
      cases hcall
    | proposeRollback | proposeSecondary =>
      exact hstamp nofun nofun nofun rfl j
        (hlive.concat nofun)
    | primaryCommitted | rolledBack | closed =>
      rw [unlock_calls] at hlive
      exact hstamp nofun nofun nofun rfl j hlive
    | _ => exact hstamp nofun nofun nofun rfl j hlive

theorem Tracked.tasks_step (ht' : t' ∈ S'.txns) (hphase : t'.phase = .prewriting tasks) :
    TasksLive S'.calls t'.startTs tasks := by
  -- a transaction that does not move
  have hstill : ∀ {t}, t ∈ S.txns → t.phase = .prewriting tasks → t.startTs = t'.startTs →
      (∀ j, LivePrewrite S'.calls t'.startTs j → LivePrewrite S.calls t'.startTs j) →
      TasksLive S'.calls t'.startTs tasks := by
    intro t ht hp hs hlive
    have htasks := h.tasks ht hp
    rw [hs] at htasks
    exact ⟨htasks.idle, fun {j} hj => htasks.live (hlive j hj)⟩
  cases hmove.txn_from hS ht' with
  | old hold hother =>
    exact hstill hold hphase rfl fun j => hmove.livePrewrite_of_still hS hother
  | fresh _ heq => subst heq; cases hphase
  | aborted hold heq hquiet =>
    subst heq
    exact hstill hold hphase rfl fun j =>
      hmove.livePrewrite_of_still hS fun i t u _ hmove => absurd hmove (hquiet i t u)
  | @moved i t htxn ht htmove hkept =>
    cases htmove with
    | addWrite | read | rollbackPending | rollbackCalled => exact hstill ht hphase rfl fun j => id
    | start hstatus hp hkeys =>
      obtain rfl := Phase.prewriting.inj hphase
      have hnone := h.settled ht (.inl hp)
      exact TasksLive.started t hnone
    | @proposePrewrite shard tasks₀ task key value rest hp htask htodo hcall =>
      obtain rfl := Phase.prewriting.inj hphase
      refine (h.tasks ht hp).replace (task_shards (hS.shaped ht) hp) htask rfl
        (fun hv => absurd rfl hv) fun j hj => ?_
      obtain ⟨call, hget, hrest⟩ := hj
      rcases getElem?_concat hget with hold | ⟨rfl, -⟩
      · exact .inr ⟨⟨call, hold, hrest⟩, by simp [hcall]⟩
      · exact .inl rfl
    | @prewriteAnswered shard j₀ tasks₀ task a hp htask hcall hans =>
      obtain rfl := Phase.prewriting.inj hphase
      obtain ⟨hmem, htshard, -⟩ := openTask_mem htask
      refine (h.tasks ht hp).replace (task_shards (hS.shaped ht) hp) htask
        (ShardTask.heard_shard.trans htshard) (fun _ => ShardTask.heard_call) fun j hj =>
        .inr ⟨hj, fun hwait => ?_⟩
      -- the proposal it waited for has been answered, so nothing of it is left
      obtain ⟨call, hget, hlive, htype, -⟩ := hj
      cases hcall.symm.trans hwait
      have hans : S.calls[j₀]?.bind (·.answer) = some a := hans
      rw [show S.calls[j₀]? = some call from hget, Option.bind_some] at hans
      have hzero := h.answered (mem_of_getElem? hget) htype (by simp [hans])
      simp [Call.live, hans, hzero] at hlive
    | joinedLocked => exact absurd (Transaction.locked_phase hphase) (by simp)
    | _ => cases hphase

end Step

/-- **Step.** -/
theorem Tracked.step (hS : Sound cfg S) (h : Tracked S) (hprompt : Prompt S e)
    (hstep : S.step cfg e = some S') : Tracked S' where
  answered hcall htype ha := h.answered_step hS hprompt (step_move hstep) hcall htype ha
  settled ht hdone := h.settled_step hS (step_move hstep) ht hdone
  tasks ht hphase := h.tasks_step hS (step_move hstep) ht hphase

/-! ## What has been read -/

/-- A snapshot of a key shows `v`, and whoever commits below it has no lock there. -/
structure Reading (cfg : Config) (S : System) (s : ℤ) (k : Bytes) (v : Option Bytes) : Prop where
  shown : (S.maps cfg).Shows k s v
  closed {u : Transaction} {c : ℤ} (hu : u ∈ S.txns) (hc : u.commitTs = some c) (hle : c ≤ s) :
    (S.maps cfg).lock k u.startTs = none

/-- A lock is of a transaction that writes its key. -/
theorem Sound.mem_keys_of_lock (hS : Sound cfg S) (ht : t ∈ S.txns) {f : LockFields}
    (hf : (S.maps cfg).lock k t.startTs = some f) : k ∈ t.keys.map Prod.fst := by
  obtain ⟨u, hu, hus, hrow, -⟩ := hS.owned.lock hf
  obtain rfl := hS.stamped.eq_of_startTs hu ht hus
  exact mem_map_of_mem hrow

theorem Reading.applied (hS : Sound cfg S) (h : Tracked S) {v : Option Bytes}
    (hcall : S.calls[j]? = some call) (hpending : 0 < call.pending)
    (heff : Effect now (S.maps cfg) call.command (S'.maps cfg) r) (htxns : S'.txns = S.txns)
    (hread : Reading cfg S s k v) : Reading cfg S' s k v := by
  have hown := hS.owned.command (mem_of_getElem? hcall)
  constructor
  · refine hread.shown.congr fun c hle => ?_
    -- whoever commits so low has no lock that could become a version
    refine heff.version_eq fun s₀ f hcmd hlock => ?_
    rw [hcmd] at hown
    cases hown with
    | commit hcommits =>
      obtain ⟨t, ht, hs, hc, -⟩ := hcommits
      rw [← hs, hread.closed ht hc hle] at hlock
      cases hlock
  · intro u c hu hc hle
    rw [htxns] at hu
    rcases hl : (S'.maps cfg).lock k u.startTs with _ | f
    · rfl
    rcases heff.lock_of hl with hold | ⟨p, v, hcmd, -⟩
    · rw [hread.closed hu hc hle] at hold
      cases hold
    · have hlive : LivePrewrite S.calls u.startTs j :=
        ⟨call, hcall, by simp [Call.live, hpending], by rw [hcmd]; rfl, by rw [hcmd]; rfl⟩
      exact absurd hlive (h.settled hu (.inr (.inr (.inr (by simp [hc])))) j)

theorem Reading.move (hS : Sound cfg S) (hS' : Sound cfg S') (h : Tracked S) (hcur : Current S e)
    (hmove : Move cfg S e S') (ht : t ∈ S.txns) {v : Option Bytes}
    (hread : Reading cfg S t.startTs k v) : Reading cfg S' t.startTs k v := by
  rcases hmove.shards with ⟨j, now, rfl⟩ | hshards
  · obtain ⟨call, r, hcall, hpending, heff, -, htxns, -⟩ := hS.placed.effect hmove
    exact hread.applied hS h hcall hpending heff htxns
  · have hmaps : S'.maps cfg = S.maps cfg :=
      maps_congr hshards
    refine ⟨hmaps ▸ hread.shown, fun {u c} hu hc hle => ?_⟩
    rcases hl : (S'.maps cfg).lock k u.startTs with _ | f
    · rfl
    -- a commit timestamp that is new is above the reader's
    have hkeys := ne_nil_of_mem_map (hS'.mem_keys_of_lock hu hl)
    rcases hmove.commitTs_from hS hcur hu hc hkeys with ⟨u₀, hu₀, hs, hc₀⟩ | habove
    · rw [hmaps, ← hs, hread.closed hu₀ hc₀ hle] at hl
      cases hl
    · exact absurd (habove t ht) (not_lt.2 hle)

/-- A read that is answered, of a key the transaction has not locked. -/
theorem Reading.of_get (hS : Sound cfg S) (ht : t ∈ S.txns) {r : ReadResult}
    (hget : (S.machineOf cfg k).get k (some t.startTs) = .ok r) (hsucc : r.success = true)
    (hfree : (S.maps cfg).lock k t.startTs = none) : Reading cfg S t.startTs k r.value := by
  obtain ⟨n, hn⟩ := hS.stamped.natural ht (.inl rfl)
  obtain ⟨hlocks, hvalue⟩ := get_shows (hS.placed.tidy _) (by omega) hget hsucc
  constructor
  · rcases hvalue with ⟨f, hf⟩ | hshown
    · exact absurd (hfree.symm.trans hf) (by simp)
    · exact hshown
  · intro u c hu hc hle
    rcases hl : (S.maps cfg).lock k u.startTs with _ | f
    · rfl
    · have hlt := hS.stamped.order hu hc (ne_nil_of_mem_map (hS.mem_keys_of_lock hu hl))
      have hge := hlocks _ f hl
      omega

/-- The reads of the transactions are of their snapshots, where `P` holds. -/
def Steady (cfg : Config) (P : Transaction → Bytes → Prop) (S : System) : Prop :=
  ∀ t ∈ S.txns, ∀ k v, (k, v) ∈ t.reads → P t k → Reading cfg S t.startTs k v

/-- What has been read stays, where a key that is read is not one the reader has locked. -/
theorem Steady.move {P : Transaction → Bytes → Prop} (hS : Sound cfg S) (hS' : Sound cfg S')
    (h : Tracked S) (hcur : Current S e) (hmove : Move cfg S e S')
    (hkeep : ∀ t t' k, Kept t t' → P t' k → P t k)
    (hfree : ∀ i t k, e = .read i k → S.txns[i]? = some t → P t k →
      (S.maps cfg).lock k t.startTs = none)
    (hsteady : Steady cfg P S) : Steady cfg P S' := by
  intro t' ht' k v hkv hk
  -- a read there was before
  have hold : ∀ t ∈ S.txns, Kept t t' → (k, v) ∈ t.reads → Reading cfg S' t'.startTs k v := by
    intro t ht hkept hread
    rw [hkept.startTs]
    exact (hsteady t ht k v hread (hkeep t t' k hkept hk)).move hS hS' h hcur hmove ht
  cases hmove.txn_from hS ht' with
  | old ht => exact hold t' ht (.refl t') hkv
  | fresh _ heq => subst heq; cases hkv
  | aborted ht heq =>
    subst heq
    exact hold _ ht ⟨rfl, rfl, prefix_rfl, id⟩ hkv
  | @moved i t htxn ht htmove hkept =>
    cases htmove with
    | @read key r hget hsucc =>
      rcases mem_append.1 hkv with hmem | hmem
      · exact hold t ht hkept hmem
      · obtain ⟨rfl, rfl⟩ := Prod.mk.inj (mem_singleton.1 hmem)
        have hnone := hfree i t _ rfl htxn (hkeep _ _ _ hkept hk)
        exact (Reading.of_get hS ht hget hsucc hnone).move hS hS' h hcur hmove ht
    | _ => exact hold _ ht hkept hkv

/-- What holds along a run in which prewrites are heard of promptly and commit timestamps are
current. -/
structure Repeatable (cfg : Config) (S : System) : Prop where
  sound : Sound cfg S
  tracked : Tracked S
  steady : Steady cfg (fun t k => k ∉ t.keys.map Prod.fst) S

theorem Repeatable.init (cfg : Config) : Repeatable cfg (init cfg) where
  sound := sound_init cfg
  tracked := .init cfg
  steady t ht := by cases ht

/-- **Step.** -/
theorem Repeatable.step (h : Repeatable cfg S) (hprompt : Prompt S e) (hcur : Current S e)
    (hstep : S.step cfg e = some S') : Repeatable cfg S' where
  sound := h.sound.step hstep
  tracked := h.tracked.step h.sound hprompt hstep
  steady := by
    refine h.steady.move h.sound (h.sound.step hstep) h.tracked hcur (step_move hstep)
      (fun t t' k hkept hk hmem => hk (hkept.mem_map_keys hmem)) fun i t k _ htxn hk => ?_
    rcases hl : (S.maps cfg).lock k t.startTs with _ | f
    · rfl
    · exact absurd (h.sound.mem_keys_of_lock (mem_of_getElem? htxn) hl) hk

/-- **Snapshot reads repeat**, in every run in which prewrites are heard of promptly and no
commit timestamp is taken from a run below a start timestamp: two reads of a key the
transaction has not written are equal. -/
theorem snapshot_reads_repeat (cfg : Config) (es : List Event) (S : System)
    (hsteps : Along cfg (fun S e => Prompt S e ∧ Current S e) (init cfg) es)
    (hrun : run cfg (init cfg) es = some S) (t : Transaction) (ht : t ∈ S.txns) (k : Bytes)
    (v v' : Option Bytes) (hread : (k, v) ∈ t.reads) (hread' : (k, v') ∈ t.reads)
    (hk : k ∉ t.keys.map Prod.fst) : v = v' := by
  have hstep : ∀ S e S', Prompt S e ∧ Current S e → Repeatable cfg S → S.step cfg e = some S' →
      Repeatable cfg S' := fun S e S' hP hI hstep => hI.step hP.1 hP.2 hstep
  have hinv := hsteps.invariant hstep (Repeatable.init cfg) hrun
  exact (hinv.steady t ht k v hread hk).shown.unique (hinv.steady t ht k v' hread' hk).shown

/-- One shard, and two timestamps at a time. -/
def pairsOfStamps : Config := { Config.unbatched fun _ => 0 with
  batchSize := fun _ => 2
  batch_pos := fun _ => Nat.le_succ 1 }

/-- A transaction commits a key through one client while another's, which reads that key
before and after, is open. -/
def readAround (reader writer : Event) : List Event :=
  [writer, reader, .read 1 [1], .addWrite 0 [1] [7], .start 0 true, .proposePrewrite 0 0,
    .ask 0, .applyEntry 0 0, .answer 0 (.result .ok), .prewriteAnswered 0 0, .joined 0,
    .lockTaken 0, .proposePrimary 0, .ask 1, .applyEntry 1 0, .answer 1 (.result .ok),
    .primaryAnswered 0, .read 1 [1]]

theorem snapshot_reads_repeat_one_client : ∃ S, run pairsOfStamps (init pairsOfStamps)
    (readAround (.begin 0) (.begin 0)) = some S ∧ ∃ t ∈ S.txns, t.reads.length = 2 ∧
      ∀ v v', ([1], v) ∈ t.reads → ([1], v') ∈ t.reads → v = v' := by
  have hsteps : Along pairsOfStamps (fun S e => Prompt S e ∧ Current S e) (init pairsOfStamps)
      (readAround (.begin 0) (.begin 0)) := by decide +kernel
  exact Transition.exists_run (p := fun S => ∃ t ∈ S.txns, t.reads.length = 2 ∧
      [1] ∉ t.keys.map Prod.fst) (by decide +kernel)
    fun S hrun ⟨t, ht, hlen, hk⟩ => ⟨t, ht, hlen, fun v v' hv hv' =>
      snapshot_reads_repeat pairsOfStamps _ S hsteps hrun t ht [1] v v' hv hv' hk⟩

/-- **A cached run changes a snapshot**: the writer's client has had the run its commit
timestamp comes from since before the reader's client got its own. -/
theorem cached_run_changes_snapshot : ∃ S, run pairsOfStamps (init pairsOfStamps)
    (readAround (.begin 1) (.begin 0)) = some S ∧ ∃ t ∈ S.txns,
      t.reads = [([1], none), ([1], some [7])] ∧ [1] ∉ t.keys.map Prod.fst :=
  Transition.exists_of_any (by decide +kernel)

end System
end OxideDB.Txn
