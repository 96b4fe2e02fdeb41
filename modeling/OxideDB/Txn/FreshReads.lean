import OxideDB.Client.Coordinator
import OxideDB.Shard.Group
import OxideDB.Txn.Settling

/-!
# What the questions of a resolver are answered from

`get` and `scan` confirm with a majority that the node they have reached still leads.  `get_lock` and
`get_write_record` do not: whoever is asked answers from its own machine, and refuses nobody.  A
resolver decides by them whether a transaction has committed, and a coordinator whether what it has
read still stands.  Asked of the leader in office, the answers have every acknowledged commit behind
them.  A leader that has been replaced, and has not heard of it, still shows the lock.
-/

namespace OxideDB.Txn.FreshReads

open Raft (Bytes LogEntry RaftCluster Reigning)
open Raft.RaftCluster (run Along)
open Raft.Proposal (Watchful)
open Shard (Coding)
open Storage MVCCStateMachine

variable {n : ℕ} {C : Coding} {g : Shard.Group n} {p : Fin n}
  {m : MVCCStateMachine} {k : Bytes} {s c : ℤ}

/-! ## The two calls -/

/-- `get_lock`, through a client of node `p`, in its process or over a channel. -/
def getLock (g : Shard.Group n) (p : Fin n) (key : Bytes) :
    Except String (Option Lock) :=
  (g.nodes p).machine.state.getLockStatus key

/-- `get_write_record`, through such a client. -/
def getWriteRecord (g : Shard.Group n) (p : Fin n)
    (key : Bytes) : Except String (Option WriteRecord) :=
  (g.nodes p).machine.state.getWriteRecord key

/-- A caller has been answered that its `COMMIT` of `k` succeeded. -/
def Acknowledged (C : Coding) (g : Shard.Group n) (k : Bytes)
    (s c : ℤ) : Prop :=
  ∃ call ∈ g.calls, ∃ entry r cmd, call.status = .returned entry r ∧
    C.unpack call.command = .ok cmd ∧ CommitOf cmd r k s c

/-- Some replica has a record of another transaction on `k`, at `c` or above. -/
def Overwritten (g : Shard.Group n) (k : Bytes) (s c : ℤ) : Prop :=
  ∃ q w, getWriteRecord g q k = .ok (some w) ∧ c ≤ w.commitTs ∧ w.startTs ≠ s

theorem not_overwritten {t : ℤ}
    (h : ∀ q, getWriteRecord g q k = .ok none ∨ getWriteRecord g q k = .ok (some ⟨s, t⟩)) :
    ¬ Overwritten g k s c := by
  rintro ⟨q, w, hw, -, hne⟩
  rcases h q with hq | hq
  · rw [hq] at hw
    cases hw
  · rw [hq] at hw
    cases hw
    exact hne rfl

/-! ## A commit behind the machine -/

/-- The commit of `k` at `c` shows: its record, or one above it, and no lock from below it. -/
structure Reflects (m : MVCCStateMachine) (k : Bytes) (c : ℤ) : Prop where
  record : ∃ w, m.getWriteRecord k = .ok (some w) ∧ c ≤ w.commitTs
  lock : ∃ lock?, m.getLockStatus k = .ok lock? ∧ ∀ lock ∈ lock?, c ≤ lock.startTs

theorem reflects_of_guarded (hkey : ValidKey k)
    (h : Guarded (fun k' c' => k' = k ∧ c' = c) m) : Reflects m k c where
  record := by
    obtain ⟨s, hs⟩ := h.recorded ⟨rfl, rfl⟩
    have hnew := newest_latest m hkey
    rw [getWriteRecord_eq m hkey]
    cases hl : latest m k with
    | none =>
      rw [hl] at hnew
      cases hnew with
      | none hnone => rw [hnone c] at hs; cases hs
    | some w =>
      rw [hl] at hnew
      cases hnew with
      | some _ habove =>
        refine ⟨w, rfl, not_lt.1 fun hlt => ?_⟩
        rw [habove c hlt] at hs
        cases hs
  lock := by
    obtain ⟨r, hr, hnew⟩ := MVCCStorage.getNewestLock_valid m.storage hkey
    refine ⟨_, hr, fun lock hlock => ?_⟩
    cases hnew with
    | none => cases hlock
    | @some t f hf =>
      cases hlock
      exact h.above ⟨rfl, rfl⟩ hf

theorem tidy_of_reached {es : List LogEntry} (h : C.machine.Reached m es) : Tidy m :=
  Raft.StateMachine.Reached.of_prefix C.machine_lawful
    (fun m e hm => (C.later_applyEntry m e).keeps (fun hm ha => hm.applied ha) hm) .init h
    List.nil_prefix tidy_empty

/-- **A leader in office shows what was acknowledged.** -/
theorem reigning_reflects {interval : Fin n → ℕ} {window : ℕ} (hp : Reigning g p)
    {es : List (Raft.Event n)}
    (hw : Along (Watchful (C.config interval window)) (C.config interval window)
      (RaftCluster.init (C.config interval window)) es)
    (hrun : run (C.config interval window)
      (RaftCluster.init (C.config interval window)) es = some g) (hack : Acknowledged C g k s c) :
    Reflects (g.nodes p).machine.state k c := by
  obtain ⟨call, hcall, entry, r, cmd, hst, hread, hcommit⟩ := hack
  obtain ⟨now, m₀, m₁, answer, happlied, hanswer, hlater, before, e, -, hreach, -⟩ :=
    Shard.acknowledged hp hw hrun hcall hst hcommit.success hread
  have hof : CommitOf cmd answer k s c :=
    ⟨hcommit.type, hcommit.key, hcommit.startTs, hcommit.commitTs, hanswer⟩
  obtain ⟨f, hlock, -⟩ := hof.committed happlied
  refine reflects_of_guarded (MVCCStorage.valid_of_lockAt hlock).1 ?_
  exact hlater.keeps (fun hm ha => hm.applied ha)
    (guarded_of_commit (tidy_of_reached hreach) happlied hof)

/-! ## Who asks -/

theorem advance_calls (x : Resolving) : x.advance.calls = x.calls + 1 := by
  suffices ∀ (commands : List (ℕ × Time × Command)) (x : Resolving),
      (x.executeAll commands).calls = x.calls from this _ _
  intro commands
  induction commands with
  | nil => intro x; rfl
  | cons e commands ih => intro x; exact ih _

/-- The resolver, where the record it is shown is the transaction's own. -/
theorem primaryStatus_of_record {x : Resolving} (resolver : LockResolver)
    {w : WriteRecord} (hw : m.getWriteRecord k = .ok (some w)) (hs : w.startTs = s)
    (hshown : ∀ shard, (x.looks x.calls).owner k = some shard →
      (x.looks (x.calls + 1)).shown shard = some m) :
    (Resolving.primaryStatus resolver k s x).1 ≠ .ok .aborted := by
  show (Resolving.primaryStatus resolver k s).Spec x fun r _ => r ≠ .ok .aborted
  refine (Resolving.ask_spec _ x).bind ?_ (by rintro e _ - ⟨⟩)
  rintro shard? _ ⟨rfl, hclient⟩
  cases shard? with
  | none =>
    rintro ⟨⟩
  | some shard =>
    have howner := (Option.filter_eq_some_iff.1 (Except.ok.inj (hclient _ rfl))).1
    refine (Resolving.ask_spec _ x.advance).bind ?_ (by rintro e _ - ⟨⟩)
    rintro record _ ⟨-, hrecord⟩
    have hread := hrecord _ rfl
    rw [(Resolving.goes_advance x).looks, advance_calls, hshown shard howner, Option.getD_some,
      hw] at hread
    cases hread
    rw [Option.any_some, if_pos (decide_eq_true hs)]
    rintro ⟨⟩

/-- A lookup of the client, and what it leaves. -/
theorem ask_spec {A : Type} (f : Client.Moment → A) (x : Client) :
    (Client.ask f).Spec x fun r x' => x' = x.advance ∧ ∀ a, r = .ok a → a = f x.moment := by
  rw [Client.ask, Program.spec_bind_ok (rfl : Client.next x = (.ok x.moment, x.advance))]
  cases x.moment.raised with
  | some e => exact Program.spec_raise.2 ⟨rfl, by rintro a ⟨⟩⟩
  | none => exact Program.spec_pure.2 ⟨rfl, by rintro a ⟨⟩; rfl⟩

theorem getShardId_spec (key : Bytes) (x : Client) :
    (Client.getShardId key).Spec x fun _ x' => x' = x.advance := by
  refine (ask_spec _ x).bind ?_ fun e x' h => h.1
  rintro (_ | shard) _ ⟨rfl, -⟩
  · exact Program.spec_raise.2 rfl
  · exact Program.spec_pure.2 rfl

/-- The read set, where the record it is shown is above the snapshot. -/
theorem validateReadSet_of_record {t : Client.Transaction} {keys : List Bytes} {w : WriteRecord}
    (hw : t.startTs < w.commitTs) {x : Client} {i : ℕ} (hi : keys[i]? = some k)
    (hshown : (x.moments (x.calls + 3 * i + 2)).record = some w) :
    (Client.validateReadSet t keys x).1 ≠ .ok none := by
  induction keys generalizing x i with
  | nil => cases hi
  | cons key keys ih =>
    -- the rest of the keys, three calls later
    have hrest : ∀ {j}, i = j + 1 →
        (Client.validateReadSet t keys).Spec x.advance.advance.advance fun r _ => r ≠ .ok none := by
      rintro j rfl
      refine ih hi ?_
      have hcalls : x.advance.advance.advance.calls + 3 * j + 2 = x.calls + 3 * (j + 1) + 2 := by
        show x.calls + 1 + 1 + 1 + 3 * j + 2 = _
        omega
      rw [hcalls]
      exact hshown
    show (Client.validateReadSet t (key :: keys)).Spec x fun r _ => r ≠ .ok none
    rw [Client.validateReadSet]
    refine (getShardId_spec key x).bind ?_ (by rintro e _ - ⟨⟩)
    rintro shard _ rfl
    refine (ask_spec _ x.advance).bind ?_ (by rintro e _ - ⟨⟩)
    rintro leader _ ⟨rfl, -⟩
    split
    swap
    · rintro ⟨⟩
    refine (ask_spec _ x.advance.advance).bind ?_ (by rintro e _ - ⟨⟩)
    rintro record _ ⟨rfl, hrecord⟩
    obtain rfl := hrecord _ rfl
    cases i with
    | zero =>
      have hthis : x.advance.advance.moment.record = some w := hshown
      rw [hthis]
      dsimp only
      rw [if_pos hw]
      rintro ⟨⟩
    | succ j =>
      split
      · split
        · rintro ⟨⟩
        · exact hrest rfl
      · exact hrest rfl

/-- **Resolution reads are fresh, of a leader in office**: a commit that was acknowledged before shows
in both answers.  So the resolver does not take its transaction for aborted, while no other
transaction has written the key at `c` or above, and no read set with the key passes whose snapshot is
below `c`. -/
theorem resolution_reads_fresh (C : Coding) (interval : Fin n → ℕ) (window : ℕ)
    (es₁ es₂ : List (Raft.Event n)) (g₁ g₂ : Shard.Group n)
    (hw : Along (Watchful (C.config interval window)) (C.config interval window)
      (RaftCluster.init (C.config interval window)) (es₁ ++ es₂))
    (h₁ : run (C.config interval window)
      (RaftCluster.init (C.config interval window)) es₁ = some g₁)
    (h₂ : run (C.config interval window) g₁ es₂ = some g₂) (k : Bytes) (s c : ℤ)
    (hack : Acknowledged C g₁ k s c) (p : Fin n) (hp : Reigning g₂ p) :
    ((∃ w, getWriteRecord g₂ p k = .ok (some w) ∧ c ≤ w.commitTs) ∧
      ∃ lock?, getLock g₂ p k = .ok lock? ∧ ∀ lock ∈ lock?, c ≤ lock.startTs) ∧
    (¬ Overwritten g₂ k s c → ∀ (resolver : LockResolver) (x : Resolving),
      (∀ shard, (x.looks x.calls).owner k = some shard →
        (x.looks (x.calls + 1)).shown shard = some (g₂.nodes p).machine.state) →
      (Resolving.primaryStatus resolver k s x).1 ≠ .ok .aborted) ∧
    ∀ (x : Client) (t : Client.Transaction) (keys : List Bytes) (i : ℕ), keys[i]? = some k →
      t.startTs < c → .ok (x.moments (x.calls + 3 * i + 2)).record = getWriteRecord g₂ p k →
      (Client.validateReadSet t keys x).1 ≠ .ok none := by
  have hack₂ : Acknowledged C g₂ k s c := by
    obtain ⟨call, hcall, entry, r, cmd, hst, hrest⟩ := hack
    exact ⟨call, Raft.returned_run h₂ hcall hst, entry, r, cmd, hst, hrest⟩
  obtain ⟨⟨w, hrec, hle⟩, hlock⟩ :=
    reigning_reflects hp hw (Transition.run_join h₁ h₂) hack₂
  refine ⟨⟨⟨w, hrec, hle⟩, hlock⟩, fun hkept resolver x hshown => ?_,
    fun x t keys i hi ht hshown => ?_⟩
  · have hs : w.startTs = s := not_not.1 fun hne => hkept ⟨p, w, hrec, hle, hne⟩
    exact primaryStatus_of_record resolver hrec hs hshown
  · rw [getWriteRecord, hrec] at hshown
    exact validateReadSet_of_record (lt_of_lt_of_le ht hle) hi (Except.ok.inj hshown)

/-- A shard's group of three. -/
def trio : Shard.Settings 3 := Shard.packed.config (fun _ => 0) 1024

def commitFive : Bytes := Shard.serializeCommand (.commit [5] 1 2)

/-- A client proposes `command` at `p`, in call `j`; `q` acknowledges it and the client is
answered. -/
def asking (p q : Fin 3) (command : Bytes) (j : ℕ) : List (Raft.Event 3) :=
  Raft.proposing p command j ++ Raft.feeding p q 0 ++ [.act (.awaitCommit j), .act (.answer j)]

/-- Transaction 1 locks `[5]` at node 0, the leader of term 1. -/
def locking : List (Raft.Event 3) :=
  Raft.electing 0 1 0 ++ asking 0 1 (Shard.serializeCommand (.prewrite [5] [7] 1 [5])) 0 ++ Raft.feeding 0 2 0

/-- Nodes 1 and 2 elect node 1, and the transaction commits there. -/
def movingOn : List (Raft.Event 3) := Raft.electing 1 2 0 ++ asking 1 2 commitFive 1

/-- A resolver that is led to a node with the machine `m`. -/
def ledTo (m : MVCCStateMachine) : Resolving :=
  .init (fun _ => .empty) fun _ =>
    { owner := fun _ => some 0, leader := fun _ => true, shown := fun _ => some m, now := 100 }

/-- A coordinator that is shown `record` by every node. -/
def shownRecord (record : Option WriteRecord) : Client :=
  .init (fun _ => .empty) (fun _ => { shard := fun _ => some 0, record := record }) true

/-- The transaction commits at node 0, and is asked about there. -/
theorem resolution_reads_fresh_reigning : ∃ g,
    run trio (RaftCluster.init trio) (locking ++ asking 0 1 commitFive 1) = some g ∧
    (∃ w, getWriteRecord g 0 [5] = .ok (some w) ∧ 2 ≤ w.commitTs) ∧
    (Resolving.primaryStatus ⟨10⟩ [5] 1 (ledTo (g.nodes 0).machine.state)).1 ≠ .ok .aborted ∧
    (Client.validateReadSet { startTs := 1 } [[5]] (shownRecord (some ⟨1, 2⟩))).1 ≠ .ok none := by
  refine Transition.exists_run (p := fun g => (∃ call ∈ g.calls,
      call.status = .returned (some ⟨1, 3, commitFive⟩) (.ok none (some 3)) ∧
        call.command = commitFive) ∧
      (getWriteRecord g 0 [5] = .ok (some ⟨1, 2⟩) ∧
        ∀ q, getWriteRecord g q [5] = .ok none ∨ getWriteRecord g q [5] = .ok (some ⟨1, 2⟩)) ∧
      Reigning g 0) (by decide +kernel) fun g hrun ⟨⟨call, hcall, hst⟩, hrecords, hp⟩ => ?_
  have hack : Acknowledged Shard.packed g [5] 1 2 :=
    ⟨call, hcall, _, _, .commit [5] 1 2, hst.1, by rw [hst.2]; rfl, by decide⟩
  obtain ⟨⟨hrecord, -⟩, hstatus, hvalid⟩ := resolution_reads_fresh Shard.packed (fun _ => 0) 1024 _ []
    g g (by decide +kernel) hrun rfl [5] 1 2 hack 0 hp
  exact ⟨hrecord, hstatus (not_overwritten hrecords.2) ⟨10⟩ _ (fun _ _ => rfl),
    hvalid _ { startTs := 1 } [[5]] 0 rfl (by decide) hrecords.1.symm⟩

/-- Node 0 has not heard of it: it takes itself for the leader, shows the lock and no record.  The
transaction counts as aborted, and a read set from before it passes. -/
theorem deposed_leader_shows_lock : ∃ g,
    run trio (RaftCluster.init trio) (locking ++ movingOn) = some g ∧
    Along (Watchful trio) trio (RaftCluster.init trio) (locking ++ movingOn) ∧
    Acknowledged Shard.packed g [5] 1 2 ∧ ¬ Overwritten g [5] 1 2 ∧
    (g.nodes 0).state = .leader ∧ getWriteRecord g 0 [5] = .ok none ∧
    getLock g 0 [5] = .ok (some ⟨.locked, [5], 0, [7], [5], 1⟩) ∧
    (Resolving.primaryStatus ⟨10⟩ [5] 1 (ledTo (g.nodes 0).machine.state)).1 = .ok .aborted ∧
    (Client.validateReadSet { startTs := 1 } [[5]] (shownRecord none)).1 = .ok none := by
  refine Transition.exists_run (p := fun g => (∃ call ∈ g.calls,
      call.status = .returned (some ⟨2, 4, commitFive⟩) (.ok none (some 4)) ∧
        call.command = commitFive) ∧
      (∀ q, getWriteRecord g q [5] = .ok none ∨ getWriteRecord g q [5] = .ok (some ⟨1, 2⟩)) ∧
      (g.nodes 0).state = .leader ∧ getWriteRecord g 0 [5] = .ok none ∧
      getLock g 0 [5] = .ok (some ⟨.locked, [5], 0, [7], [5], 1⟩) ∧
      (Resolving.primaryStatus ⟨10⟩ [5] 1 (ledTo (g.nodes 0).machine.state)).1 = .ok .aborted)
    (by decide +kernel)
    fun g _ ⟨⟨call, hcall, hst⟩, hrecords, hleads, hrecord, hlock, hstatus⟩ => ?_
  refine ⟨by decide +kernel, ⟨call, hcall, _, _, .commit [5] 1 2, hst.1, ?_, by decide⟩,
    not_overwritten hrecords, hleads, hrecord, hlock, hstatus, by decide +kernel⟩
  rw [hst.2]
  rfl

end OxideDB.Txn.FreshReads
