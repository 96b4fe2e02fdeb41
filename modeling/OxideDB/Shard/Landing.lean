import OxideDB.Shard.Abort

/-!
# A move that has landed

Once `MOVE_SHARD` has been applied what is left of a move is `_commit_move`: this side's
placement becomes the new set, the note is deleted from every replica's storage, the source's
groups are closed, and the record of the move goes.  A cluster that crashes in between starts
again from its start-up placement, which may well be the set the move has left, and what then
keeps the publisher from writing that set back, and the group from taking rows, is the note.

The run begins when `MOVE_SHARD` is applied, inside `move_shard`, and has the steps of
`_commit_move`, crashes, the start-up in its order, recovery calls, the publisher's passes with the
set of moving shards each was begun with, proposals that are applied late, and writes.

* `Sound` — the table does not name the source set, and a group on it is frozen.
* `sound_landed` — that is so once `MOVE_SHARD` has been applied.
* `Sound.shardReplicaIds_ne` — the publisher does not propose the source set.
* `Sound.act`, `sound_step` — each careful step keeps that.
-/

namespace OxideDB.Shard

open Metadata List MetadataStateMachine
open Transition (run Along)

variable {noted : List ℤ} {args : SetShardNodes}

/-- One move, and the placement the cluster is started with. -/
structure Relocation where
  shardId : ℤ
  source : List ℤ
  target : List ℤ
  startup : List ℤ
  somewhere : target ≠ []
  away : ∀ node ∈ target, node ∉ source

/-- The same nodes. -/
def SameSet (nodes nodes' : List ℤ) : Prop := nodes.toFinset = nodes'.toFinset

instance (nodes nodes' : List ℤ) : Decidable (SameSet nodes nodes') :=
  inferInstanceAs (Decidable (_ = _))

theorem Relocation.target_ne (r : Relocation) : ¬ SameSet r.target r.source := by
  intro h
  obtain ⟨node, hnode⟩ := exists_mem_of_ne_nil _ r.somewhere
  have hmem : node ∈ r.source := by
    rw [← mem_toFinset, ← h, mem_toFinset]
    exact hnode
  exact r.away node hnode hmem

/-! ## The cluster and the table -/

/-- How far `_commit_move` has got. -/
inductive Committing where
  | no
  /-- `apply_move_locally`, and the phase is `DONE`. -/
  | placed
  /-- `ensure_serving` has closed what is not in the new set. -/
  | closed
  deriving DecidableEq

/-- A cluster's process, as far as one shard goes. -/
structure Process where
  /-- The call that makes the move is under way. -/
  calling : Bool
  /-- The notes have been read, which is before anything publishes. -/
  loaded : Bool
  /-- `_placed_shards`. -/
  placed : List ℤ
  /-- `_migrations`: the move in flight, and whether its phase is `DONE`. -/
  migrating : Option Bool
  /-- The members of the group that was built at start-up, or that the move is leaving. -/
  group : List ℤ
  held : Bool
  frozen : Bool
  targetHeld : Bool
  committing : Committing
  nodesPublished : Bool
  /-- The publisher's pass: whether the shard was moving when it was begun. -/
  pass : Option Bool

/-- The process, if it is up, and what outlives it. -/
structure Site where
  process : Option Process
  table : MetadataStateMachine
  /-- The replicas whose storage has the note. -/
  noted : List ℤ
  /-- Proposals of the publisher that may still be applied. -/
  asked : List SetShardNodes := []
  /-- A group on the source set has acknowledged a write. -/
  acked : Bool := false

inductive SiteEvent where
  /-- The call hears that its proposal was applied. -/
  | heard
  | forgetNote (node : ℤ)
  /-- `ensure_serving`. -/
  | close
  | dropMigration
  /-- The call takes the answer for a refusal: `_abort_move`. -/
  | abort
  | crash
  /-- The servers are started, over the same storages. -/
  | boot
  /-- `load_pending_migrations`. -/
  | load
  /-- `_resume_migration`. -/
  | recover
  /-- A `SET`, a `DELETE` or a `PREWRITE` is proposed to the group and acknowledged. -/
  | write
  | beginPass
  /-- `_publish_nodes`, with the addresses of the group. -/
  | publishNodes (addresses : Dict ℤ String) (answer : Ending)
  | endPass
  /-- `_publish_leader`. -/
  | reportLeader (args : ReportLeader)
  /-- A proposal is applied after all. -/
  | applyAsked (i : ℕ)

variable {e : SiteEvent}

namespace Process

variable (r : Relocation) (p : Process)

/-- `shard_replica_ids`: the members of the group on the first serving node that holds one. -/
def shardReplicaIds : List ℤ :=
  let serving := if p.migrating = some false then r.source else p.placed
  (serving.findSome? fun node =>
    if p.held = true ∧ node ∈ p.group then some p.group
    else if p.targetHeld = true ∧ node ∈ r.target then some r.target
    else none).getD []

/-- The freeze of the source set; a group on another set is not wholly frozen by it. -/
def freeze : Process := { p with frozen := p.frozen || decide (SameSet p.group r.source) }

/-- `_commit_move`, up to the note. -/
def commit : Process := { p with placed := r.target, migrating := some true, committing := .placed }

end Process

namespace Site

section Step

variable (r : Relocation)

/-- The moment `MOVE_SHARD` is applied: the source is frozen, its notes are written and the
target's group is built.  The publisher may be anywhere. -/
def landed (table : MetadataStateMachine) (nodesPublished : Bool) (pass : Option Bool) : Site :=
  let p : Process :=
    { calling := true, loaded := true, placed := r.source, migrating := some false
      group := r.source, held := true, frozen := true, targetHeld := true, committing := .no
      nodesPublished, pass }
  { process := some p, table, noted := r.source }

/-- The process after `start` has built the servers. -/
def booted : Process :=
  { calling := false, loaded := false, placed := r.startup, migrating := none
    group := r.startup, held := true, frozen := false, targetHeld := false, committing := .no
    nodesPublished := false, pass := none }

/-- The nodes the table names for the shard. -/
def nodes (s : Site) : Option (List ℤ) := (s.table.shards.get? r.shardId).map (·.nodes)

/-- `_publish_nodes` proposes the replica set. -/
def publishNodes (s : Site) (p : Process) (addresses : Dict ℤ String) (answer : Ending) :
    Option Site :=
  let args : SetShardNodes := { shardId := r.shardId, nodes := p.shardReplicaIds r, addresses }
  if p.pass ≠ some false ∨ p.nodesPublished ∨ args.nodes = [] then none
  else match answer with
    | .notLeader => some s
    | .answered | .unread =>
      some { s with table := (s.table.applySetShardNodes args).1
                    process := some { p with nodesPublished := true } }
    | .overwritten => some { s with process := some { p with nodesPublished := true } }
    -- both clients turn it into `ERR_NOT_LEADER`, and the next pass proposes again
    | .leadershipLost | .unanswered => some { s with asked := args :: s.asked }
    | .timeout => some { s with asked := args :: s.asked
                                process := some { p with nodesPublished := true } }

/-- What a process does. -/
def act (s : Site) (p : Process) : SiteEvent → Option Site
  | .heard =>
    if p.calling = true ∧ p.committing = .no then
      some { s with process := some { p.commit r with calling := false } }
    else none
  | .forgetNote node =>
    if p.committing = .placed then some { s with noted := s.noted.filter (· ≠ node) } else none
  | .close =>
    -- the notes of the storages that are open have been deleted by now
    if p.committing = .placed ∧ (p.held = true → ∀ node ∈ p.group, node ∉ s.noted) then
      let p := { p with held := false, targetHeld := true, committing := .closed }
      some { s with process := some p }
    else none
  | .dropMigration =>
    if p.committing = .closed then
      some { s with process := some { p with migrating := none, committing := .no } }
    else none
  | .abort =>
    if p.calling = true ∧ p.committing = .no then
      let p := { p with calling := false, migrating := none, frozen := false, targetHeld := false }
      some { s with noted := [], process := some p }
    else none
  | .load =>
    if p.migrating = none ∧ p.held = true ∧ ∃ node ∈ p.group, node ∈ s.noted then
      some { s with process := some { p.freeze r with migrating := some false, loaded := true } }
    else some { s with process := some { p with loaded := true } }
  | .recover =>
    if p.loaded = true ∧ p.migrating = some false ∧ p.committing = .no then
      if (s.nodes r).any fun nodes => nodes.Perm r.target then
        some { s with process := some { (p.freeze r).commit r with targetHeld := true } }
      -- a table that names the source set is a move to make again, and any other a stop
      else some { s with process := some (p.freeze r) }
    else none
  | .write =>
    if p.held = true ∧ p.frozen = false then
      some { s with acked := s.acked || decide (SameSet p.group r.source) }
    else none
  | .beginPass =>
    if p.loaded = true ∧ p.pass = none then
      some { s with process := some { p with pass := some p.migrating.isSome } }
    else none
  | .publishNodes addresses answer => s.publishNodes r p addresses answer
  | .endPass => some { s with process := some { p with pass := none } }
  | .crash => some { s with process := none }
  | _ => none

def step (s : Site) : SiteEvent → Option Site
  | .boot => if s.process.isNone then some { s with process := some (booted r) } else none
  | .reportLeader args => some { s with table := (s.table.applyReportLeader args).1 }
  | .applyAsked i =>
    (s.asked[i]?).map fun args => { s with table := (s.table.applySetShardNodes args).1 }
  | e =>
    match s.process with
    | some p => s.act r p e
    | none => none

end Step

/-! ## Every run -/

variable {r : Relocation} {s s' : Site} {p : Process}

/-- A process that may hold a group on the source set. -/
structure Guarded (r : Relocation) (noted : List ℤ) (p : Process) : Prop where
  /-- Before the notes are read there is one to be found. -/
  early (h : p.loaded = false) : p.held = true ∧ p.migrating = none ∧ p.committing = .no ∧
    p.calling = false ∧ ∃ node ∈ p.group, node ∈ noted
  /-- After that the group is frozen and the move is on record for as long as it is held. -/
  frozen (h : p.loaded = true) (hheld : p.held = true) : p.frozen = true ∧ p.migrating ≠ none
  placed (h : p.loaded = true) (hdone : p.migrating ≠ some false) : p.placed = r.target
  committed (h : p.committing ≠ .no) : p.migrating = some true
  closed (h : p.committing = .closed) : p.held = false

/-- What holds between the process, the notes and the table. -/
structure Sound (r : Relocation) (s : Site) : Prop where
  named {placement : ShardPlacement} (h : s.table.shards.get? r.shardId = some placement) :
    ¬ SameSet placement.nodes r.source
  asked {args : SetShardNodes} (h : args ∈ s.asked) : ¬ SameSet args.nodes r.source
  quiet : s.acked = false
  down (h : s.process = none) (hsame : SameSet r.startup r.source) :
    ∃ node ∈ r.startup, node ∈ s.noted
  passing {p : Process} (h : s.process = some p) (hpass : p.pass.isSome = true) : p.loaded = true
  up {p : Process} (h : s.process = some p) (hsame : SameSet p.group r.source) : Guarded r s.noted p

/-- The steps that leave the move alone: the cluster crashes only while a replica it starts with
has the note, no write reaches a group on the source set before the notes are read, the call
does not take the success of its proposal for a refusal, and a publisher's pass does not get to
the shard after a move has begun that it did not see. -/
def Careful (r : Relocation) (s : Site) : SiteEvent → Prop
  | .crash => SameSet r.startup r.source → ∃ node ∈ r.startup, node ∈ s.noted
  | .write => ∀ p ∈ s.process, SameSet p.group r.source → p.loaded = true
  | .abort => False
  | .publishNodes _ _ => ∀ p ∈ s.process, p.migrating = none
  | _ => True

/-! ### The table -/

section

variable {m : MetadataStateMachine} {k : ℤ} {placement : ShardPlacement}

theorem nodes_applySetShardNodes
    (h : (m.applySetShardNodes args).1.shards.get? k = some placement) :
    m.shards.get? k = some placement ∨ placement.nodes = args.nodes := by
  unfold applySetShardNodes at h
  dsimp only at h
  split at h
  · exact .inl h
  have h' : (m.shards.set args.shardId _).get? k = some placement := h
  rw [Dict.get?_set] at h'
  split at h'
  · cases h'
    exact .inr rfl
  · exact .inl h'

theorem nodes_applyReportLeader {args : ReportLeader}
    (h : (m.applyReportLeader args).1.shards.get? k = some placement) :
    ∃ placement', m.shards.get? k = some placement' ∧ placement'.nodes = placement.nodes := by
  unfold applyReportLeader at h
  dsimp only at h
  split at h
  · exact ⟨placement, h, rfl⟩
  next old hold =>
  split at h
  · exact ⟨placement, h, rfl⟩
  split at h
  · exact ⟨placement, h, rfl⟩
  have h' : (m.shards.set args.shardId _).get? k = some placement := h
  rw [Dict.get?_set] at h'
  split at h'
  · next heq =>
    cases h'
    exact ⟨old, heq ▸ hold, rfl⟩
  · exact ⟨placement, h', rfl⟩

end

/-- A replica set that is not the source set is written. -/
theorem Sound.set_nodes (h : Sound r s) (hargs : ¬ SameSet args.nodes r.source) :
    Sound r { s with table := (s.table.applySetShardNodes args).1 } :=
  { h with
    named := fun {placement} hget => by
      rcases nodes_applySetShardNodes hget with hold | hnew
      · exact h.named hold
      · rw [hnew]
        exact hargs }

theorem sound_landed {table : MetadataStateMachine} {nodesPublished : Bool} {pass : Option Bool}
    (htable : ∀ {placement}, table.shards.get? r.shardId = some placement →
      ¬ SameSet placement.nodes r.source) : Sound r (landed r table nodesPublished pass) where
  named := htable
  asked h := nomatch h
  quiet := rfl
  down h := nomatch h
  passing h _ := by
    cases h
    rfl
  up h _ := by
    cases h
    exact { early := nofun, frozen := fun _ _ => ⟨rfl, nofun⟩
            placed := fun _ hdone => absurd rfl hdone, committed := fun h => absurd rfl h
            closed := nofun }

/-! ### The process -/

/-- The publisher's replica set is one of the two groups that are held. -/
theorem shardReplicaIds_cases (r : Relocation) (p : Process) : p.shardReplicaIds r = [] ∨
    p.held = true ∧ p.shardReplicaIds r = p.group ∨ p.shardReplicaIds r = r.target := by
  unfold Process.shardReplicaIds
  dsimp only
  rcases hfound : findSome? _ _ with _ | members
  · exact .inl rfl
  obtain ⟨node, -, hnode⟩ := exists_of_findSome?_eq_some hfound
  split at hnode
  · next hgroup => exact .inr (.inl ⟨hgroup.1, (Option.some.inj hnode).symm⟩)
  split at hnode
  · exact .inr (.inr (Option.some.inj hnode).symm)
  · cases hnode

/-- What the publisher proposes for a shard that is not moving is not the source set. -/
theorem Sound.shardReplicaIds_ne (h : Sound r s) (hp : s.process = some p)
    (hpass : p.pass.isSome = true) (hidle : p.migrating = none)
    (hne : p.shardReplicaIds r ≠ []) : ¬ SameSet (p.shardReplicaIds r) r.source := by
  rcases shardReplicaIds_cases r p with hnil | ⟨hheld, hgroup⟩ | htarget
  · exact absurd hnil hne
  · rw [hgroup]
    intro hsame
    exact ((h.up hp hsame).frozen (h.passing hp hpass) hheld).2 hidle
  · rw [htarget]
    exact r.target_ne

/-- The process changes and nothing else does. -/
theorem Sound.of_process (h : Sound r s) {p' : Process}
    (hpassing : p'.pass.isSome = true → p'.loaded = true)
    (hup : SameSet p'.group r.source → Guarded r noted p') :
    Sound r { s with process := some p', noted := noted } where
  named := h.named
  asked := h.asked
  quiet := h.quiet
  down h' := nomatch h'
  passing h' hpass := by
    cases h'
    exact hpassing hpass
  up h' hsame := by
    cases h'
    exact hup hsame

theorem Guarded.commit (h : Guarded r noted p) (hloaded : p.loaded = true) :
    Guarded r noted (p.commit r) where
  early h' := by rw [show p.loaded = false from h'] at hloaded; cases hloaded
  frozen _ hheld := ⟨(h.frozen hloaded hheld).1, nofun⟩
  placed _ _ := rfl
  committed _ := rfl
  closed h' := nomatch h'

/-- **What every step of the process keeps.** -/
theorem Sound.act (h : Sound r s) (hp : s.process = some p) (hcareful : Careful r s e)
    (hs : s.act r p e = some s') : Sound r s' := by
  have hpassing := fun hpass => h.passing hp hpass
  have hup := fun hsame => h.up hp hsame
  cases e with
  | heard =>
    obtain ⟨⟨hcalling, -⟩, hs⟩ := Option.ite_none_right_eq_some.1 hs
    cases hs
    refine h.of_process hpassing fun hsame => ?_
    have hg := hup hsame
    have hloaded : p.loaded = true := by
      by_contra hnot
      rw [(hg.early (Bool.eq_false_iff.2 hnot)).2.2.2.1] at hcalling
      cases hcalling
    exact { hg.commit hloaded with early := fun h' => absurd (hloaded.symm.trans h') nofun }
  | forgetNote node =>
    obtain ⟨hcommitting, hs⟩ := Option.ite_none_right_eq_some.1 hs
    cases hs
    have hkept : Sound r { s with process := some p, noted := s.noted.filter (· ≠ node) } := by
      refine h.of_process hpassing fun hsame => ?_
      have hg := hup hsame
      refine { hg with early := fun hnot => ?_ }
      rw [(hg.early hnot).2.2.1] at hcommitting
      cases hcommitting
    rwa [← hp] at hkept
  | close =>
    obtain ⟨⟨hcommitting, -⟩, hs⟩ := Option.ite_none_right_eq_some.1 hs
    cases hs
    refine h.of_process hpassing fun hsame => ?_
    have hg := hup hsame
    have hne : p.committing ≠ .no := by rw [hcommitting]; nofun
    refine { early := fun hnot => ?_, frozen := fun _ hheld => (nomatch hheld), placed := hg.placed
             committed := fun _ => hg.committed hne, closed := fun _ => rfl }
    exact absurd (hg.early hnot).2.2.1 hne
  | dropMigration =>
    obtain ⟨hcommitting, hs⟩ := Option.ite_none_right_eq_some.1 hs
    cases hs
    refine h.of_process hpassing fun hsame => ?_
    have hg := hup hsame
    have hne : p.committing ≠ .no := by rw [hcommitting]; nofun
    have hheld := hg.closed hcommitting
    refine { early := fun hnot => absurd (hg.early hnot).2.2.1 hne
             frozen := fun _ hheld' => ?_
             placed := fun hloaded _ => hg.placed hloaded (by rw [hg.committed hne]; nofun)
             committed := fun h' => absurd rfl h', closed := fun h' => (nomatch h') }
    rw [show p.held = true from hheld'] at hheld
    cases hheld
  | abort => exact hcareful.elim
  | crash =>
    cases hs
    exact { named := h.named, asked := h.asked, quiet := h.quiet, down := fun _ => hcareful
            passing := fun h' => (nomatch h'), up := fun h' => (nomatch h') }
  | load =>
    unfold Site.act at hs
    dsimp only at hs
    split at hs
    · cases hs
      refine h.of_process (fun _ => rfl) fun hsame => ?_
      have hg := hup hsame
      refine { early := fun h' => (nomatch h'), frozen := fun _ _ => ⟨?_, nofun⟩
               placed := fun _ h' => absurd rfl h', committed := fun hne => ?_
               closed := hg.closed }
      · exact Bool.or_eq_true_iff.2 (.inr (decide_eq_true hsame))
      next hfound =>
      have hmoving := hg.committed hne
      rw [hfound.1] at hmoving
      cases hmoving
    · next hfound =>
      cases hs
      refine h.of_process (fun _ => rfl) fun hsame => ?_
      have hg := hup hsame
      have hloaded : p.loaded = true := by
        by_contra hnot
        obtain ⟨hheld, hidle, -, -, hnoted⟩ := hg.early (Bool.eq_false_iff.2 hnot)
        exact hfound ⟨hidle, hheld, hnoted⟩
      exact { early := fun h' => (nomatch h'), frozen := fun _ => hg.frozen hloaded
              placed := fun _ => hg.placed hloaded, committed := hg.committed
              closed := hg.closed }
  | recover =>
    unfold Site.act at hs
    dsimp only at hs
    split at hs
    swap
    · cases hs
    next hguard =>
    split at hs
    · cases hs
      refine h.of_process hpassing fun hsame => ?_
      have hg := hup hsame
      exact { early := fun h' => absurd (hguard.1.symm.trans h') nofun
              frozen := fun _ _ => ⟨Bool.or_eq_true_iff.2 (.inr (decide_eq_true hsame)), nofun⟩
              placed := fun _ _ => rfl, committed := fun _ => rfl, closed := fun h' => (nomatch h') }
    · cases hs
      refine h.of_process hpassing fun hsame => ?_
      have hg := hup hsame
      exact { hg with
              frozen := fun hloaded hheld =>
                ⟨Bool.or_eq_true_iff.2 (.inr (decide_eq_true hsame)), (hg.frozen hloaded hheld).2⟩ }
  | write =>
    obtain ⟨⟨hheld, hthawed⟩, hs⟩ := Option.ite_none_right_eq_some.1 hs
    cases hs
    have hother : ¬ SameSet p.group r.source := by
      intro hsame
      have hfrozen := ((hup hsame).frozen (hcareful p hp hsame) hheld).1
      rw [hthawed] at hfrozen
      cases hfrozen
    refine { h with quiet := ?_ }
    show (s.acked || decide _) = false
    rw [h.quiet, Bool.false_or]
    exact decide_eq_false hother
  | beginPass =>
    obtain ⟨⟨hloaded, -⟩, hs⟩ := Option.ite_none_right_eq_some.1 hs
    cases hs
    exact h.of_process (fun _ => hloaded) fun hsame => { hup hsame with }
  | publishNodes addresses answer =>
    have hidle : p.migrating = none := hcareful p hp
    have hs' : s.publishNodes r p addresses answer = some s' := hs
    unfold Site.publishNodes at hs'
    dsimp only at hs'
    split at hs'
    · cases hs'
    next hguard =>
    rw [not_or, not_or] at hguard
    obtain ⟨hpass, -, hne⟩ := hguard
    have hne' := h.shardReplicaIds_ne hp (by rw [not_not.1 hpass]; rfl) hidle hne
    have hpublished : ∀ {s₁ : Site}, Sound r s₁ → s₁.process = some p →
        Sound r { s₁ with process := some { p with nodesPublished := true } } := by
      intro s₁ h₁ hp₁
      have hpassing₁ := fun hpass => h₁.passing hp₁ hpass
      exact h₁.of_process hpassing₁ fun hsame => { h₁.up hp₁ hsame with }
    have hasked : Sound r { s with
        asked := ⟨r.shardId, p.shardReplicaIds r, addresses⟩ :: s.asked } := by
      refine { h with asked := fun {args} hmem => ?_ }
      rcases mem_cons.1 hmem with rfl | hmem
      · exact hne'
      · exact h.asked hmem
    cases answer with
    | notLeader => cases hs'; exact h
    | answered => cases hs'; exact hpublished (h.set_nodes hne') hp
    | unread => cases hs'; exact hpublished (h.set_nodes hne') hp
    | overwritten => cases hs'; exact hpublished h hp
    | leadershipLost => cases hs'; exact hasked
    | unanswered => cases hs'; exact hasked
    | timeout => cases hs'; exact hpublished hasked hp
  | endPass =>
    cases hs
    exact h.of_process (fun h' => nomatch h') fun hsame => { hup hsame with }
  | boot => cases hs
  | reportLeader args => cases hs
  | applyAsked i => cases hs

theorem sound_step (hcareful : Careful r s e) (h : Sound r s) (hs : s.step r e = some s') :
    Sound r s' := by
  have hact : ∀ {e : SiteEvent}, Careful r s e → (match s.process with
      | some p => s.act r p e
      | none => none) = some s' → Sound r s' := by
    intro e hcareful hs
    split at hs
    · next p hp => exact h.act hp hcareful hs
    · cases hs
  cases e with
  | boot =>
    obtain ⟨hdown, hs⟩ := Option.ite_none_right_eq_some.1 hs
    cases hs
    refine h.of_process (fun h' => nomatch h') fun hsame => ?_
    exact { early := fun _ => ⟨rfl, rfl, rfl, rfl, h.down (Option.isNone_iff_eq_none.1 hdown) hsame⟩
            frozen := nofun, placed := nofun, committed := fun h' => absurd rfl h', closed := nofun }
  | reportLeader args =>
    cases hs
    refine { h with named := fun {placement} hget => ?_ }
    obtain ⟨placement', hget', hnodes⟩ := nodes_applyReportLeader hget
    exact hnodes ▸ h.named hget'
  | applyAsked i =>
    obtain ⟨args, hget, rfl⟩ := Option.map_eq_some_iff.1 hs
    exact h.set_nodes (h.asked (mem_of_getElem? hget))
  | heard => exact hact hcareful hs
  | forgetNote node => exact hact hcareful hs
  | close => exact hact hcareful hs
  | dropMigration => exact hact hcareful hs
  | abort => exact hact hcareful hs
  | crash => exact hact hcareful hs
  | load => exact hact hcareful hs
  | recover => exact hact hcareful hs
  | write => exact hact hcareful hs
  | beginPass => exact hact hcareful hs
  | publishNodes addresses answer => exact hact hcareful hs
  | endPass => exact hact hcareful hs

/-- **A move that has landed stays**: after `MOVE_SHARD` has been applied, in every run whose steps are
careful, the table does not name the source set again and no group on the source set
acknowledges a write. -/
theorem landed_move_stays {V : Type} (py : Python V) (r : Relocation) {m : MetadataStateMachine}
    {args : MoveShard} (hid : args.shardId = r.shardId) (hnodes : args.nodes = r.target)
    (happlied : (m.applyMoveShard py args).2 = .success) (nodesPublished : Bool)
    (pass : Option Bool) {events : List SiteEvent}
    (hcareful : Along (step r) (Careful r)
      (landed r (m.applyMoveShard py args).1 nodesPublished pass) events)
    (hrun : run (step r) (landed r (m.applyMoveShard py args).1 nodesPublished pass) events =
      some s) :
    (∀ nodes, s.nodes r = some nodes → ¬ SameSet nodes r.source) ∧ s.acked = false := by
  obtain ⟨placement, hget, hplaced, -⟩ := (serves_of_success happlied).there
  have hstart : Sound r (landed r (m.applyMoveShard py args).1 nodesPublished pass) := by
    refine sound_landed fun {placement'} hget' => ?_
    rw [← hid, hget] at hget'
    cases hget'
    rw [hplaced, hnodes]
    exact r.target_ne
  have h := hcareful.invariant (fun _ _ _ hP hI hs => sound_step hP hI hs) hstart hrun
  refine ⟨fun nodes hnamed => ?_, h.quiet⟩
  obtain ⟨placement', hget', rfl⟩ := Option.map_eq_some_iff.1 hnamed
  exact h.named hget'

/-! ## A cluster of four nodes -/

/-- Shard 0 goes from the nodes 1 and 2, where it was started, to the nodes 3 and 4. -/
def relocation : Relocation :=
  { shardId := 0, source := [1, 2], target := [3, 4], startup := [1, 2]
    somewhere := by decide, away := by decide }

/-- The command that was applied. -/
def moveCommand : MoveShard :=
  { shardId := 0, fromNodes := [1, 2], nodes := [3, 4], addresses := .ofList [(3, "a"), (4, "b")] }

/-- The table before it. -/
def tableBefore : MetadataStateMachine :=
  ((MetadataStateMachine.init.applyInitRoutes MetadataStateMachine.twoRanges).1.applySetShardNodes
    ⟨0, [1, 2], .empty⟩).1

/-- The site when `moveCommand` has been applied. -/
def movedSite : Site :=
  landed relocation (tableBefore.applyMoveShard MetadataStateMachine.plain moveCommand).1 true none

/-- The cluster is started again, as far as the publisher's first word about the shard. -/
def restarted : List SiteEvent := [.crash, .boot, .load, .beginPass]

/-- The cluster crashes while one of two notes is left, finishes the move when it is back, and
publishes the new set. -/
theorem landed_move_stays_restart : ∃ s,
    run (step relocation) movedSite ([.heard, .forgetNote 1] ++ restarted ++
      [.endPass, .recover, .forgetNote 2, .close, .dropMigration, .beginPass,
        .publishNodes .empty .answered]) = some s ∧
    s.nodes relocation = some [3, 4] ∧
    (∀ nodes, s.nodes relocation = some nodes → ¬ SameSet nodes relocation.source) ∧
    s.acked = false := by
  refine Transition.exists_run (p := fun s => s.nodes relocation = some [3, 4]) (by decide +kernel)
    fun s hrun hnodes => ⟨hnodes, landed_move_stays plain relocation rfl rfl
      (by decide +kernel) true none ?_ hrun⟩
  refine ⟨trivial, trivial, fun _ => ⟨2, by decide, by decide +kernel⟩, trivial, trivial, trivial,
    trivial, trivial, trivial, trivial, trivial, trivial, fun p hp => ?_, trivial⟩
  cases hp
  rfl

/-- **A move that has landed is undone**: the cluster crashes when the notes are deleted and the source's
groups are not closed yet.  The publisher writes the start-up placement back, and the group
on the source set takes a row. -/
theorem landed_move_undone : ∃ s,
    run (step relocation) movedSite ([.heard, .forgetNote 1, .forgetNote 2] ++ restarted ++
      [.publishNodes .empty .answered, .write]) = some s ∧
    s.nodes relocation = some relocation.source ∧ s.acked = true :=
  Transition.exists_of_any (by decide +kernel)

end Site
end OxideDB.Shard
