import OxideDB.Metadata.Orders

/-!
# Claims of leadership

`REPORT_LEADER` is accepted when the table names no leader, or one of an older term.  The newest claim
is kept in the shard's placement and nowhere else, so it lasts as long as the placement keeps it: a
split does, a move gives it up with the group, and a `SET_SHARD_NODES` without the node that leads
gives it up with the node.
-/

namespace OxideDB.Metadata

open Option

variable {V : Type} {py : Python V} {m : MetadataStateMachine} {k T : ℤ} {payload : Payload V}

/-- A `MOVE_SHARD` of `k` leaves the table as it is. -/
def Unmoved (py : Python V) (k : ℤ) (m : MetadataStateMachine) (payload : Payload V) : Prop :=
  ∀ args, order? py payload = some (.moveShard args) → args.shardId = k →
    (m.apply py payload).1 = m

/-- A `SET_SHARD_NODES` of `k` has the leader that the table names. -/
def KeepsLeader (py : Python V) (k : ℤ) (m : MetadataStateMachine) (payload : Payload V) : Prop :=
  ∀ args, order? py payload = some (.setShardNodes args) → args.shardId = k →
    ∀ p, m.shards.get? k = some p → ∀ leader, p.leaderId = some leader → leader ∈ args.nodes

/-- The table names a leader of `k`, of the term `T` or a later one. -/
def Claimed (k T : ℤ) (m : MetadataStateMachine) : Prop :=
  ∃ p leader, m.shards.get? k = some p ∧ p.leaderId = some leader ∧ T ≤ p.leaderTerm

theorem Claimed.step (h : Claimed k T m) (hmove : Unmoved py k m payload)
    (hkeep : KeepsLeader py k m payload) : Claimed k T (m.apply py payload).1 := by
  obtain ⟨p, leader, hp, hleader, hT⟩ := h
  obtain ⟨p', hp', rfl | ⟨o, ho, hturn⟩⟩ := apply_turn py payload hp
  · exact ⟨p', leader, hp', hleader, hT⟩
  cases hturn with
  | same => exact ⟨p, leader, hp', hleader, hT⟩
  | nodes args hk =>
    have hin : leader ∈ args.nodes := hkeep args ho hk p hp leader hleader
    have hstays : (p.leaderId.any fun leader => leader ∉ args.nodes) = false := by
      rw [hleader, any_some, decide_eq_false (not_not.2 hin)]
    rw [hstays] at hp'
    exact ⟨_, leader, hp', hleader, hT⟩
  | leader args hk hterm =>
    have hlt : p.leaderTerm < args.term := hterm (by rw [hleader]; exact some_ne_none _)
    exact ⟨_, args.nodeId, hp', rfl, hT.trans hlt.le⟩
  | cut args hk => exact ⟨_, leader, hp', hleader, hT⟩
  | moved args hk hne =>
    -- a move that takes effect changes the replica set
    rw [hmove args ho hk, hp] at hp'
    exact absurd (congrArg ShardPlacement.nodes (some.inj hp')) hne

theorem claimed_of_report {args : ReportLeader} (ho : order? py payload = some (.reportLeader args))
    (hok : (m.apply py payload).2 = .success) :
    Claimed args.shardId args.term (m.apply py payload).1 := by
  rw [apply_order m ho] at hok ⊢
  unfold Order.carry MetadataStateMachine.applyReportLeader at hok ⊢
  dsimp only at hok ⊢
  split at hok
  · cases hok
  split at hok
  · cases hok
  split at hok
  · cases hok
  next hserves hterm =>
  rw [if_neg hserves, if_neg hterm]
  exact ⟨_, args.nodeId, Dict.get?_set_self .., rfl, le_rfl⟩

/-- A report of an older term than the table names. -/
theorem Claimed.refuses (h : Claimed k T m) {args : ReportLeader}
    (ho : order? py payload = some (.reportLeader args)) (hk : args.shardId = k)
    (hterm : args.term < T) : (m.apply py payload).2 ≠ .success := by
  obtain ⟨p, leader, hp, hleader, hT⟩ := h
  rw [apply_order m ho]
  unfold Order.carry MetadataStateMachine.applyReportLeader
  dsimp only
  rw [hk, hp]
  dsimp only
  split
  · rintro ⟨⟩
  · rw [if_pos ⟨by rw [hleader]; exact some_ne_none _, hterm.le.trans hT⟩]
    rintro ⟨⟩

/-- **Claims of leadership go forward**: after a report that was accepted, and any commands that do
not move the shard and leave the leader the table names in the replica set, a report of an older term
is refused. -/
theorem leader_claims_forward (py : Python V) (m : MetadataStateMachine) (report : Payload V)
    (args : ReportLeader) (hreport : order? py report = some (.reportLeader args))
    (hok : (m.apply py report).2 = .success) (payloads : List (Payload V))
    (hkeep : Transition.Along (logStep py)
      (fun m payload => Unmoved py args.shardId m payload ∧ KeepsLeader py args.shardId m payload)
      (m.apply py report).1 payloads)
    (later : Payload V) (args' : ReportLeader) (hlater : order? py later = some (.reportLeader args'))
    (hsame : args'.shardId = args.shardId) (hterm : args'.term < args.term) :
    (((m.apply py report).1.replay py payloads).apply py later).2 ≠ .success := by
  refine Claimed.refuses (k := args.shardId) (T := args.term) ?_ hlater hsame hterm
  refine hkeep.invariant (I := Claimed args.shardId args.term) ?_
    (claimed_of_report hreport hok) (run_logStep py _ payloads)
  rintro m payload _ ⟨hunmoved, hkeeps⟩ h ⟨⟩
  exact h.step hunmoved hkeeps

open MetadataStateMachine (init Value plain command)

/-- The nodes that serve shard 0. -/
def settingNodes (nodes : List ℤ) : Payload Value :=
  command .setShardNodes [("shard_id", .int 0), ("nodes", .list (nodes.map .int)),
    ("addresses", .list [])]

/-- A node reports that it leads shard 0. -/
def reporting (nodeId term : ℤ) : Payload Value :=
  command .reportLeader [("shard_id", .int 0), ("node_id", .int nodeId), ("term", .int term)]

/-- Shard 0 is served by the nodes 1, 2 and 3, and node 1 leads it in term 3. -/
def firstLeader : List (Payload Value) :=
  [command .initRoutes [("ranges", .list [.list [.int 0, .bytes [], .bytes [8]]])],
    settingNodes [1, 2, 3], reporting 1 3]

/-- Node 2 leads in term 5, and node 4 takes the place of node 1. -/
theorem leader_claims_forward_replaced :
    ∃ m, init.replay plain firstLeader = m ∧ (m.apply plain (reporting 2 5)).2 = .success ∧
      (((m.apply plain (reporting 2 5)).1.replay plain [settingNodes [2, 3, 4]]).apply plain
        (reporting 3 4)).2 ≠ .success := by
  refine ⟨_, rfl, by decide +kernel, leader_claims_forward plain _ (reporting 2 5) ⟨0, 2, 5⟩ rfl
    (by decide +kernel) [settingNodes [2, 3, 4]] ⟨⟨?_, ?_⟩, trivial⟩ (reporting 3 4) ⟨0, 3, 4⟩ rfl rfl
    (by decide)⟩
  · rintro args ⟨⟩
  · rintro args ho - p hp leader hleader
    obtain rfl := Order.setShardNodes.inj (some.inj ho)
    have hnow : (((init.replay plain firstLeader).apply plain (reporting 2 5)).1.shards.get? 0).bind
        ShardPlacement.leaderId = some 2 := by decide +kernel
    have hthere : ((init.replay plain firstLeader).apply plain (reporting 2 5)).1.shards.get? 0 =
      some p := hp
    rw [hthere, bind_some, hleader] at hnow
    cases hnow
    decide

/-- **A leader that is replaced is forgotten with its term**: node 2, which leads in term 5, leaves the
replica set, and node 1 is accepted with its claim of term 3 again. -/
theorem replaced_leader_forgotten :
    ∃ m, init.replay plain firstLeader = m ∧ (m.apply plain (reporting 2 5)).2 = .success ∧
      Transition.Along (logStep plain) (Unmoved plain 0) (m.apply plain (reporting 2 5)).1
        [settingNodes [1, 3, 4]] ∧
      (((m.apply plain (reporting 2 5)).1.replay plain [settingNodes [1, 3, 4]]).apply plain
        (reporting 1 3)).2 = .success := by
  refine ⟨_, rfl, by decide +kernel, ⟨?_, trivial⟩, by decide +kernel⟩
  rintro args ⟨⟩

end OxideDB.Metadata
