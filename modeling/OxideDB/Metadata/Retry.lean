import OxideDB.Metadata.Orders

/-!
# Proposing a split or a move again

A caller that has lost an answer proposes again.  No identifier says that the second proposal is the
first one: a split is known by where the two shards meet and by the nodes of the new one, a move by
the nodes and the addresses.  Reports of leaders change none of these, and neither do refused commands
and commands about other shards.
-/

namespace OxideDB.Metadata

open MetadataStateMachine Dict

variable {V : Type} {py : Python V} {m : MetadataStateMachine} {k : ℤ} {p : ShardPlacement}
  {payload : Payload V} {shards : List ℤ}

/-- A report of a leader, a command that is refused, or one about none of the shards. -/
def Harmless (py : Python V) (shards : List ℤ) (m : MetadataStateMachine) (payload : Payload V) :
    Prop :=
  (∃ args, order? py payload = some (.reportLeader args)) ∨ (m.apply py payload).2 ≠ .success ∨
    ∃ o, order? py payload = some o ∧ ∀ k ∈ shards, k ∉ o.names

/-- The same range, the same nodes at the same addresses. -/
structure SamePlace (p p' : ShardPlacement) : Prop where
  start : p'.start = p.start
  stop : p'.stop = p.stop
  nodes : p'.nodes = p.nodes
  addresses : p'.addresses = p.addresses

/-- What a harmless command leaves of a shard. -/
theorem Harmless.samePlace (h : Harmless py shards m payload) (hk : k ∈ shards)
    (hp : m.shards.get? k = some p) :
    ∃ p', (m.apply py payload).1.shards.get? k = some p' ∧ SamePlace p p' := by
  have hrefl : SamePlace p p := ⟨rfl, rfl, rfl, rfl⟩
  obtain ⟨p', hp', rfl | ⟨o, ho, hturn⟩⟩ := apply_turn py payload hp
  · exact ⟨p', hp', hrefl⟩
  rcases h with ⟨args, hargs⟩ | hrefused | ⟨o', ho', hnames⟩
  · cases hargs.symm.trans ho
    cases hturn with
    | same => exact ⟨p, hp', hrefl⟩
    | leader => exact ⟨_, hp', ⟨rfl, rfl, rfl, rfl⟩⟩
  · have hchange : MetadataStateMachine.Change py m payload (m.apply py payload).1
        (m.apply py payload).2 := apply_change rfl
    rw [hchange.refused_eq hrefused]
    exact ⟨p, hp, hrefl⟩
  · cases ho'.symm.trans ho
    cases hturn with
    | same => exact ⟨p, hp', hrefl⟩
    | nodes _ hk' | leader _ hk' | moved _ hk' | cut _ hk' =>
      exact absurd (hk' ▸ List.mem_cons_self) (hnames k hk)

/-! ## Splits -/

/-- The two shards meet at the split point, and the new one has the nodes that were asked for. -/
structure SplitStands (args : Split) (m : MetadataStateMachine) : Prop where
  left : ∃ p, m.shards.get? args.shardId = some p ∧ p.stop = args.splitKey
  right : ∃ p, m.shards.get? args.newShardId = some p ∧ p.start = args.splitKey ∧
    p.nodes = args.nodes

namespace SplitStands

variable {args : Split}

theorem step (h : SplitStands args m) (hharmless : Harmless py (Order.split args).names m payload) :
    SplitStands args (m.apply py payload).1 where
  left := by
    obtain ⟨p, hp, hstop⟩ := h.left
    obtain ⟨p', hp', hsame⟩ := hharmless.samePlace List.mem_cons_self hp
    exact ⟨p', hp', hsame.stop.trans hstop⟩
  right := by
    obtain ⟨p, hp, hstart, hnodes⟩ := h.right
    obtain ⟨p', hp', hsame⟩ :=
      hharmless.samePlace (List.mem_cons_of_mem _ List.mem_cons_self) hp
    exact ⟨p', hp', hsame.start.trans hstart, hsame.nodes.trans hnodes⟩

theorem of_success (hok : (m.applySplit py args).2 = .success) :
    SplitStands args (m.applySplit py args).1 := by
  unfold applySplit at hok ⊢
  dsimp only at hok ⊢
  split at hok
  · next right hright =>
    -- it had been applied before
    unfold splitAgain at hok ⊢
    dsimp only at hok ⊢
    split at hok
    swap
    · cases hok
    next hmeet =>
    split at hok
    swap
    · cases hok
    next hnodes =>
    rw [if_pos hmeet, if_pos hnodes]
    cases hleft : m.shards.get? args.shardId with
    | none =>
      rw [hleft] at hmeet
      cases hmeet.1
    | some left =>
      rw [hleft] at hmeet
      exact ⟨⟨left, hleft, of_decide_eq_true hmeet.1⟩, right, hright, hmeet.2, hnodes⟩
  next hnew =>
  split at hok
  · cases hok
  next placement hget =>
  split at hok
  swap
  · cases hok
  next hinside =>
  split at hok
  · next refusal hoverlap =>
    obtain ⟨code, msg, rfl⟩ := overlap_refuses hoverlap
    cases hok
  rw [if_pos hinside]
  have hne : args.shardId ≠ args.newShardId := by
    intro heq
    rw [heq, hnew] at hget
    cases hget
  refine ⟨⟨{ placement with shardId := args.shardId, stop := args.splitKey }, ?_, rfl⟩, _,
    get?_set_self .., rfl, rfl⟩
  rw [get?_set_of_ne _ _ hne, get?_set_self]

theorem again (h : SplitStands args m) : m.applySplit py args = (m, .success) := by
  obtain ⟨left, hleft, hstop⟩ := h.left
  obtain ⟨right, hright, hstart, hnodes⟩ := h.right
  unfold applySplit
  rw [hright]
  dsimp only
  unfold splitAgain
  dsimp only
  rw [hleft, Option.any_some, if_pos ⟨decide_eq_true hstop, hstart⟩, if_pos hnodes]

theorem rival (h : SplitStands args m) {args' : Split} (hid : args'.shardId = args.shardId)
    (hnew : args'.newShardId = args.newShardId) (hkey : args'.splitKey = args.splitKey)
    (hnodes' : args'.nodes ≠ args.nodes) :
    ∃ code msg, m.applySplit py args' = (m, .failure code msg) := by
  obtain ⟨left, hleft, hstop⟩ := h.left
  obtain ⟨right, hright, hstart, hnodes⟩ := h.right
  unfold applySplit
  rw [hnew, hright]
  dsimp only
  unfold splitAgain
  dsimp only
  rw [hid, hkey, hleft, Option.any_some, if_pos ⟨decide_eq_true hstop, hstart⟩,
    if_neg fun heq => hnodes' (heq.symm.trans hnodes)]
  exact ⟨_, _, rfl⟩

end SplitStands

/-! ## Moves -/

/-- A replica set that a move accepts. -/
def MoveShard.Serves (args : MoveShard) : Prop :=
  ¬ (args.nodes = [] ∨ ¬ args.nodes.Nodup ∨
    args.nodes.any (fun nodeId => args.addresses.get? nodeId = none))

/-- The shard is served by the nodes that were asked for, at the addresses. -/
structure MoveStands (args : MoveShard) (m : MetadataStateMachine) : Prop where
  serves : args.Serves
  place : ∃ p, m.shards.get? args.shardId = some p ∧ p.nodes = args.nodes ∧
    p.addresses.sameAs args.addresses = true

namespace MoveStands

variable {args : MoveShard}

theorem step (h : MoveStands args m)
    (hharmless : Harmless py (Order.moveShard args).names m payload) :
    MoveStands args (m.apply py payload).1 where
  serves := h.serves
  place := by
    obtain ⟨p, hp, hnodes, haddresses⟩ := h.place
    obtain ⟨p', hp', hsame⟩ := hharmless.samePlace List.mem_cons_self hp
    exact ⟨p', hp', hsame.nodes.trans hnodes, hsame.addresses ▸ haddresses⟩

theorem of_success (hok : (m.applyMoveShard py args).2 = .success) :
    MoveStands args (m.applyMoveShard py args).1 := by
  unfold applyMoveShard at hok ⊢
  dsimp only at hok ⊢
  split at hok
  · cases hok
  next placement hget =>
  split at hok
  · cases hok
  next hserves =>
  rw [if_neg hserves]
  split at hok
  · next hnodes =>
    -- it had been applied before
    rw [if_pos hnodes]
    split at hok
    · next haddresses =>
      rw [if_pos haddresses]
      exact ⟨hserves, placement, hget, hnodes, haddresses⟩
    · cases hok
  next hnodes =>
  rw [if_neg hnodes]
  split at hok
  · cases hok
  next hfrom =>
  rw [if_neg hfrom]
  split at hok
  · cases hok
  next hdisjoint =>
  rw [if_neg hdisjoint]
  exact ⟨hserves, _, get?_set_self .., rfl, sameAs_iff.2 fun _ => rfl⟩

theorem again (h : MoveStands args m) : m.applyMoveShard py args = (m, .success) := by
  obtain ⟨p, hp, hnodes, haddresses⟩ := h.place
  unfold applyMoveShard
  dsimp only
  rw [hp]
  dsimp only
  rw [if_neg h.serves, if_pos hnodes, if_pos haddresses]

theorem rival (h : MoveStands args m) {args' : MoveShard} (hid : args'.shardId = args.shardId)
    (hnodes' : args'.nodes = args.nodes)
    (haddresses' : args'.addresses.sameAs args.addresses = false) :
    ∃ code msg, m.applyMoveShard py args' = (m, .failure code msg) := by
  obtain ⟨p, hp, hnodes, haddresses⟩ := h.place
  have hother : ¬ p.addresses.sameAs args'.addresses = true := by
    intro hsame
    have hall : args'.addresses.sameAs args.addresses = true := sameAs_iff.2 fun node =>
      (sameAs_iff.1 hsame node).symm.trans (sameAs_iff.1 haddresses node)
    rw [hall] at haddresses'
    cases haddresses'
  unfold applyMoveShard
  dsimp only
  rw [hid, hp]
  dsimp only
  rw [if_pos (hnodes.trans hnodes'.symm), if_neg hother]
  split <;> exact ⟨_, _, rfl⟩

end MoveStands

/-! ## Retries -/

/-- A proposal that only looks like the first one: a split at the same point with other nodes, a move
to the same nodes at other addresses. -/
def Rival : Order → Order → Prop
  | .split args, .split args' =>
    args'.shardId = args.shardId ∧ args'.newShardId = args.newShardId ∧
      args'.splitKey = args.splitKey ∧ args'.nodes ≠ args.nodes
  | .moveShard args, .moveShard args' =>
    args'.shardId = args.shardId ∧ args'.nodes = args.nodes ∧
      args'.addresses.sameAs args.addresses = false
  | _, _ => False

/-- A split or a move. -/
def Order.Reshapes : Order → Prop
  | .split _ | .moveShard _ => True
  | _ => False

/-- **Splits and moves may be proposed again**: after one that was applied, and any harmless commands,
the same proposal succeeds and changes nothing, and its rivals are refused and change nothing. -/
theorem retry_safe (py : Python V) (m : MetadataStateMachine) (payload : Payload V) (o : Order)
    (ho : order? py payload = some o) (hkind : o.Reshapes) (hok : (m.apply py payload).2 = .success)
    (payloads : List (Payload V))
    (hlater : Transition.Along (logStep py) (Harmless py o.names) (m.apply py payload).1 payloads)
    (m' : MetadataStateMachine) (hm' : (m.apply py payload).1.replay py payloads = m') :
    m'.apply py payload = (m', .success) ∧
      ∀ (other : Payload V) (o' : Order), order? py other = some o' → Rival o o' →
        ∃ code msg, m'.apply py other = (m', .failure code msg) := by
  have hrun := run_logStep py (m.apply py payload).1 payloads
  rw [hm'] at hrun
  have hfirst := apply_order m ho
  rw [hfirst] at hok hlater hrun
  rw [apply_order m' ho]
  cases o with
  | split args =>
    have hstands : SplitStands args m' :=
      hlater.invariant (I := SplitStands args) (by rintro m payload _ hP h ⟨⟩; exact h.step hP)
        (SplitStands.of_success hok) hrun
    refine ⟨hstands.again, fun other o' ho' hrival => ?_⟩
    rw [apply_order m' ho']
    cases o' with
    | split args' => exact hstands.rival hrival.1 hrival.2.1 hrival.2.2.1 hrival.2.2.2
    | _ => exact hrival.elim
  | moveShard args =>
    have hstands : MoveStands args m' :=
      hlater.invariant (I := MoveStands args) (by rintro m payload _ hP h ⟨⟩; exact h.step hP)
        (MoveStands.of_success hok) hrun
    refine ⟨hstands.again, fun other o' ho' hrival => ?_⟩
    rw [apply_order m' ho']
    cases o' with
    | moveShard args' => exact hstands.rival hrival.1 hrival.2.1 hrival.2.2
    | _ => exact hrival.elim
  | _ => exact hkind.elim

open MetadataStateMachine (init Value plain command twoRanges splitAtFive)

/-- Node 7 reports that it leads shard 1, which a split has made. -/
def newLeader : Payload Value :=
  command .reportLeader [("shard_id", .int 1), ("node_id", .int 7), ("term", .int 1)]

/-- The same split, with other nodes. -/
def splitElsewhere : Payload Value :=
  command .split [("shard_id", .int 0), ("new_shard_id", .int 1), ("split_key", .bytes [5]),
    ("nodes", .list [.int 8]), ("addresses", .list [.list [.int 8, .str "b"]])]

theorem retry_safe_split : ∃ m',
    ((init.applyInitRoutes twoRanges).1.apply plain splitAtFive).1.replay plain [newLeader] = m' ∧
      m'.apply plain splitAtFive = (m', .success) ∧
      ∃ code msg, m'.apply plain splitElsewhere = (m', .failure code msg) := by
  obtain ⟨hagain, hrivals⟩ := retry_safe plain (init.applyInitRoutes twoRanges).1 splitAtFive
    (.split ⟨0, 1, [5], [7], .ofList [(7, "a")]⟩) rfl trivial (by decide +kernel) [newLeader]
    ⟨.inl ⟨_, rfl⟩, trivial⟩ _ rfl
  exact ⟨_, rfl, hagain, hrivals splitElsewhere (.split ⟨0, 1, [5], [8], .ofList [(8, "b")]⟩) rfl
    ⟨rfl, rfl, rfl, by decide⟩⟩

end OxideDB.Metadata
