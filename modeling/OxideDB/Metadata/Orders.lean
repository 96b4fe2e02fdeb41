import OxideDB.Metadata.Routing
import OxideDB.Transition

/-!
# What a command says, and what it does to a shard

A command is read before the table is looked at: its arguments make an order, or it is refused
whatever the table is.  An order changes the placement of the shards it names and of no others, and
each of the four that do changes a few fields.  What happens to a placement over a log of commands is
read off that.

* `Order`, `order?`, `Order.carry` — a command that could be read, and what it does.
-/

namespace OxideDB.Metadata

open MetadataStateMachine

/-- A command that could be read. -/
inductive Order where
  | initRoutes (ranges : RangeMap)
  | setShardNodes (args : SetShardNodes)
  | reportLeader (args : ReportLeader)
  | split (args : Split)
  | moveShard (args : MoveShard)

namespace Order

/-- The shards an order names. -/
def names : Order → List ℤ
  | .initRoutes _ => []
  | .setShardNodes args => [args.shardId]
  | .reportLeader args => [args.shardId]
  | .split args => [args.shardId, args.newShardId]
  | .moveShard args => [args.shardId]

variable {V : Type} (py : Python V)

/-- What the order does to a table. -/
def carry (m : MetadataStateMachine) : Order → MetadataStateMachine × Result
  | .initRoutes ranges => m.applyInitRoutes ranges
  | .setShardNodes args => m.applySetShardNodes args
  | .reportLeader args => m.applyReportLeader args
  | .split args => m.applySplit py args
  | .moveShard args => m.applyMoveShard py args

end Order

variable {V : Type} {py : Python V} {m : MetadataStateMachine} {payload : Payload V}

/-- The order in a command, if it can be read. -/
def order? (py : Python V) : Payload V → Option Order
  | .error _ => none
  | .ok cmd =>
    match cmd.type with
    | .initRoutes => (do py.ranges (← cmd.get "ranges")).toOption.map .initRoutes
    | .setShardNodes => (readSetShardNodes py cmd).toOption.map .setShardNodes
    | .reportLeader => (readReportLeader py cmd).toOption.map .reportLeader
    | .split => (readSplit py cmd).toOption.map .split
    | .moveShard => (readMoveShard py cmd).toOption.map .moveShard
    | .unknown _ => none

section

variable (m : MetadataStateMachine)

theorem apply_ok (cmd : Command V) :
    m.apply py (.ok cmd) = match m.applyCommand py cmd with
      | .ok applied => applied
      | .error raised => (m, .failure 2 s!"Apply error: {raised}") := rfl

theorem applyCommand_order {cmd : Command V} {o : Order} (ho : order? py (.ok cmd) = some o) :
    m.applyCommand py cmd = .ok (o.carry py m) := by
  have hread : ∀ {A : Type} {x : Except String A} {f : A → Order}, x.toOption.map f = some o →
      ∃ a, x = .ok a ∧ f a = o := by
    intro A x f h
    cases x with
    | error e => cases h
    | ok a => exact ⟨a, rfl, Option.some.inj h⟩
  obtain ⟨type, field⟩ := cmd
  cases type with
  | initRoutes =>
    obtain ⟨ranges, hranges, rfl⟩ := hread ho
    obtain ⟨v, hv, hranges⟩ := bind_ok hranges
    show (Command.get _ "ranges" >>= _) = _
    rw [hv]
    show (py.ranges v >>= _) = _
    rw [hranges]
    rfl
  | setShardNodes =>
    obtain ⟨args, hargs, rfl⟩ := hread ho
    show (readSetShardNodes py _ >>= _) = _
    rw [hargs]
    rfl
  | reportLeader =>
    obtain ⟨args, hargs, rfl⟩ := hread ho
    show (readReportLeader py _ >>= _) = _
    rw [hargs]
    rfl
  | split =>
    obtain ⟨args, hargs, rfl⟩ := hread ho
    show (readSplit py _ >>= _) = _
    rw [hargs]
    rfl
  | moveShard =>
    obtain ⟨args, hargs, rfl⟩ := hread ho
    show (readMoveShard py _ >>= _) = _
    rw [hargs]
    rfl
  | unknown text => cases ho

/-- **A command is its order.** -/
theorem apply_order {o : Order} (ho : order? py payload = some o) :
    m.apply py payload = o.carry py m := by
  cases payload with
  | error e => cases ho
  | ok cmd => rw [apply_ok, applyCommand_order m ho]

/-- **Without an order it is refused**, whatever the table is. -/
theorem apply_no_order (ho : order? py payload = none) :
    ∃ code msg, m.apply py payload = (m, .failure code msg) := by
  cases payload with
  | error e => exact ⟨_, _, rfl⟩
  | ok cmd =>
    rw [apply_ok]
    cases happly : m.applyCommand py cmd with
    | error e => exact ⟨_, _, rfl⟩
    | ok applied =>
      have hunread : ∀ {A : Type} {x : Except String A} {f : A → Order} {a : A},
          x.toOption.map f = none → ¬ x = .ok a := by
        rintro A x f a h rfl
        cases h
      obtain ⟨type, field⟩ := cmd
      cases type with
      | initRoutes =>
        obtain ⟨v, hv, happly⟩ := bind_ok happly
        obtain ⟨ranges, hranges, -⟩ := bind_ok happly
        refine absurd ?_ (hunread (a := ranges) ho)
        rw [hv]
        exact hranges
      | setShardNodes =>
        obtain ⟨args, hargs, -⟩ := bind_ok happly
        exact absurd hargs (hunread ho)
      | reportLeader =>
        obtain ⟨args, hargs, -⟩ := bind_ok happly
        exact absurd hargs (hunread ho)
      | split =>
        obtain ⟨args, hargs, -⟩ := bind_ok happly
        exact absurd hargs (hunread ho)
      | moveShard =>
        obtain ⟨args, hargs, -⟩ := bind_ok happly
        exact absurd hargs (hunread ho)
      | unknown text =>
        cases happly
        exact ⟨_, _, rfl⟩

end

/-! ## A shard's placement -/

/-- What an order makes of the placement of the shard `k`. -/
inductive Turn (k : ℤ) (p : ShardPlacement) : Order → ShardPlacement → Prop
  | same (o : Order) : Turn k p o p
  | nodes (args : SetShardNodes) (hk : args.shardId = k) :
      Turn k p (.setShardNodes args) { p with
        nodes := args.nodes
        addresses := args.addresses
        leaderId := if p.leaderId.any (fun leader => leader ∉ args.nodes) then none else p.leaderId
        leaderTerm := if p.leaderId.any (fun leader => leader ∉ args.nodes) then 0
          else p.leaderTerm }
  | leader (args : ReportLeader) (hk : args.shardId = k)
      (hterm : p.leaderId ≠ none → p.leaderTerm < args.term) :
      Turn k p (.reportLeader args) { p with leaderId := some args.nodeId, leaderTerm := args.term }
  | cut (args : Split) (hk : args.shardId = k) :
      Turn k p (.split args) { p with shardId := k, stop := args.splitKey }
  | moved (args : MoveShard) (hk : args.shardId = k) (hne : p.nodes ≠ args.nodes) :
      Turn k p (.moveShard args) { p with
        nodes := args.nodes
        addresses := args.addresses
        leaderId := none
        leaderTerm := 0 }

namespace Order

variable {k : ℤ} {p : ShardPlacement}

theorem placed {o : Order} {k' : ℤ} {q : ShardPlacement} (hp : m.shards.get? k = some p)
    (hq : k' = k → Turn k p o q) :
    ∃ p', (m.place k' q).shards.get? k = some p' ∧ Turn k p o p' := by
  rw [place, Dict.get?_set]
  split
  · next heq => exact ⟨q, rfl, hq heq.symm⟩
  · exact ⟨p, hp, .same o⟩

theorem turn_setShardNodes (args : SetShardNodes) (hp : m.shards.get? k = some p) :
    ∃ p', (m.applySetShardNodes args).1.shards.get? k = some p' ∧
      Turn k p (.setShardNodes args) p' := by
  unfold applySetShardNodes
  dsimp only
  split
  · exact ⟨p, hp, .same _⟩
  next placement hget =>
  refine placed hp fun hk => ?_
  cases (hk ▸ hget).symm.trans hp
  exact .nodes args hk

theorem turn_reportLeader (args : ReportLeader) (hp : m.shards.get? k = some p) :
    ∃ p', (m.applyReportLeader args).1.shards.get? k = some p' ∧
      Turn k p (.reportLeader args) p' := by
  unfold applyReportLeader
  dsimp only
  split
  · exact ⟨p, hp, .same _⟩
  next placement hget =>
  split
  · exact ⟨p, hp, .same _⟩
  split
  · exact ⟨p, hp, .same _⟩
  next hterm =>
  refine placed hp fun hk => ?_
  cases (hk ▸ hget).symm.trans hp
  exact .leader args hk fun hne => not_le.1 fun hle => hterm ⟨hne, hle⟩

theorem turn_split (args : Split) (hp : m.shards.get? k = some p) :
    ∃ p', (m.applySplit py args).1.shards.get? k = some p' ∧ Turn k p (.split args) p' := by
  unfold applySplit
  dsimp only
  split
  · unfold splitAgain
    dsimp only
    split
    · split <;> exact ⟨p, hp, .same _⟩
    · exact ⟨p, hp, .same _⟩
  next hnew =>
  split
  · exact ⟨p, hp, .same _⟩
  next placement hget =>
  split
  swap
  · exact ⟨p, hp, .same _⟩
  split
  · exact ⟨p, hp, .same _⟩
  -- the new shard is not `k`, which is in the table
  have hne : k ≠ args.newShardId := by
    rintro rfl
    rw [hnew] at hp
    cases hp
  rw [Dict.get?_set_of_ne _ _ hne, Dict.get?_set]
  split
  · next hk =>
    subst hk
    cases hget.symm.trans hp
    exact ⟨_, rfl, .cut args rfl⟩
  · exact ⟨p, hp, .same _⟩

theorem turn_moveShard (args : MoveShard) (hp : m.shards.get? k = some p) :
    ∃ p', (m.applyMoveShard py args).1.shards.get? k = some p' ∧
      Turn k p (.moveShard args) p' := by
  unfold applyMoveShard
  dsimp only
  split
  · exact ⟨p, hp, .same _⟩
  next placement hget =>
  split
  · exact ⟨p, hp, .same _⟩
  split
  · split <;> exact ⟨p, hp, .same _⟩
  next hne =>
  split
  · exact ⟨p, hp, .same _⟩
  split
  · exact ⟨p, hp, .same _⟩
  · refine placed hp fun hk => ?_
    cases (hk ▸ hget).symm.trans hp
    exact .moved args hk hne

/-- **An order on a table that has the shard `k`.** -/
theorem turn (o : Order) (hp : m.shards.get? k = some p) :
    ∃ p', (o.carry py m).1.shards.get? k = some p' ∧ Turn k p o p' := by
  cases o with
  | initRoutes ranges =>
    have hne : m.shards.entries ≠ [] := fun hnil => by
      rw [Dict.entries_eq_nil.1 hnil k] at hp
      cases hp
    rw [carry, applyInitRoutes, if_pos hne]
    exact ⟨p, hp, .same _⟩
  | setShardNodes args => exact turn_setShardNodes args hp
  | reportLeader args => exact turn_reportLeader args hp
  | split args => exact turn_split args hp
  | moveShard args => exact turn_moveShard args hp

end Order

/-- **A command on a table that has the shard `k`.** -/
theorem apply_turn (py : Python V) (payload : Payload V) {k : ℤ} {p : ShardPlacement}
    (hp : m.shards.get? k = some p) :
    ∃ p', (m.apply py payload).1.shards.get? k = some p' ∧
      (p' = p ∨ ∃ o, order? py payload = some o ∧ Turn k p o p') := by
  cases ho : order? py payload with
  | none =>
    obtain ⟨code, msg, happly⟩ := apply_no_order m ho
    rw [happly]
    exact ⟨p, hp, .inl rfl⟩
  | some o =>
    obtain ⟨p', hp', hturn⟩ := o.turn (V := V) hp
    rw [apply_order m ho]
    exact ⟨p', hp', .inr ⟨o, rfl, hturn⟩⟩

/-! ## Logs -/

/-- One command of a log, as a step. -/
def logStep (py : Python V) (m : MetadataStateMachine) (payload : Payload V) :
    Option MetadataStateMachine :=
  some (m.apply py payload).1

theorem run_logStep (py : Python V) (m : MetadataStateMachine) (payloads : List (Payload V)) :
    Transition.run (logStep py) m payloads = some (m.replay py payloads) := by
  induction payloads generalizing m with
  | nil => rfl
  | cons payload payloads ih => exact ih _

end OxideDB.Metadata
