import OxideDB.Metadata.Routing
import OxideDB.SortedTable
import OxideDB.Storage.Transfer

/-!
# Restoring a snapshot is replaying

A snapshot of the routing table has the shards and the addresses of each in the order of their ids,
and a machine that restores it has its dictionaries in that order.  The machine it was taken of may
have them in another.  No check looks at the order, so the two answer alike; two refusals do show it,
the one that names an overlapping shard (11) and the one that prints the addresses (16).
-/

namespace OxideDB.Metadata

open Raft (Bytes)

variable {placement placement' : ShardPlacement}

/-! ## Snapshots -/

namespace MetadataStateMachine

open List MetadataStateMachine Dict

/-- `snapshot`: the encoded table. -/
def snapshot (m : MetadataStateMachine) : ℕ × List ShardPlacement := m.tablePayload

/-- `restore`; `none` is the empty byte string. -/
def restore (_m : MetadataStateMachine) (data : Option (ℕ × List ShardPlacement)) :
    MetadataStateMachine :=
  match data with
  | none => init
  | some payload =>
    let table := parseTable payload
    { shards := table.shards, version := table.version }

/-- The key of the one thing there is to read. -/
def tableKey : Bytes := "routing_table".toUTF8.toList

/-- `get`, which does not look at a timestamp. -/
def get (reprBytes : Bytes → String) (m : MetadataStateMachine) (key : Bytes) :
    Except String (ℕ × List ShardPlacement) :=
  if key ≠ tableKey then
    let text := reprBytes key
    .error s!"No metadata key {text}"
  else .ok m.tablePayload

/-! ## The same table -/

/-- The same placement, its addresses in whatever order; or none on either side. -/
def Matched (placement? placement?' : Option ShardPlacement) : Prop :=
  placement? = none ∧ placement?' = none ∨
    ∃ placement addresses, placement? = some placement ∧
      placement?' = some { placement with addresses } ∧
      ∀ node, placement.addresses.get? node = addresses.get? node

theorem Matched.of_addresses {addresses : Dict ℤ String}
    (h : ∀ node, placement.addresses.get? node = addresses.get? node) :
    Matched (some placement) (some { placement with addresses }) :=
  .inr ⟨placement, addresses, rfl, rfl, h⟩

theorem Matched.refl (placement? : Option ShardPlacement) : Matched placement? placement? := by
  cases placement? with
  | none => exact .inl ⟨rfl, rfl⟩
  | some placement => exact .of_addresses fun _ => rfl

/-- The same table, its dictionaries in whatever order. -/
structure Alike (m m' : MetadataStateMachine) : Prop where
  version : m.version = m'.version
  shards (shardId : ℤ) : Matched (m.shards.get? shardId) (m'.shards.get? shardId)

/-- The same answer, but for the text of a refusal that shows the order of a dictionary. -/
inductive SameAnswer : Result → Result → Prop
  | same (r : Result) : SameAnswer r r
  | worded {code : ℕ} (hcode : code = 11 ∨ code = 16) (msg msg' : String) :
      SameAnswer (.failure code msg) (.failure code msg')

variable {V : Type} {py : Python V} {m m' : MetadataStateMachine} {shardId : ℤ}

/-- What a command does to two machines with the same table. -/
structure Parallel (x x' : MetadataStateMachine × Result) : Prop where
  alike : Alike x.1 x'.1
  answer : SameAnswer x.2 x'.2

section

variable (h : Alike m m')
include h

theorem Alike.refused (r : Result) : Parallel (m, r) (m', r) := ⟨h, .same r⟩

theorem Alike.place (hplace : Matched (some placement) (some placement')) :
    Alike (m.place shardId placement) (m'.place shardId placement') where
  version := congrArg (· + 1) h.version
  shards id := by
    simp only [MetadataStateMachine.place, get?_set]
    split
    · exact hplace
    · exact h.shards id

theorem Alike.entries_eq_nil : m.shards.entries = [] ↔ m'.shards.entries = [] := by
  rw [Dict.entries_eq_nil, Dict.entries_eq_nil]
  refine forall_congr' fun id => ?_
  rcases h.shards id with ⟨hm, hm'⟩ | ⟨_, _, hm, hm', -⟩ <;> simp [hm, hm']

theorem Alike.applyInitRoutes (ranges : RangeMap) :
    Parallel (m.applyInitRoutes ranges) (m'.applyInitRoutes ranges) := by
  by_cases hempty : m.shards.entries = []
  · rw [MetadataStateMachine.applyInitRoutes, MetadataStateMachine.applyInitRoutes,
      if_neg (not_not_intro hempty), if_neg (not_not_intro (h.entries_eq_nil.1 hempty)), h.version]
    exact ⟨⟨rfl, fun id => .refl _⟩, .same _⟩
  · rw [MetadataStateMachine.applyInitRoutes, MetadataStateMachine.applyInitRoutes, if_pos hempty,
      if_pos (fun heq => hempty (h.entries_eq_nil.2 heq))]
    exact h.refused _

theorem Alike.applySetShardNodes (args : SetShardNodes) :
    Parallel (m.applySetShardNodes args) (m'.applySetShardNodes args) := by
  rcases h.shards args.shardId with ⟨hm, hm'⟩ | ⟨placement, addresses, hm, hm', -⟩
  · simp only [MetadataStateMachine.applySetShardNodes, hm, hm']
    exact h.refused _
  · simp only [MetadataStateMachine.applySetShardNodes, hm, hm']
    exact ⟨h.place (.refl _), .same _⟩

theorem Alike.applyReportLeader (args : ReportLeader) :
    Parallel (m.applyReportLeader args) (m'.applyReportLeader args) := by
  rcases h.shards args.shardId with ⟨hm, hm'⟩ | ⟨placement, addresses, hm, hm', haddresses⟩
  · simp only [MetadataStateMachine.applyReportLeader, hm, hm']
    exact h.refused _
  simp only [MetadataStateMachine.applyReportLeader, hm, hm']
  split
  · exact h.refused _
  split
  · exact h.refused _
  · exact ⟨h.place (.of_addresses haddresses), .same _⟩

theorem Alike.splitAgain (args : Split) (right : ShardPlacement) (addresses : Dict ℤ String) :
    Parallel (m.splitAgain py args right)
      (m'.splitAgain py args { right with addresses }) := by
  have hany : (m.shards.get? args.shardId).any (·.stop = args.splitKey) =
      (m'.shards.get? args.shardId).any (·.stop = args.splitKey) := by
    rcases h.shards args.shardId with ⟨hm, hm'⟩ | ⟨_, _, hm, hm', -⟩
    · rw [hm, hm']
    · rw [hm, hm']
      rfl
  simp only [MetadataStateMachine.splitAgain, hany]
  split
  · split <;> exact h.refused _
  · exact h.refused _

end

/-- Some other shard's range meets a half. -/
def Overlaps (m : MetadataStateMachine) (shardId : ℤ) (halves : List ShardPlacement) : Prop :=
  ∃ id placement, m.shards.get? id = some placement ∧ id ≠ shardId ∧
    ∃ half ∈ halves, placement.start < half.stop ∧ half.start < placement.stop

theorem overlap_cases (py : Python V) (m : MetadataStateMachine) (shardId : ℤ)
    (halves : List ShardPlacement) :
    (∃ msg, m.overlap py shardId halves = some (.failure 11 msg)) ∧ m.Overlaps shardId halves ∨
      m.overlap py shardId halves = none ∧ ¬ m.Overlaps shardId halves := by
  rcases hover : m.overlap py shardId halves with _ | r
  · refine .inr ⟨rfl, ?_⟩
    rintro ⟨id, placement, hget, hne, half, hhalf, hmeet⟩
    have hother := findSome?_eq_none_iff.1 hover _ (get?_eq_some.1 hget)
    rw [if_neg hne] at hother
    have hno := findSome?_eq_none_iff.1 hother half hhalf
    rw [if_pos hmeet] at hno
    cases hno
  · obtain ⟨other, hother, hsome⟩ := exists_of_findSome?_eq_some hover
    split at hsome
    · cases hsome
    next hne =>
      obtain ⟨half, hhalf, hsome⟩ := exists_of_findSome?_eq_some hsome
      split at hsome
      · next hmeet =>
        cases hsome
        exact .inl ⟨⟨_, rfl⟩, other.1, other.2, get?_eq_some.2 hother, hne, half, hhalf, hmeet⟩
      · cases hsome

section

variable (h : Alike m m')
include h

/-- Whether there is an overlap does not depend on the order. -/
theorem Alike.overlaps {halves halves' : List ShardPlacement}
    (hhalves : halves.map (fun p => (p.start, p.stop)) = halves'.map fun p => (p.start, p.stop)) :
    m.Overlaps shardId halves ↔ m'.Overlaps shardId halves' := by
  have hmeets : ∀ (halves : List ShardPlacement) (start stop : Bytes),
      (∃ half ∈ halves, start < half.stop ∧ half.start < stop) ↔
        ∃ range ∈ halves.map fun p => (p.start, p.stop), start < range.2 ∧ range.1 < stop := by
    intro halves start stop
    simp
  unfold Overlaps
  refine exists_congr fun id => ?_
  simp only [hmeets, hhalves]
  rcases h.shards id with ⟨hm, hm'⟩ | ⟨_, _, hm, hm', -⟩ <;> simp [hm, hm']

/-- Which overlap is found first depends on the order, whether there is one does not. -/
theorem Alike.overlap (py : Python V) (shardId : ℤ) {halves halves' : List ShardPlacement}
    (hhalves : halves.map (fun p => (p.start, p.stop)) = halves'.map fun p => (p.start, p.stop)) :
    (∃ msg msg', m.overlap py shardId halves = some (.failure 11 msg) ∧
        m'.overlap py shardId halves' = some (.failure 11 msg')) ∨
      m.overlap py shardId halves = none ∧ m'.overlap py shardId halves' = none := by
  rcases overlap_cases py m shardId halves with ⟨⟨msg, hover⟩, hmeet⟩ | ⟨hover, hmeet⟩ <;>
    rcases overlap_cases py m' shardId halves' with ⟨⟨msg', hover'⟩, hmeet'⟩ | ⟨hover', hmeet'⟩
  · exact .inl ⟨msg, msg', hover, hover'⟩
  · exact absurd ((h.overlaps hhalves).1 hmeet) hmeet'
  · exact absurd ((h.overlaps hhalves).2 hmeet') hmeet
  · exact .inr ⟨hover, hover'⟩

theorem Alike.applySplit (args : Split) :
    Parallel (m.applySplit py args) (m'.applySplit py args) := by
  rcases h.shards args.newShardId with ⟨hnew, hnew'⟩ | ⟨right, addresses, hnew, hnew', -⟩
  swap
  · simp only [MetadataStateMachine.applySplit, hnew, hnew']
    exact h.splitAgain args right addresses
  rcases h.shards args.shardId with ⟨hm, hm'⟩ | ⟨placement, addresses, hm, hm', haddresses⟩
  · simp only [MetadataStateMachine.applySplit, hnew, hnew', hm, hm']
    exact h.refused _
  simp only [MetadataStateMachine.applySplit, hnew, hnew', hm, hm']
  split
  swap
  · exact h.refused _
  let right : ShardPlacement :=
    { shardId := args.newShardId, start := args.splitKey, stop := placement.stop,
      nodes := args.nodes, addresses := args.addresses }
  have hover := @Alike.overlap _ _ _ h py args.shardId
    [{ placement with shardId := args.shardId, stop := args.splitKey }, right]
    [{ placement with shardId := args.shardId, stop := args.splitKey, addresses }, right] rfl
  rcases hover with ⟨msg, msg', hover, hover'⟩ | ⟨hover, hover'⟩
  · rw [hover, hover']
    exact ⟨h, .worded (.inl rfl) msg msg'⟩
  rw [hover, hover', h.version]
  refine ⟨⟨rfl, fun id => ?_⟩, .same _⟩
  simp only [get?_set]
  split
  · exact .refl _
  split
  · exact .of_addresses haddresses
  · exact h.shards id

theorem Alike.applyMoveShard (args : MoveShard) :
    Parallel (m.applyMoveShard py args) (m'.applyMoveShard py args) := by
  rcases h.shards args.shardId with ⟨hm, hm'⟩ | ⟨placement, addresses, hm, hm', haddresses⟩
  · simp only [MetadataStateMachine.applyMoveShard, hm, hm']
    exact h.refused _
  have hsame : placement.addresses.sameAs args.addresses = addresses.sameAs args.addresses := by
    refine Bool.eq_iff_iff.2 ?_
    rw [sameAs_iff, sameAs_iff]
    exact forall_congr' fun node => by rw [haddresses node]
  simp only [MetadataStateMachine.applyMoveShard, hm, hm', hsame]
  split
  · exact h.refused _
  split
  · split
    · exact h.refused _
    · exact ⟨h, .worded (.inr rfl) _ _⟩
  split
  · exact h.refused _
  split
  · exact h.refused _
  · exact ⟨h.place (.refl _), .same _⟩

/-- **A command on two machines with the same table** is answered alike, and leaves the same
table. -/
theorem Alike.apply (payload : Payload V) :
    Parallel (m.apply py payload) (m'.apply py payload) := by
  rcases payload with e | cmd
  · exact h.refused _
  simp only [MetadataStateMachine.apply, Except.bind, applyCommand]
  cases cmd.type with
  | initRoutes =>
    rcases cmd.get "ranges" with e | v
    · exact h.refused _
    simp only [bind, Except.bind]
    rcases py.ranges v with e | ranges
    · exact h.refused _
    · exact h.applyInitRoutes ranges
  | setShardNodes =>
    rcases readSetShardNodes py cmd with e | args
    · exact h.refused _
    · exact h.applySetShardNodes args
  | reportLeader =>
    rcases readReportLeader py cmd with e | args
    · exact h.refused _
    · exact h.applyReportLeader args
  | split =>
    rcases readSplit py cmd with e | args
    · exact h.refused _
    · exact h.applySplit args
  | moveShard =>
    rcases readMoveShard py cmd with e | args
    · exact h.refused _
    · exact h.applyMoveShard args
  | unknown text => exact h.refused _

theorem Alike.tablePayload : m.tablePayload = m'.tablePayload := by
  -- both lists are in the order of the ids, and have the same entries
  have hrows : ∀ m : MetadataStateMachine,
      (m.shards.sorted.entries.map fun e =>
        (e.1, ({ e.2 with addresses := e.2.addresses.sorted } : ShardPlacement))).Pairwise
        fun e e' => e.1 < e'.1 :=
    fun m => pairwise_map.2 m.shards.pairwise_sorted
  have hmem : ∀ (m : MetadataStateMachine) (e : ℤ × ShardPlacement),
      e ∈ (m.shards.sorted.entries.map fun e =>
        (e.1, ({ e.2 with addresses := e.2.addresses.sorted } : ShardPlacement))) ↔
        (m.shards.get? e.1).map (fun p : ShardPlacement => { p with addresses := p.addresses.sorted }) =
          some e.2 := by
    intro m e
    rw [mem_map, Option.map_eq_some_iff]
    constructor
    · rintro ⟨e', he', rfl⟩
      exact ⟨e'.2, get?_eq_some.2 (mem_sorted.1 he'), rfl⟩
    · rintro ⟨p, hp, heq⟩
      exact ⟨(e.1, p), mem_sorted.2 (get?_eq_some.1 hp), Prod.ext rfl heq⟩
  have hsame := SortedTable.ext_rows (hrows m) (hrows m') fun e => by
    rw [hmem, hmem]
    rcases h.shards e.1 with ⟨hm, hm'⟩ | ⟨placement, addresses, hm, hm', haddresses⟩
    · rw [hm, hm']
    · rw [hm, hm', Option.map_some, Option.map_some, sorted_congr haddresses]
  rw [MetadataStateMachine.tablePayload, MetadataStateMachine.tablePayload, h.version]
  refine Prod.ext rfl ?_
  have hsnd := congrArg (map Prod.snd) hsame
  simpa only [map_map, Function.comp_def] using hsnd

end

/-! ## The table a snapshot carries -/

/-- Every placement stands under its own id. -/
def Keyed (m : MetadataStateMachine) : Prop :=
  ∀ shardId placement, m.shards.get? shardId = some placement → placement.shardId = shardId

section

variable (h : Keyed m)
include h

theorem Keyed.place (hget : m.shards.get? shardId = some placement)
    (hid : placement'.shardId = placement.shardId) : Keyed (m.place shardId placement') := by
  intro id placed hplaced
  simp only [MetadataStateMachine.place, get?_set] at hplaced
  split at hplaced
  · next heq =>
    rw [← Option.some.inj hplaced, hid, heq]
    exact h _ _ hget
  · exact h _ _ hplaced

theorem Keyed.applySetShardNodes (args : SetShardNodes) : Keyed (m.applySetShardNodes args).1 := by
  simp only [MetadataStateMachine.applySetShardNodes]
  split
  · exact h
  · next hget => exact h.place hget rfl

theorem Keyed.applyReportLeader (args : ReportLeader) : Keyed (m.applyReportLeader args).1 := by
  simp only [MetadataStateMachine.applyReportLeader]
  split
  · exact h
  next hget =>
    split
    · exact h
    split
    · exact h
    · exact h.place hget rfl

theorem Keyed.applySplit (args : Split) : Keyed (m.applySplit py args).1 := by
  simp only [MetadataStateMachine.applySplit]
  split
  · simp only [splitAgain]
    split
    · split <;> exact h
    · exact h
  split
  · exact h
  split
  · split
    · exact h
    -- the two halves, put one after the other
    intro id placement hget
    simp only [get?_set] at hget
    split at hget
    · next heq => rw [← Option.some.inj hget, heq]
    split at hget
    · next heq => rw [← Option.some.inj hget, heq]
    · exact h _ _ hget
  · exact h

theorem Keyed.applyMoveShard (args : MoveShard) : Keyed (m.applyMoveShard py args).1 := by
  simp only [MetadataStateMachine.applyMoveShard]
  split
  · exact h
  next hget =>
    split
    · exact h
    split
    · split <;> exact h
    split
    · exact h
    split
    · exact h
    · exact h.place hget rfl

theorem Keyed.applyInitRoutes (ranges : RangeMap) : Keyed (m.applyInitRoutes ranges).1 := by
  simp only [MetadataStateMachine.applyInitRoutes]
  split
  · exact h
  intro shardId placement hget
  rw [get?_mapValues, Option.map_eq_some_iff] at hget
  obtain ⟨range, -, rfl⟩ := hget
  rfl

theorem Keyed.apply (payload : Payload V) : Keyed (m.apply py payload).1 := by
  unfold MetadataStateMachine.apply
  split
  swap
  · exact h
  next applied hok =>
  obtain ⟨cmd, rfl, hcmd⟩ := bind_ok hok
  unfold applyCommand at hcmd
  split at hcmd
  · obtain ⟨v, -, hcmd⟩ := bind_ok hcmd
    obtain ⟨ranges, -, hcmd⟩ := bind_ok hcmd
    exact Except.ok.inj hcmd ▸ h.applyInitRoutes ranges
  · obtain ⟨args, -, hcmd⟩ := bind_ok hcmd
    exact Except.ok.inj hcmd ▸ h.applySetShardNodes args
  · obtain ⟨args, -, hcmd⟩ := bind_ok hcmd
    exact Except.ok.inj hcmd ▸ h.applyReportLeader args
  · obtain ⟨args, -, hcmd⟩ := bind_ok hcmd
    exact Except.ok.inj hcmd ▸ h.applySplit args
  · obtain ⟨args, -, hcmd⟩ := bind_ok hcmd
    exact Except.ok.inj hcmd ▸ h.applyMoveShard args
  · exact Except.ok.inj hcmd ▸ h

end

theorem keyed_replay (py : Python V) (payloads : List (Payload V)) :
    Keyed (init.replay py payloads) := by
  induction payloads using reverseRecOn with
  | nil =>
    intro shardId placement hget
    cases hget
  | append_singleton payloads payload ih =>
    rw [replay, foldl_append]
    exact ih.apply payload

/-- **A restored snapshot has the table it was taken of**, whatever the receiver had. -/
theorem alike_restore (h : Keyed m) (receiver : MetadataStateMachine) :
    Alike (receiver.restore (some m.snapshot)) m where
  version := rfl
  shards shardId := by
    show Matched (m.table.shards.get? shardId) _
    rw [shards_table fun {_ _} => h _ _, get?_mapValues, get?_sorted]
    cases m.shards.get? shardId with
    | none => exact .refl _
    | some placement => exact .of_addresses fun node => get?_sorted ..

/-! ## Later commands and reads -/

/-- What is asked of a machine. -/
inductive Request (V : Type) where
  | command (payload : Payload V)
  | get (key : Bytes)
  | scan (lo hi : Bytes)
  | table
  | version

/-- What it answers: the result of a command, the encoded table or the parsed one, its version, or
the rows of a range read, of which there are none. -/
inductive Answer where
  | result (r : Result)
  | read (r : Except String (ℕ × List ShardPlacement))
  | rows
  | parsed (table : RoutingTable)
  | number (version : ℕ)

/-- One request. -/
def Request.serve (py : Python V) (m : MetadataStateMachine) :
    Request V → MetadataStateMachine × Answer
  | .command payload => let (m', r) := m.apply py payload; (m', .result r)
  | .get key => (m, .read (m.get py.reprBytes key))
  | .scan _ _ => (m, .rows)
  | .table => (m, .parsed m.table)
  | .version => (m, .number m.version)

/-- The answers to requests, one after another. -/
def serve (py : Python V) (m : MetadataStateMachine) : List (Request V) → List Answer
  | [] => []
  | request :: requests =>
    let (m', answer) := request.serve py m
    answer :: serve py m' requests

/-- The same answer, but for the text of a refusal that shows the order of a dictionary. -/
inductive Answer.Same : Answer → Answer → Prop
  | result {r r' : Result} (h : SameAnswer r r') : Same (.result r) (.result r')
  | equal (answer : Answer) : Same answer answer

theorem Alike.serve (h : Alike m m') (py : Python V) (requests : List (Request V)) :
    List.Forall₂ Answer.Same (m.serve py requests) (m'.serve py requests) := by
  induction requests generalizing m m' with
  | nil => exact .nil
  | cons request requests ih =>
    cases request with
    | command payload =>
      have hstep : Parallel (m.apply py payload) (m'.apply py payload) := h.apply payload
      exact .cons (.result hstep.answer) (ih hstep.alike)
    | get key =>
      refine .cons ?_ (ih h)
      simp only [get, h.tablePayload]
      exact .equal _
    | scan lo hi => exact .cons (.equal _) (ih h)
    | table =>
      refine .cons ?_ (ih h)
      simp only [table, h.tablePayload]
      exact .equal _
    | version =>
      refine .cons ?_ (ih h)
      rw [h.version]
      exact .equal _

/-- **Restoring a snapshot is replaying**: whatever the receiver had, a shard's machine that restores
a snapshot is the machine that applied the log, and a routing table's machine answers every later
request as the one that applied the log does, but for the words of the refusals 11 and 16. -/
theorem restore_is_replay :
    (∀ (log : Storage.MVCCStateMachine.History) (receiver : Storage.MVCCStateMachine),
      receiver.restore (some (Storage.MVCCStateMachine.replay log).snapshot) =
        Storage.MVCCStateMachine.replay log) ∧
    ∀ (V : Type) (py : Python V) (payloads : List (Payload V)) (receiver : MetadataStateMachine)
      (requests : List (Request V)), List.Forall₂ Answer.Same
        ((receiver.restore (some (init.replay py payloads).snapshot)).serve py requests)
        ((init.replay py payloads).serve py requests) :=
  ⟨fun _ receiver => Storage.MVCCStateMachine.restore_snapshot _ receiver,
    fun _ py payloads receiver requests =>
      (alike_restore (keyed_replay py payloads) receiver).serve py requests⟩

/-- One shard, served by the nodes 2 and 1. -/
def served : List (Payload Value) :=
  [command .initRoutes [("ranges", .list [.list [.int 0, .bytes [], .bytes [8]]])],
    command .setShardNodes [("shard_id", .int 0), ("nodes", .list [.int 2, .int 1]),
      ("addresses", .list [.list [.int 2, .str "b"], .list [.int 1, .str "a"]])]]

/-- A move to the nodes that serve the shard, at other addresses. -/
def elsewhere : Payload Value :=
  command .moveShard [("shard_id", .int 0), ("from_nodes", .list []),
    ("nodes", .list [.int 2, .int 1]),
    ("addresses", .list [.list [.int 2, .str "c"], .list [.int 1, .str "a"]])]

/-- `repr` of a dictionary of plain texts. -/
def reprDict (d : Dict ℤ String) : String :=
  "\x7b" ++ ", ".intercalate (d.entries.map fun e => toString e.1 ++ ": '" ++ e.2 ++ "'") ++ "\x7d"

/-- **The order of the addresses is lost**: a move that is refused because the shard is served at
other addresses is told them in one order by the machine and in another by the one that restored its
snapshot. -/
theorem restored_refusal_differs :
    ¬ ∀ (V : Type) (py : Python V) (payloads : List (Payload V)) (receiver : MetadataStateMachine)
      (requests : List (Request V)),
        (receiver.restore (some (init.replay py payloads).snapshot)).serve py requests =
          (init.replay py payloads).serve py requests := by
  intro h
  have hserve := h Value { plain with reprAddresses := reprDict } served init [.command elsewhere]
  have hresult := Answer.result.inj (cons.inj hserve).1
  exact absurd hresult (by decide +kernel)

end MetadataStateMachine
end OxideDB.Metadata
