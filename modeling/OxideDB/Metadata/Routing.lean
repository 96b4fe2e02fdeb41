import Mathlib.Order.Interval.Set.Disjoint
import OxideDB.Metadata.Service
import OxideDB.Territory

/-!
# The routing table is a partition

What the table is for is a function: which shard owns a key.  `Routes` says that the machine's
placements describe such a function, and what a command can do to it is said once, in
`Change`: nothing, another replica set or leader for a shard, or a cut of one range in two.
-/

namespace OxideDB.Metadata

open Raft (Bytes)
open Territory List Dict

variable {args : Split}

namespace MetadataStateMachine

variable {V : Type} {py : Python V} {m m' : MetadataStateMachine} {payload : Payload V}
  {r : Result} {owner owner' : Bytes → Option ℤ} {shardId : ℤ} {key : Bytes}

/-- The keys in a shard's range. -/
def owns (m : MetadataStateMachine) (shardId : ℤ) : Set Bytes :=
  {key | ∃ placement ∈ m.shards.get? shardId, key ∈ Set.Ico placement.start placement.stop}

instance (shardId : ℤ) : DecidablePred (· ∈ m.owns shardId) := fun key =>
  inferInstanceAs (Decidable (∃ placement ∈ m.shards.get? shardId,
    placement.start ≤ key ∧ key < placement.stop))

/-- The keys at and above the split point in the range of the shard to split. -/
def above (m : MetadataStateMachine) (args : Split) : Set Bytes :=
  {key | ∃ placement ∈ m.shards.get? args.shardId, key ∈ Set.Ico args.splitKey placement.stop}

instance (args : Split) : DecidablePred (· ∈ m.above args) := fun key =>
  inferInstanceAs (Decidable (∃ placement ∈ m.shards.get? args.shardId,
    args.splitKey ≤ key ∧ key < placement.stop))

/-- The arguments of a command that is a split and can be read as one. -/
def split? (py : Python V) : Payload V → Option Split
  | .ok cmd => if cmd.type = .split then (readSplit py cmd).toOption else none
  | .error _ => none

/-- The placements describe an owner function. -/
structure Routes (m : MetadataStateMachine) (owner : Bytes → Option ℤ) : Prop where
  keyed {shardId : ℤ} {placement : ShardPlacement} (h : m.shards.get? shardId = some placement) :
    placement.shardId = shardId
  owned : OwnedBy m.owns owner

/-! ## What a command can do -/

/-- What a command makes of the table. -/
inductive Change (py : Python V) (m : MetadataStateMachine) (payload : Payload V) :
    MetadataStateMachine → Result → Prop
  | refused (code : ℕ) (msg : String) : Change py m payload m (.failure code msg)
  /-- A move that has been applied before. -/
  | again (hcmd : split? py payload = none) : Change py m payload m .success
  /-- A split that has been applied before: the shard ends at the split point. -/
  | splitAgain (args : Split) (hargs : split? py payload = some args) (left : ShardPlacement)
      (hleft : m.shards.get? args.shardId = some left) (hstop : left.stop = args.splitKey) :
      Change py m payload m .success
  | initialised (hempty : m.shards.entries = []) (m' : MetadataStateMachine)
      (hversion : m.version < m'.version) : Change py m payload m' .success
  /-- Another replica set, or another leader. -/
  | placed (hcmd : split? py payload = none) (shardId : ℤ)
      (placement placement' : ShardPlacement) (h : m.shards.get? shardId = some placement)
      (hid : placement'.shardId = placement.shardId) (hstart : placement'.start = placement.start)
      (hstop : placement'.stop = placement.stop) :
      Change py m payload (m.place shardId placement') .success
  | cut (args : Split) (hargs : split? py payload = some args)
      (hnew : m.shards.get? args.newShardId = none) (placement : ShardPlacement)
      (h : m.shards.get? args.shardId = some placement)
      (hstart : placement.start < args.splitKey) (hstop : args.splitKey < placement.stop) :
      Change py m payload
        { shards := (m.shards.set args.shardId
            { placement with shardId := args.shardId, stop := args.splitKey }).set args.newShardId
            { shardId := args.newShardId, start := args.splitKey, stop := placement.stop,
              nodes := args.nodes, addresses := args.addresses }
          version := m.version + 1 } .success

section Commands

variable (py) (m) (payload)

theorem applyInitRoutes_change (ranges : RangeMap) :
    Change py m payload (m.applyInitRoutes ranges).1 (m.applyInitRoutes ranges).2 := by
  unfold applyInitRoutes
  split
  · exact .refused _ _
  · next h => exact .initialised (not_not.1 h) _ (Nat.lt_succ_self _)

variable (hcmd : split? py payload = none)
include hcmd

theorem applySetShardNodes_change (args : SetShardNodes) :
    Change py m payload (m.applySetShardNodes args).1 (m.applySetShardNodes args).2 := by
  unfold applySetShardNodes
  dsimp only
  split
  · exact .refused _ _
  · next placement h => exact .placed hcmd _ placement _ h rfl rfl rfl

theorem applyReportLeader_change (args : ReportLeader) :
    Change py m payload (m.applyReportLeader args).1 (m.applyReportLeader args).2 := by
  unfold applyReportLeader
  dsimp only
  split
  · exact .refused _ _
  next placement h =>
  split
  · exact .refused _ _
  split
  · exact .refused _ _
  · exact .placed hcmd _ placement _ h rfl rfl rfl

theorem applyMoveShard_change (args : MoveShard) :
    Change py m payload (m.applyMoveShard py args).1 (m.applyMoveShard py args).2 := by
  unfold applyMoveShard
  dsimp only
  split
  · exact .refused _ _
  next placement h =>
  split
  · exact .refused _ _
  split
  · split
    · exact .again hcmd
    · exact .refused _ _
  split
  · exact .refused _ _
  split
  · exact .refused _ _
  · exact .placed hcmd _ placement _ h rfl rfl rfl

end Commands

theorem overlap_refuses {halves : List ShardPlacement} (h : m.overlap py shardId halves = some r) :
    ∃ code msg, r = .failure code msg := by
  obtain ⟨other, -, hother⟩ := exists_of_findSome?_eq_some h
  split at hother
  · cases hother
  obtain ⟨half, -, hhalf⟩ := exists_of_findSome?_eq_some hother
  split at hhalf
  · cases hhalf
    exact ⟨_, _, rfl⟩
  · cases hhalf

theorem applySplit_change (hargs : split? py payload = some args) :
    Change py m payload (m.applySplit py args).1 (m.applySplit py args).2 := by
  unfold applySplit
  dsimp only
  split
  · unfold splitAgain
    dsimp only
    split
    · next hagain =>
      split
      · obtain ⟨left, hleft, hstop⟩ := (Option.any_eq_true _ _).1 hagain.1
        exact .splitAgain args hargs left hleft (of_decide_eq_true hstop)
      · exact .refused _ _
    · exact .refused _ _
  · next hnew =>
    split
    · exact .refused _ _
    next placement h =>
    split
    · next hinside =>
      split
      · next refusal hoverlap =>
        obtain ⟨code, msg, rfl⟩ := overlap_refuses hoverlap
        exact .refused code msg
      · exact .cut args hargs hnew placement h hinside.1 hinside.2
    · exact .refused _ _

theorem Change.of_pair {applied : MetadataStateMachine × Result}
    (h : (.ok applied : Except String _) = .ok (m', r))
    (hchange : Change py m payload applied.1 applied.2) : Change py m payload m' r := by
  cases h
  exact hchange

theorem applyCommand_change {cmd : Command V}
    (h : m.applyCommand py cmd = .ok (m', r)) : Change py m (.ok cmd) m' r := by
  have hother : cmd.type ≠ .split → split? py (.ok cmd) = none := fun hne => if_neg hne
  unfold applyCommand at h
  split at h
  · obtain ⟨_, -, h⟩ := bind_ok h
    obtain ⟨ranges, -, h⟩ := bind_ok h
    exact .of_pair h (applyInitRoutes_change py m _ ranges)
  · next htype =>
    obtain ⟨args, -, h⟩ := bind_ok h
    exact .of_pair h (applySetShardNodes_change py m _ (hother (by rw [htype]; nofun)) args)
  · next htype =>
    obtain ⟨args, -, h⟩ := bind_ok h
    exact .of_pair h (applyReportLeader_change py m _ (hother (by rw [htype]; nofun)) args)
  · next htype =>
    obtain ⟨args, hargs, h⟩ := bind_ok h
    exact .of_pair h (applySplit_change (by rw [split?, if_pos htype, hargs]; rfl))
  · next htype =>
    obtain ⟨args, -, h⟩ := bind_ok h
    exact .of_pair h (applyMoveShard_change py m _ (hother (by rw [htype]; nofun)) args)
  · cases h
    exact .refused _ _

theorem apply_change (h : m.apply py payload = (m', r)) : Change py m payload m' r := by
  unfold apply at h
  split at h
  · next applied hok =>
    subst h
    obtain ⟨cmd, rfl, hcmd⟩ := bind_ok hok
    exact applyCommand_change hcmd
  · cases h
    exact .refused _ _

/-! ## What becomes of the owners -/

theorem owns_of_get? {placement : ShardPlacement} (h : m.shards.get? shardId = some placement) :
    m.owns shardId = Set.Ico placement.start placement.stop := by
  ext key
  simp [owns, h]

theorem owns_of_none (h : m.shards.get? shardId = none) : m.owns shardId = ∅ := by
  ext key
  simp [owns, h]

theorem owns_congr (h : m'.shards.get? shardId = m.shards.get? shardId) :
    m'.owns shardId = m.owns shardId := by
  rw [owns, owns, h]

section

variable {placement : ShardPlacement}

theorem above_of_get? (h : m.shards.get? args.shardId = some placement) :
    m.above args = Set.Ico args.splitKey placement.stop := by
  ext key
  simp [above, h]

/-- A shard that keeps its range keeps its keys. -/
theorem Routes.place {placement' : ShardPlacement} (h : Routes m owner)
    (hget : m.shards.get? shardId = some placement) (hid : placement'.shardId = placement.shardId)
    (hstart : placement'.start = placement.start) (hstop : placement'.stop = placement.stop) :
    Routes (m.place shardId placement') owner where
  keyed {k p} hp := by
    rw [MetadataStateMachine.place, get?_set] at hp
    split at hp
    · next heq =>
      cases hp
      rw [hid, h.keyed hget, heq]
    · exact h.keyed hp
  owned := by
    have howns : (m.place shardId placement').owns = m.owns := by
      funext k
      by_cases hk : k = shardId
      · subst hk
        rw [owns_of_get? hget, owns_of_get? (get?_set_self _ _ _), hstart, hstop]
      · exact owns_congr (get?_set_of_ne _ _ hk)
    rw [howns]
    exact h.owned

/-- A range that is cut in two hands its upper half over. -/
theorem Routes.cut {right : ShardPlacement} {version : ℕ} (h : Routes m owner)
    (hnew : m.shards.get? args.newShardId = none)
    (hget : m.shards.get? args.shardId = some placement) (hstart : placement.start < args.splitKey)
    (hstop : args.splitKey < placement.stop) (hid : right.shardId = args.newShardId)
    (hrstart : right.start = args.splitKey) (hrstop : right.stop = placement.stop) :
    Routes
      { shards := (m.shards.set args.shardId
          { placement with shardId := args.shardId, stop := args.splitKey }).set args.newShardId right
        version := version }
      (cede (m.above args) owner args.newShardId) where
  keyed {k p} hp := by
    rw [get?_set, get?_set] at hp
    split at hp
    · next heq =>
      cases hp
      rw [hid, heq]
    split at hp
    · next heq =>
      cases hp
      exact heq.symm
    · exact h.keyed hp
  owned := by
    have hne : args.shardId ≠ args.newShardId := by
      rintro heq
      rw [heq, hnew] at hget
      cases hget
    have habove := above_of_get? hget
    have howns := owns_of_get? hget
    refine h.owned.cede (i := args.shardId) ?_ (owns_of_none hnew) ?_ ?_ fun k hki hkj => ?_
    · rw [habove, howns]
      exact Set.Ico_subset_Ico_left hstart.le
    · rw [owns_of_get? ((get?_set_of_ne _ _ hne).trans (get?_set_self _ _ _)), habove, howns]
      ext key
      simp only [Set.mem_Ico, Set.mem_sdiff, not_and, not_lt]
      constructor
      · rintro ⟨hle, hlt⟩
        exact ⟨⟨hle, hlt.trans hstop⟩, fun hge => absurd hlt (not_lt.2 hge)⟩
      · rintro ⟨⟨hle, hlt⟩, himp⟩
        exact ⟨hle, lt_of_not_ge fun hge => absurd hlt (not_lt.2 (himp hge))⟩
    · rw [owns_of_get? (get?_set_self _ _ _), hrstart, hrstop, habove]
    · exact owns_congr ((get?_set_of_ne _ _ hkj).trans (get?_set_of_ne _ _ hki))

theorem set_ne_nil {d : Dict ℤ ShardPlacement} : (d.set shardId placement).entries ≠ [] := by
  intro hnil
  have hnone := entries_eq_nil.1 hnil shardId
  rw [get?_set_self] at hnone
  cases hnone

end

/-- A command leaves every key its owner, or it is a split that hands over the keys above its
split point. -/
theorem Change.owners (hchange : Change py m payload m' r) (hne : m.shards.entries ≠ [])
    (h : Routes m owner) : m'.shards.entries ≠ [] ∧
      ((Routes m' owner ∧ ∀ args, split? py payload = some args → r = .success →
          m.above args = ∅) ∨
        ∃ args, split? py payload = some args ∧ r = .success ∧ args.newShardId ≠ args.shardId ∧
          m.above args ⊆ m.owns args.shardId ∧
          Routes m' (cede (m.above args) owner args.newShardId)) := by
  cases hchange with
  | refused => exact ⟨hne, .inl ⟨h, nofun⟩⟩
  | again hcmd => exact ⟨hne, .inl ⟨h, fun _ hargs => by rw [hcmd] at hargs; cases hargs⟩⟩
  | splitAgain args hargs left hleft hstop =>
    refine ⟨hne, .inl ⟨h, fun args' hargs' _ => ?_⟩⟩
    cases hargs.symm.trans hargs'
    rw [above_of_get? hleft, hstop, Set.Ico_self]
  | initialised hempty => exact absurd hempty hne
  | placed hcmd k placement placement' hget hid hstart hstop =>
    refine ⟨set_ne_nil, .inl ⟨h.place hget hid hstart hstop, fun _ hargs => ?_⟩⟩
    rw [hcmd] at hargs
    cases hargs
  | cut args hargs hnew placement hget hstart hstop =>
    refine ⟨set_ne_nil, .inr ⟨args, hargs, rfl, ?_, ?_, h.cut hnew hget hstart hstop rfl rfl rfl⟩⟩
    · rintro heq
      rw [heq, hget] at hnew
      cases hnew
    · rw [above_of_get? hget, owns_of_get? hget]
      exact Set.Ico_subset_Ico_left hstart.le

/-! ## What a client reads -/

/-- The one routing rule finds the owner, in whatever order it looks at the ranges. -/
theorem locate_eq {rangeMap : RangeMap}
    (h : OwnedBy (fun k => {key | ∃ range ∈ rangeMap.get? k, key ∈ Set.Ico range.1 range.2}) owner) :
    locate rangeMap key = (owner key).getD 0 := by
  unfold locate
  rcases hf : find? _ rangeMap.entries with _ | e
  · rcases hk : owner key with _ | k
    · rfl
    · obtain ⟨range, hrange, hin⟩ := (h key k).1 hk
      have hno := find?_eq_none.1 hf _ (get?_eq_some.1 hrange)
      exact absurd (decide_eq_true hin) hno
  · have hin := find?_some hf
    have hget := get?_eq_some.2 (mem_of_find?_eq_some hf)
    rw [(h key e.1).2 ⟨e.2, hget, of_decide_eq_true hin⟩]
    rfl

section

variable (hkeyed : ∀ {shardId placement}, m.shards.get? shardId = some placement → placement.shardId
  = shardId)
include hkeyed

/-- The table a client reads has the placements of the machine. -/
theorem shards_table : m.table.shards =
    m.shards.sorted.mapValues fun _ p => { p with addresses := p.addresses.sorted } := by
  have hmap : (m.tablePayload.2.map fun placement => (placement.shardId, placement)) =
      m.shards.sorted.entries.map fun e =>
        (e.1, { e.2 with addresses := e.2.addresses.sorted }) := by
    rw [tablePayload, map_map]
    refine map_congr_left fun e he => ?_
    have hget := get?_eq_some.2 he
    rw [get?_sorted] at hget
    rw [Function.comp_apply, hkeyed hget]
  refine Dict.ext ?_
  rw [table, parseTable, hmap]
  refine entries_ofList ?_
  rw [map_map]
  exact m.shards.sorted.nodup

theorem routes_table (k : ℤ) :
    m.table.routes.get? k = (m.shards.get? k).map fun p => (p.start, p.stop) := by
  rw [RoutingTable.routes, shards_table hkeyed, get?_mapValues, get?_mapValues,
    get?_sorted, Option.map_map]
  rfl

end

/-- A client that has read the table routes by the owner function. -/
theorem Routes.routeFor (h : Routes m owner) : m.table.routeFor key = (owner key).getD 0 := by
  refine locate_eq fun key k => ?_
  rw [h.owned key k, owns]
  simp only [routes_table h.keyed, Set.mem_ofPred_eq]
  cases m.shards.get? k <;> simp

/-! ## Every run -/

/-- The ranges do not meet and cover `covered`, and the table a client reads names the one
shard whose range a covered key is in. -/
structure Partition (m : MetadataStateMachine) (covered : Set Bytes) : Prop where
  disjoint : Pairwise fun i j => Disjoint (m.owns i) (m.owns j)
  union : ⋃ i, m.owns i = covered
  owner {key : Bytes} (h : key ∈ covered) : ∃! i, key ∈ m.owns i
  routed {key : Bytes} (h : key ∈ covered) : key ∈ m.owns (m.table.routeFor key)

theorem Routes.partition (h : Routes m owner) : Partition m {key | ∃ k, owner key = some k} where
  disjoint := h.owned.disjoint
  union := Set.ext fun _ => h.owned.mem_iUnion
  owner hkey := h.owned.existsUnique (h.owned.mem_iUnion.2 hkey)
  routed {key} hkey := by
    obtain ⟨k, hk⟩ := hkey
    rw [h.routeFor, hk]
    exact (h.owned key k).1 hk

/-- What one command does to a table, as its clients see it. -/
structure Handover (py : Python V) (m : MetadataStateMachine) (payload : Payload V)
    (m' : MetadataStateMachine) (r : Result) : Prop where
  refused (h : r ≠ .success) : m' = m
  version (h : m'.shards ≠ m.shards) : m.version < m'.version
  other (h : split? py payload = none) (key : Bytes) :
    m'.table.routeFor key = m.table.routeFor key
  moved {args : Split} (h : split? py payload = some args) (hr : r = .success) {key : Bytes}
    (hkey : key ∈ m.above args) : m.table.routeFor key = args.shardId ∧
      m'.table.routeFor key = args.newShardId ∧ args.newShardId ≠ args.shardId
  stayed {args : Split} (h : split? py payload = some args) (hr : r = .success) {key : Bytes}
    (hkey : key ∉ m.above args) : m'.table.routeFor key = m.table.routeFor key

section

variable (hchange : Change py m payload m' r)
include hchange

theorem Change.refused_eq (hr : r ≠ .success) : m' = m := by
  cases hchange with
  | refused => rfl
  | again => rfl
  | splitAgain => rfl
  | _ => exact absurd rfl hr

theorem Change.version_lt (hne : m'.shards ≠ m.shards) : m.version < m'.version := by
  cases hchange with
  | refused => exact absurd rfl hne
  | again => exact absurd rfl hne
  | splitAgain => exact absurd rfl hne
  | initialised _ _ hversion => exact hversion
  | placed => exact Nat.lt_succ_self _
  | cut => exact Nat.lt_succ_self _

theorem Change.handover (hne : m.shards.entries ≠ []) (h : Routes m owner) :
    Handover py m payload m' r := by
  have hsame : ∀ {key}, Routes m' owner → m'.table.routeFor key = m.table.routeFor key :=
    fun h' => h'.routeFor.trans h.routeFor.symm
  refine ⟨hchange.refused_eq, hchange.version_lt, fun hnone key => ?_, fun {args} hargs hr key hkey => ?_,
    fun {args} hargs hr key hkey => ?_⟩
  · obtain ⟨-, ⟨h', -⟩ | ⟨args, hargs, -⟩⟩ := hchange.owners hne h
    · exact hsame h'
    · rw [hnone] at hargs
      cases hargs
  · obtain ⟨-, ⟨-, hempty⟩ | ⟨args', hargs', -, hid, hsub, h'⟩⟩ := hchange.owners hne h
    · rw [hempty args hargs hr] at hkey
      exact absurd hkey (Set.notMem_empty key)
    · cases hargs.symm.trans hargs'
      rw [h.routeFor, h'.routeFor, (h.owned key args.shardId).2 (hsub hkey), cede, if_pos hkey]
      exact ⟨rfl, rfl, hid⟩
  · obtain ⟨-, ⟨h', -⟩ | ⟨args', hargs', -, -, -, h'⟩⟩ := hchange.owners hne h
    · exact hsame h'
    · cases hargs.symm.trans hargs'
      rw [h.routeFor, h'.routeFor, cede, if_neg hkey]

end

/-- One command keeps the table a partition of the same keys. -/
theorem routes_step (py : Python V) (payload : Payload V) (hne : m.shards.entries ≠ [])
    (h : Routes m owner) :
    (m.apply py payload).1.shards.entries ≠ [] ∧ ∃ owner', Routes (m.apply py payload).1 owner' ∧
      ∀ key, (∃ k, owner' key = some k) ↔ ∃ k, owner key = some k := by
  have hchange : Change py m payload (m.apply py payload).1 (m.apply py payload).2 :=
    apply_change rfl
  obtain ⟨hne', ⟨h', -⟩ | ⟨args, -, -, -, hsub, h'⟩⟩ := hchange.owners hne h
  · exact ⟨hne', owner, h', fun _ => Iff.rfl⟩
  · exact ⟨hne', _, h', fun _ => h.owned.cede_defined hsub⟩

theorem routes_replay (py : Python V) (payloads : List (Payload V))
    (hne : m.shards.entries ≠ []) (h : Routes m owner) : (m.replay py payloads).shards.entries ≠ [] ∧
      ∃ owner', Routes (m.replay py payloads) owner' ∧
        ∀ key, (∃ k, owner' key = some k) ↔ ∃ k, owner key = some k := by
  induction payloads generalizing m owner with
  | nil => exact ⟨hne, owner, h, fun _ => Iff.rfl⟩
  | cons payload payloads ih =>
    obtain ⟨hne₁, owner₁, h₁, hcov₁⟩ := routes_step py payload hne h
    obtain ⟨hne₂, owner₂, h₂, hcov₂⟩ := ih hne₁ h₁
    exact ⟨hne₂, owner₂, h₂, fun key => (hcov₂ key).trans (hcov₁ key)⟩

/-- The keys in some range. -/
def covered (ranges : RangeMap) : Set Bytes :=
  {key | ∃ e ∈ ranges.entries, key ∈ Set.Ico e.2.1 e.2.2}

theorem applyInitRoutes_get? (ranges : RangeMap) (k : ℤ) :
    (init.applyInitRoutes ranges).1.shards.get? k =
      (ranges.get? k).map fun range => { shardId := k, start := range.1, stop := range.2 } :=
  get?_mapValues _ ranges k

/-- Ranges that do not meet give a table that routes. -/
theorem routes_init {ranges : RangeMap} (hdisjoint : ∀ e ∈ ranges.entries, ∀ e' ∈ ranges.entries,
    e ≠ e' → Disjoint (Set.Ico e.2.1 e.2.2) (Set.Ico e'.2.1 e'.2.2)) :
    ∃ owner, Routes (init.applyInitRoutes ranges).1 owner ∧
      {key | ∃ k, owner key = some k} = covered ranges := by
  have hmem : ∀ {key k}, key ∈ (init.applyInitRoutes ranges).1.owns k ↔
      ∃ range, (k, range) ∈ ranges.entries ∧ key ∈ Set.Ico range.1 range.2 := by
    intro key k
    rw [owns, Set.mem_ofPred_eq, applyInitRoutes_get?]
    constructor
    · rintro ⟨placement, hget, hin⟩
      obtain ⟨range, hrange, rfl⟩ := Option.map_eq_some_iff.1 hget
      exact ⟨range, get?_eq_some.1 hrange, hin⟩
    · rintro ⟨range, hrange, hin⟩
      rw [get?_eq_some.2 hrange]
      exact ⟨_, rfl, hin⟩
  obtain ⟨owner, howned⟩ : ∃ owner, OwnedBy (init.applyInitRoutes ranges).1.owns owner := by
    refine exists_ownedBy fun i j hij => Set.disjoint_left.2 fun key hi hj => ?_
    obtain ⟨range, hrange, hin⟩ := hmem.1 hi
    obtain ⟨range', hrange', hin'⟩ := hmem.1 hj
    have hne : (i, range) ≠ (j, range') := fun heq => hij (congrArg Prod.fst heq)
    exact Set.disjoint_left.1 (hdisjoint _ hrange _ hrange' hne) hin hin'
  refine ⟨owner, ⟨fun hget => ?_, howned⟩, Set.ext fun key => ?_⟩
  · rw [applyInitRoutes_get?] at hget
    obtain ⟨range, -, rfl⟩ := Option.map_eq_some_iff.1 hget
    rfl
  · constructor
    · rintro ⟨k, hk⟩
      obtain ⟨range, hrange, hin⟩ := hmem.1 ((howned key k).1 hk)
      exact ⟨(k, range), hrange, hin⟩
    · rintro ⟨e, he, hin⟩
      exact ⟨e.1, (howned key e.1).2 (hmem.2 ⟨e.2, he, hin⟩)⟩

/-- **Every routing table is a partition**: after `INIT_ROUTES` with ranges that do not meet, at
least one, and any commands with any arguments, the ranges do not meet and cover the same
keys; and whatever command comes next is refused whole or raises the version, and hands over
exactly the keys above the split point if it is a split, none if it is not. -/
theorem routing_table_partition (py : Python V) (ranges : RangeMap) (hne : ranges.entries ≠ [])
    (hdisjoint : ∀ e ∈ ranges.entries, ∀ e' ∈ ranges.entries, e ≠ e' →
      Disjoint (Set.Ico e.2.1 e.2.2) (Set.Ico e'.2.1 e'.2.2))
    (payloads : List (Payload V)) (m : MetadataStateMachine)
    (hm : (init.applyInitRoutes ranges).1.replay py payloads = m) :
    Partition m (covered ranges) ∧
      ∀ payload m' r, m.apply py payload = (m', r) → Handover py m payload m' r := by
  subst hm
  obtain ⟨owner, hroutes, hcovered⟩ := routes_init hdisjoint
  have hne₀ : (init.applyInitRoutes ranges).1.shards.entries ≠ [] := fun hnil =>
    hne (map_eq_nil_iff.1 hnil)
  obtain ⟨hne', owner', hroutes', hsame⟩ := routes_replay py payloads hne₀ hroutes
  refine ⟨?_, fun payload m' r happly => (apply_change happly).handover hne' hroutes'⟩
  rw [← hcovered, ← Set.ext hsame]
  exact hroutes'.partition

/-- Unpacked values of the shapes a well-behaved proposer sends. -/
inductive Value where
  | int (n : ℤ)
  | bytes (b : Bytes)
  | str (s : String)
  | list (vs : List Value)

/-- The conversions, for such values. -/
def plain : Python Value where
  items
    | .list vs => .ok vs
    | _ => .error "object is not iterable"
  item
    | .list vs, i => vs[i]?.elim (.error "list index out of range") .ok
    | _, _ => .error "object is not subscriptable"
  int
    | .int n => .ok n
    | _ => .error "int() argument must be a string, a bytes-like object or a real number"
  bytes
    | .bytes b => .ok b
    | _ => .error "cannot convert object to bytes"
  str
    | .str s => .ok s
    | _ => .error "not a string"
  reprBytes b := toString b
  reprNodes nodes := toString nodes
  reprAddresses addresses := toString addresses.entries

/-- A command with the arguments of a list. -/
def command (type : MetadataCommandType) (args : List (String × Value)) : Payload Value :=
  .ok { type, field := fun name => (args.find? fun arg => arg.1 = name).map Prod.snd }

/-- Shard 0 below `[8]`, shard 2 from there to `[9]`. -/
def twoRanges : RangeMap := .ofList [(0, ([], [8])), (2, ([8], [9]))]

/-- Shard 0 is split at `[5]`. -/
def splitAtFive : Payload Value :=
  command .split [("shard_id", .int 0), ("new_shard_id", .int 1), ("split_key", .bytes [5]),
    ("nodes", .list [.int 7]), ("addresses", .list [.list [.int 7, .str "a"]])]

/-- After the split the two halves are owned by two shards, and a second split is handed over
as the theorem says. -/
theorem routing_table_partition_split : ∃ m, (init.applyInitRoutes twoRanges).1.replay plain
    [splitAtFive] = m ∧ m.version = 2 ∧ m.table.routeFor [4] = 0 ∧ m.table.routeFor [5] = 1 ∧
      m.table.routeFor [8] = 2 ∧ Partition m (covered twoRanges) ∧
      ∀ payload m' r, m.apply plain payload = (m', r) → Handover plain m payload m' r := by
  refine ⟨_, rfl, by decide +kernel, by decide +kernel, by decide +kernel, by decide +kernel,
    routing_table_partition plain twoRanges (by decide) ?_ _ _ rfl⟩
  have hapart : Disjoint (Set.Ico ([] : Bytes) [8]) (Set.Ico [8] [9]) := Set.Ico_disjoint_Ico_same
  rintro _ (_ | ⟨_, _ | ⟨_, ⟨⟩⟩⟩) _ (_ | ⟨_, _ | ⟨_, ⟨⟩⟩⟩) hne
  exacts [absurd rfl hne, hapart, hapart.symm, absurd rfl hne]

/-- Two ranges that overlap. -/
def overlapping : Payload Value :=
  command .initRoutes [("ranges", .list [.list [.int 0, .bytes [], .bytes [8]],
    .list [.int 1, .bytes [3], .bytes [5]]])]

/-- **A table without ranges is initialised again**: the second `INIT_ROUTES` is applied, and
its ranges overlap. -/
theorem empty_routes_reinitialised :
    ¬ Partition ((init.applyInitRoutes .empty).1.replay plain [overlapping]) (covered .empty) := by
  intro h
  have hin : [3] ∈ owns ((init.applyInitRoutes .empty).1.replay plain [overlapping]) 0 ∧
      [3] ∈ owns ((init.applyInitRoutes .empty).1.replay plain [overlapping]) 1 := by
    decide +kernel
  exact Set.disjoint_left.1 (h.disjoint (by decide : (0 : ℤ) ≠ 1)) hin.1 hin.2

end MetadataStateMachine
end OxideDB.Metadata
