import OxideDB.Metadata.Restore

/-!
# The table on the wire

A client outside the process reads the table of a member as a `ListShardsResponse`: a record for each
shard, its numbers as `uint64`, the addresses as a map, the leader as a field that may be unset.  The
client turns the records into the payload that the group packs for itself, and parses it with the one
parser there is.  A map comes back in whatever order; the client sorts it, as the group does.
-/

namespace OxideDB.Metadata

open List MetadataStateMachine Dict
open Raft (Bytes)

variable {m : MetadataStateMachine} {p : ShardPlacement} {n : ℤ}

/-! ## Lists that are converted -/

section MapM

variable {ε α β : Type} {f : α → Except ε β} {l : List α}

/-- Where each conversion can be undone, so can that of a list. -/
theorem map_of_mapM {g : β → α} (hf : ∀ {a b}, f a = .ok b → g b = a) {l' : List β}
    (h : l.mapM f = .ok l') : l'.map g = l := by
  induction l generalizing l' with
  | nil =>
    cases h
    rfl
  | cons a l ih =>
    rw [mapM_cons] at h
    obtain ⟨b, hb, h⟩ := bind_ok h
    obtain ⟨bs, hbs, h⟩ := bind_ok h
    cases h
    rw [map_cons, hf hb, ih hbs]

theorem exists_mapM (hf : ∀ a ∈ l, ∃ b, f a = .ok b) : ∃ l', l.mapM f = .ok l' := by
  induction l with
  | nil => exact ⟨[], rfl⟩
  | cons a l ih =>
    obtain ⟨b, hb⟩ := hf a mem_cons_self
    obtain ⟨bs, hbs⟩ := ih fun a ha => hf a (mem_cons_of_mem _ ha)
    refine ⟨b :: bs, ?_⟩
    rw [mapM_cons, hb, hbs]
    rfl

end MapM

/-! ## Messages -/

/-- A field of the type `uint64`. -/
abbrev UInt64Field := Fin (2 ^ 64)

/-- What protobuf takes a number for; it raises where it does not fit. -/
def uint64 (n : ℤ) : Except String UInt64Field :=
  if h : 0 ≤ n ∧ n.toNat < 2 ^ 64 then .ok ⟨n.toNat, h.2⟩ else .error s!"Value out of range: {n}"

/-- A field, read. -/
def UInt64Field.toInt (u : UInt64Field) : ℤ := (u : ℕ)

structure ShardRecord where
  shardId : UInt64Field
  startKey : Bytes
  endKey : Bytes
  nodes : List UInt64Field
  addresses : Dict UInt64Field String
  leaderId : Option UInt64Field
  leaderTerm : UInt64Field
  leaderAddress : Option String

/-- A `ListShardsResponse` that is no refusal. -/
structure ListShardsResponse where
  version : UInt64Field
  shards : List ShardRecord

/-- `shard_record`. -/
def shardRecord (p : ShardPlacement) : Except String ShardRecord := do
  let shardId ← uint64 p.shardId
  let nodes ← p.nodes.mapM uint64
  let leaderTerm ← uint64 p.leaderTerm
  let addresses ← p.addresses.sorted.entries.mapM fun e => do return (← uint64 e.1, e.2)
  let leaderId ← p.leaderId.mapM uint64
  return {
    shardId, nodes, leaderTerm, leaderId
    startKey := p.start
    endKey := p.stop
    addresses := .ofList addresses
    leaderAddress := p.leaderAddress.filter (· ≠ "") }

/-- `ListShards`, once the table could be read. -/
def listShards (m : MetadataStateMachine) : Except String ListShardsResponse := do
  let version ← uint64 m.table.version
  let shards ← m.table.shards.entries.mapM fun e => shardRecord e.2
  return { version, shards }

/-- What protobuf keeps of a record: all of it, but for the order of the map. -/
structure ShardRecord.Arrives (r r' : ShardRecord) : Prop where
  fields : r' = { r with addresses := r'.addresses }
  addresses (node : UInt64Field) : r'.addresses.get? node = r.addresses.get? node

structure Arrives (response response' : ListShardsResponse) : Prop where
  version : response'.version = response.version
  shards : List.Forall₂ ShardRecord.Arrives response.shards response'.shards

/-- A record as `_payload` has it, the addresses as sorted pairs. -/
def placementOf (r : ShardRecord) : ShardPlacement where
  shardId := r.shardId.toInt
  start := r.startKey
  stop := r.endKey
  nodes := r.nodes.map UInt64Field.toInt
  addresses := .ofList (r.addresses.sorted.entries.map fun e => (e.1.toInt, e.2))
  leaderId := r.leaderId.map UInt64Field.toInt
  leaderTerm := r.leaderTerm.toInt

/-- `_payload`. -/
def payload (response : ListShardsResponse) : ℕ × List ShardPlacement :=
  (response.version, response.shards.map placementOf)

/-! ## One record -/

theorem uint64_ok {u : UInt64Field} (h : uint64 n = .ok u) : u.toInt = n := by
  unfold uint64 at h
  split at h
  · next hn =>
    cases h
    exact Int.toNat_of_nonneg hn.1
  · cases h

theorem exists_uint64 (h : 0 ≤ n ∧ n < 2 ^ 64) : ∃ u, uint64 n = .ok u := by
  have hn : 0 ≤ n ∧ n.toNat < 2 ^ 64 := ⟨h.1, by omega⟩
  exact ⟨_, dif_pos hn⟩

theorem addresses_arrive {d : Dict ℤ String} {entries : List (UInt64Field × String)}
    (h : (d.sorted.entries.mapM fun e => do return (← uint64 e.1, e.2)) = .ok entries)
    {arrived : Dict UInt64Field String}
    (hsame : ∀ node, arrived.get? node = (ofList entries).get? node) :
    ofList (arrived.sorted.entries.map fun e => (e.1.toInt, e.2)) = d.sorted := by
  have hback : entries.map (fun e => (e.1.toInt, e.2)) = d.sorted.entries := by
    refine map_of_mapM (fun {e e'} he => ?_) h
    obtain ⟨u, hu, he⟩ := bind_ok he
    cases he
    rw [uint64_ok hu]
  have hsorted : entries.Pairwise fun e e' => e.1 < e'.1 := by
    have hlt := d.pairwise_sorted
    rw [← hback, pairwise_map] at hlt
    exact hlt.imp fun {e e'} hlt => Fin.lt_def.2 (Int.ofNat_lt.1 hlt)
  have hnodup : (entries.map Prod.fst).Nodup :=
    pairwise_map.2 (hsorted.imp fun hlt => hlt.ne)
  have hentries : arrived.sorted.entries = entries := by
    have hkept := entries_ofList hnodup
    rw [sorted_congr hsame, entries_sorted (by rw [hkept]; exact hsorted), hkept]
  refine Dict.ext ?_
  rw [hentries, hback]
  exact entries_ofList d.sorted.nodup

/-- **A record is read as the placement it was made of.** -/
theorem placementOf_record {r r' : ShardRecord} (h : shardRecord p = .ok r)
    (harrives : r.Arrives r') : placementOf r' = { p with addresses := p.addresses.sorted } := by
  obtain ⟨shardId, hid, h⟩ := bind_ok h
  obtain ⟨nodes, hnodes, h⟩ := bind_ok h
  obtain ⟨leaderTerm, hterm, h⟩ := bind_ok h
  obtain ⟨addresses, haddresses, h⟩ := bind_ok h
  obtain ⟨leaderId, hleader, h⟩ := bind_ok h
  cases h
  obtain ⟨hfields, hsame⟩ := harrives
  generalize r'.addresses = arrived at hfields hsame
  subst hfields
  have hleader' : leaderId.map UInt64Field.toInt = p.leaderId := by
    cases hl : p.leaderId with
    | none =>
      rw [hl] at hleader
      cases hleader
      rfl
    | some l =>
      rw [hl] at hleader
      obtain ⟨u, hu, hleader⟩ := bind_ok hleader
      cases hleader
      rw [Option.map_some, uint64_ok hu]
  unfold placementOf
  dsimp only
  rw [uint64_ok hid, map_of_mapM uint64_ok hnodes, uint64_ok hterm, hleader',
    addresses_arrive haddresses hsame]

/-! ## The table -/

theorem placements_arrive {entries : List (ℤ × ShardPlacement)} {records records' : List ShardRecord}
    (h : (entries.mapM fun e => shardRecord e.2) = .ok records)
    (harrive : List.Forall₂ ShardRecord.Arrives records records') :
    records'.map placementOf = entries.map fun e => { e.2 with addresses := e.2.addresses.sorted } := by
  induction entries generalizing records records' with
  | nil =>
    cases h
    cases harrive
    rfl
  | cons e entries ih =>
    rw [mapM_cons] at h
    obtain ⟨r, hr, h⟩ := bind_ok h
    obtain ⟨rs, hrs, h⟩ := bind_ok h
    cases h
    cases harrive with
    | cons hr' hrs' => rw [map_cons, map_cons, placementOf_record hr hr', ih hrs hrs']

/-- A number that `uint64` holds. -/
def InUInt64 (n : ℤ) : Prop := 0 ≤ n ∧ n < 2 ^ 64

instance (n : ℤ) : Decidable (InUInt64 n) := inferInstanceAs (Decidable (_ ∧ _))

/-- The numbers of a placement fit their fields. -/
structure ShardPlacement.Fits (p : ShardPlacement) : Prop where
  shardId : InUInt64 p.shardId
  nodes : ∀ node ∈ p.nodes, InUInt64 node
  addresses : ∀ e ∈ p.addresses.entries, InUInt64 e.1
  leaderId : ∀ leader ∈ p.leaderId, InUInt64 leader
  leaderTerm : InUInt64 p.leaderTerm

/-- The numbers of a table fit their fields. -/
structure MetadataStateMachine.Fits (m : MetadataStateMachine) : Prop where
  version : InUInt64 m.version
  shards (shardId : ℤ) (p : ShardPlacement) (h : m.shards.get? shardId = some p) : p.Fits

theorem ShardPlacement.Fits.exists_record (h : p.Fits) : ∃ r, shardRecord p = .ok r := by
  obtain ⟨shardId, hid⟩ := exists_uint64 h.shardId
  obtain ⟨nodes, hnodes⟩ := exists_mapM (f := uint64) fun n hn => exists_uint64 (h.nodes n hn)
  obtain ⟨leaderTerm, hterm⟩ := exists_uint64 h.leaderTerm
  obtain ⟨addresses, haddresses⟩ : ∃ addresses,
      (p.addresses.sorted.entries.mapM fun e => do return (← uint64 e.1, e.2)) = .ok addresses := by
    refine exists_mapM fun e he => ?_
    obtain ⟨u, hu⟩ := exists_uint64 (h.addresses e (mem_sorted.1 he))
    exact ⟨(u, e.2), by rw [hu]; rfl⟩
  obtain ⟨leaderId, hleader⟩ : ∃ leaderId, p.leaderId.mapM uint64 = .ok leaderId := by
    cases hl : p.leaderId with
    | none => exact ⟨none, rfl⟩
    | some l =>
      obtain ⟨u, hu⟩ := exists_uint64 (h.leaderId l (by rw [hl]; rfl))
      exact ⟨some u, by rw [Option.mapM_some, hu]; rfl⟩
  unfold shardRecord
  rw [hid, hnodes, hterm, haddresses, hleader]
  exact ⟨_, rfl⟩

open MetadataStateMachine (init Matched keyed_replay shards_table alike_restore)

/-- What is parsed is what the group packs for itself. -/
theorem payload_arrives (hkeyed : MetadataStateMachine.Keyed m)
    {response response' : ListShardsResponse} (h : listShards m = .ok response)
    (harrives : Arrives response response') : payload response' = m.tablePayload := by
  obtain ⟨version, hversion, h⟩ := bind_ok h
  obtain ⟨records, hrecords, h⟩ := bind_ok h
  cases h
  refine Prod.ext ?_ ?_
  · have hread : (version : ℕ) = m.version := Int.ofNat_inj.1 (uint64_ok hversion)
    show (response'.version : ℕ) = m.version
    rw [harrives.version]
    exact hread
  · show response'.shards.map placementOf = _
    rw [placements_arrive hrecords harrives.shards, shards_table fun {_ _} => hkeyed _ _]
    show (m.shards.sorted.entries.map _).map _ = m.shards.sorted.entries.map _
    rw [map_map]
    refine map_congr_left fun e _ => ?_
    have hagain : e.2.addresses.sorted.sorted = e.2.addresses.sorted :=
      sorted_congr fun node => get?_sorted ..
    show ({ e.2 with addresses := e.2.addresses.sorted.sorted } : ShardPlacement) = _
    rw [hagain]

theorem MetadataStateMachine.Fits.exists_response (h : m.Fits)
    (hkeyed : MetadataStateMachine.Keyed m) : ∃ response, listShards m = .ok response := by
  obtain ⟨version, hversion⟩ := exists_uint64 h.version
  obtain ⟨records, hrecords⟩ : ∃ records,
      (m.table.shards.entries.mapM fun e => shardRecord e.2) = .ok records := by
    refine exists_mapM fun e he => ShardPlacement.Fits.exists_record ?_
    rw [shards_table fun {_ _} => hkeyed _ _] at he
    obtain ⟨e', he', rfl⟩ := mem_map.1 he
    obtain ⟨hid, hnodes, haddresses, hleader, hterm⟩ :=
      h.shards e'.1 e'.2 (get?_eq_some.2 (mem_sorted.1 he'))
    exact ⟨hid, hnodes, fun a ha => haddresses a (mem_sorted.1 ha), hleader, hterm⟩
  have hversion' : uint64 m.table.version = .ok version := hversion
  refine ⟨⟨version, records⟩, ?_⟩
  rw [listShards, hversion', hrecords]
  rfl

/-- **The table survives the wire**: of every table whose numbers fit their fields a member builds a
response, and a client that parses it, however its maps are ordered, has the group's own table. -/
theorem table_survives_wire {V : Type} (py : Python V) (payloads : List (Payload V))
    (m : MetadataStateMachine) (hm : init.replay py payloads = m) (hfits : m.Fits) :
    ∃ response, listShards m = .ok response ∧ ∀ response', Arrives response response' →
      parseTable (payload response') = m.table ∧
      (parseTable (payload response')).version = m.version ∧
      (∀ shardId, Matched ((parseTable (payload response')).shards.get? shardId)
        (m.shards.get? shardId)) ∧
      ∀ key, (parseTable (payload response')).routeFor key = m.table.routeFor key := by
  have hkeyed : MetadataStateMachine.Keyed m := hm ▸ keyed_replay py payloads
  obtain ⟨response, hresponse⟩ := hfits.exists_response hkeyed
  refine ⟨response, hresponse, fun response' harrives => ?_⟩
  have hpayload := payload_arrives hkeyed hresponse harrives
  rw [hpayload]
  exact ⟨rfl, rfl, (alike_restore hkeyed init).shards, fun _ => rfl⟩

/-- One shard, served by node 0 at one address, which leads it. -/
def ledByZero : List (Payload MetadataStateMachine.Value) :=
  [MetadataStateMachine.command .initRoutes
      [("ranges", .list [.list [.int 0, .bytes [], .bytes [8]]])],
    MetadataStateMachine.command .setShardNodes [("shard_id", .int 0), ("nodes", .list [.int 0]),
      ("addresses", .list [.list [.int 0, .str "a"]])],
    MetadataStateMachine.command .reportLeader
      [("shard_id", .int 0), ("node_id", .int 0), ("term", .int 0)]]

/-- Ids and terms that are zero arrive, and are no absence. -/
theorem table_survives_wire_zero : ∃ m response,
    init.replay MetadataStateMachine.plain ledByZero = m ∧ listShards m = .ok response ∧
      parseTable (payload response) = m.table ∧
      ((parseTable (payload response)).shards.get? 0).map (·.leaderId) = some (some 0) := by
  have hentries : (init.replay plain ledByZero).shards.entries =
      [(0, ⟨0, [], [8], [0], .ofList [(0, "a")], some 0, 0⟩)] := by decide +kernel
  have hfits : (init.replay plain ledByZero).Fits := by
    refine ⟨by decide +kernel, fun shardId p hp => ?_⟩
    have hin := get?_eq_some.1 hp
    rw [hentries, mem_singleton] at hin
    obtain ⟨rfl, rfl⟩ := Prod.mk.inj hin
    exact ⟨by decide, by decide, by decide +kernel, by decide, by decide⟩
  obtain ⟨response, hresponse, harrived⟩ :=
    table_survives_wire plain ledByZero _ rfl hfits
  have hsame : Arrives response response :=
    ⟨rfl, forall₂_same.2 fun r _ => ⟨rfl, fun _ => rfl⟩⟩
  obtain ⟨htable, -⟩ := harrived response hsame
  refine ⟨_, response, rfl, hresponse, htable, ?_⟩
  rw [htable]
  decide +kernel

end OxideDB.Metadata
