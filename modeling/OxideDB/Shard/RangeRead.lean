import OxideDB.Metadata.Service
import OxideDB.Storage.Keyspace

/-!
# The range read of a shard

A split, a move and a recovery all begin by reading a shard out: every row of the range the
range map gives it.  The rows are those of the range, and what is stored in the shard is what
`locate` sends there; the two differ at the ends of the keyspace, where a bound may hold a byte
no read accepts, and where a key outside every range falls back to shard 0.
-/

namespace OxideDB

namespace Storage.MVCCStateMachine

open List MVCCStorage Dict
open Raft (Bytes)

variable {m : MVCCStateMachine} {lo hi key value : Bytes} {rows : List (Bytes × Bytes × ℤ)}

/-- Whether no key of a range is locked. -/
def Unlocked (m : MVCCStateMachine) (lo hi : Bytes) : Prop :=
  ∀ k s f, m.maps.lock k s = some f → ¬ (lo ≤ k ∧ k < hi)

variable {locks : List (Bytes × Lock)}

/-- A lock outside the range makes no difference to a range read. -/
theorem foldlM_scanLock {timestamp : Option ℤ} {rows : Dict Bytes (Bytes × ℤ)}
    (h : ∀ e ∈ locks, ¬ (lo ≤ e.1 ∧ e.1 < hi)) :
    locks.foldlM (scanLock lo hi timestamp) rows = .ok rows := by
  induction locks with
  | nil => rfl
  | cons e locks ih =>
    rw [foldlM_cons, scanLock, if_pos (h e mem_cons_self)]
    exact ih fun e' he' => h e' (mem_cons_of_mem _ he')

/-- A lock in the range refuses a read of the newest versions. -/
theorem foldlM_scanLock_none {rows rows' : Dict Bytes (Bytes × ℤ)}
    (h : locks.foldlM (scanLock lo hi none) rows = .ok rows') :
    ∀ e ∈ locks, ¬ (lo ≤ e.1 ∧ e.1 < hi) := by
  induction locks generalizing rows with
  | nil => exact nofun
  | cons e locks ih =>
    rw [foldlM_cons] at h
    obtain ⟨next, hnext, hrest⟩ := bind_ok h
    have hout : ¬ (lo ≤ e.1 ∧ e.1 < hi) := by
      intro hin
      rw [scanLock, if_neg (not_not_intro hin), Option.all_none, if_pos rfl] at hnext
      cases hnext
    intro e' he'
    rcases mem_cons.1 he' with rfl | he'
    · exact hout
    · exact ih hrest e' he'

theorem forall_iterLocks (h : m.storage.iterLocks = .ok locks) :
    (∀ e ∈ locks, ¬ (lo ≤ e.1 ∧ e.1 < hi)) ↔ m.Unlocked lo hi := by
  obtain ⟨locks', hlocks, -, hmem⟩ := iterLocks_valid m.storage
  cases h.symm.trans hlocks
  constructor
  · intro hall k s f hf
    exact hall _ ((hmem k _).2 ⟨s, f, hf, rfl⟩)
  · rintro hno ⟨k, lock⟩ he
    obtain ⟨s, f, hf, -⟩ := (hmem k lock).1 he
    exact hno k s f hf

/-- **A range read of the newest versions**: one row for each key whose newest visible version is
a value, when no key of the range is locked. -/
theorem scanVersions_unlocked (hlo : ValidKey lo) (hhi : ValidKey hi) (hfree : m.Unlocked lo hi) :
    ∃ rows, m.scanVersions lo hi none = .ok rows ∧
      m.storage.scanVersions lo hi m.lastAppliedTimestamp = .ok rows ∧
      (rows.Pairwise fun e e' => e.1 < e'.1) ∧ ∀ k v t, (k, v, t) ∈ rows ↔
        lo ≤ k ∧ k < hi ∧ Newest (m.maps.visible k m.lastAppliedTimestamp) (some (t, some v)) := by
  obtain ⟨rows, hrows, hsorted, hmem⟩ :=
    scanVersions_valid m.storage hlo hhi m.lastAppliedTimestamp
  obtain ⟨locks, hlocks, -⟩ := iterLocks_valid m.storage
  refine ⟨rows, ?_, hrows, hsorted, hmem⟩
  have hkeys : ((rows.map fun row => (row.1, row.2)).map Prod.fst).Nodup := by
    rw [map_map]
    exact nodup_iff_pairwise_ne.2 (pairwise_map.2 (hsorted.imp ne_of_lt))
  have hentries : (ofList (rows.map fun row => (row.1, row.2))).entries = rows :=
    (entries_ofList hkeys).trans (map_id' rows)
  simp only [scanVersions, orRaise, Option.getD_none, hrows, hlocks, bind, Except.bind]
  rw [foldlM_scanLock ((forall_iterLocks hlocks).2 hfree)]
  show Except.ok _ = Except.ok rows
  rw [entries_sorted (by rwa [hentries]), hentries, map_id']

theorem orRaise_ok {α : Type} {x : Except String α} {a : α} (h : orRaise x = .ok a) : x = .ok a := by
  cases x with
  | ok b => exact congrArg _ (Except.ok.inj h)
  | error e => cases h

/-- A range that is read has bounds without the separator. -/
theorem valid_of_scanVersions {timestamp : ℤ}
    (h : m.storage.scanVersions lo hi timestamp = .ok rows) : ValidKey lo ∧ ValidKey hi := by
  obtain ⟨lo', hlo, hrest⟩ := bind_ok h
  obtain ⟨hi', hhi, -⟩ := bind_ok hrest
  have hlo' := Option.some.inj (checkUserKey_ok hlo)
  have hhi' := Option.some.inj (checkUserKey_ok hhi)
  exact ⟨hlo' ▸ lo'.2, hhi' ▸ hi'.2⟩

/-- A range read of the newest versions that is answered met no lock. -/
theorem unlocked_of_scanVersions (h : m.scanVersions lo hi none = .ok rows) :
    ValidKey lo ∧ ValidKey hi ∧ m.Unlocked lo hi := by
  obtain ⟨versions, hversions, hrest⟩ := bind_ok h
  obtain ⟨locks, hlocks, hrest⟩ := bind_ok hrest
  obtain ⟨rows', hfold, -⟩ := bind_ok hrest
  obtain ⟨hlo, hhi⟩ := valid_of_scanVersions (orRaise_ok hversions)
  exact ⟨hlo, hhi, (forall_iterLocks (orRaise_ok hlocks)).1 (foldlM_scanLock_none hfold)⟩

end Storage.MVCCStateMachine

namespace Shard

open Raft (Bytes)
open Metadata (RangeMap locate)
open Storage

variable {rangeMap : RangeMap} {key value : Bytes} {rows : List (Bytes × Bytes × ℤ)}

/-! ## Range maps -/

/-- `default_range_map`, of `shard/router.py`. -/
def defaultRangeMap (numShards : ℕ) : RangeMap :=
  if numShards ≤ 1 then .ofList [(0, ([], [0xff]))]
  else
    let chunk := 256 / numShards
    .ofList <| (List.range numShards).map fun i =>
      (Int.ofNat i, ([.ofNat (i * chunk)],
        if i < numShards - 1 then [.ofNat ((i + 1) * chunk)] else [0xff]))

/-- `apply_split_locally`; no entry is a `KeyError`. -/
def applySplitLocally (rangeMap : RangeMap) (shardId : ℤ) (splitKey : Bytes) (newShardId : ℤ) :
    Except String RangeMap :=
  match rangeMap.get? shardId with
  | none => .error s!"KeyError: {shardId}"
  | some (start, stop) =>
    .ok ((rangeMap.set shardId (start, splitKey)).set newShardId (splitKey, stop))

/-- The maps that splits at points inside a range make of one. -/
inductive SplitFrom (first : RangeMap) : RangeMap → Prop
  | refl : SplitFrom first first
  | split {rangeMap rangeMap' : RangeMap} {shardId newShardId : ℤ} {start stop splitKey : Bytes}
      (hfrom : SplitFrom first rangeMap) (hrange : rangeMap.get? shardId = some (start, stop))
      (hinside : start < splitKey ∧ splitKey < stop) (hnew : rangeMap.get? newShardId = none)
      (hsplit : applySplitLocally rangeMap shardId splitKey newShardId = .ok rangeMap') :
      SplitFrom first rangeMap'

/-- Some range of the map has the key. -/
def Covers (rangeMap : RangeMap) (key : Bytes) : Prop :=
  ∃ shardId range, rangeMap.get? shardId = some range ∧ range.1 ≤ key ∧ key < range.2

theorem exists_chunk {n : ℕ} (hn : 1 < n) (b chunk : ℕ) :
    ∃ i < n, i * chunk ≤ b ∧ (i < n - 1 → b < (i + 1) * chunk) := by
  rcases Nat.eq_zero_or_pos chunk with rfl | hpos
  · exact ⟨n - 1, by omega, by omega, fun h => absurd h (lt_irrefl _)⟩
  refine ⟨min (b / chunk) (n - 1), by omega, ?_, fun h => ?_⟩
  · calc min (b / chunk) (n - 1) * chunk ≤ b / chunk * chunk :=
          Nat.mul_le_mul_right _ (min_le_left _ _)
      _ ≤ b := Nat.div_mul_le_self _ _
  · have hdiv : min (b / chunk) (n - 1) = b / chunk := by omega
    rw [hdiv, Nat.add_one_mul]
    exact Nat.lt_div_mul_add hpos

theorem get?_numbered {n : ℕ} {f : ℕ → Bytes × Bytes} {shardId : ℤ} {range : Bytes × Bytes} :
    (Dict.ofList ((List.range n).map fun i => (Int.ofNat i, f i))).get? shardId = some range ↔
      ∃ i < n, Int.ofNat i = shardId ∧ f i = range := by
  rw [Dict.get?_eq_some, Dict.entries_ofList]
  · simp only [List.mem_map, List.mem_range, Prod.mk.injEq]
  · rw [List.map_map]
    exact List.nodup_range.map fun x y hxy => Int.ofNat.inj hxy

theorem covers_default (n : ℕ) (hlo : [0] ≤ key) (hhi : key < [0xff]) :
    Covers (defaultRangeMap n) key := by
  unfold defaultRangeMap
  split
  · refine ⟨0, ([], [0xff]), rfl, ?_, hhi⟩
    exact not_lt.1 (ByteOrder.not_lt_nil key)
  next hn =>
  obtain ⟨b, rest, rfl⟩ : ∃ b rest, key = b :: rest := by
    cases key with
    | nil => exact absurd hlo (by decide)
    | cons b rest => exact ⟨b, rest, rfl⟩
  obtain ⟨i, hi, hstart, hstop⟩ := exists_chunk (Nat.lt_of_not_le hn) b.toNat (256 / n)
  have hb := b.toNat_lt
  refine ⟨Int.ofNat i, _, get?_numbered.2 ⟨i, hi, rfl, rfl⟩, ?_, ?_⟩
  · have hle : UInt8.ofNat (i * (256 / n)) ≤ b := by
      rw [UInt8.le_iff_toNat_le, UInt8.toNat_ofNat_of_lt' (lt_of_le_of_lt hstart hb)]
      exact hstart
    rw [ByteOrder.cons_le_cons]
    rcases hle.lt_or_eq with hlt | heq
    · exact .inl hlt
    · exact .inr ⟨heq, not_lt.1 (ByteOrder.not_lt_nil rest)⟩
  · dsimp only
    split
    · next hlast =>
      have hbound : (i + 1) * (256 / n) < 256 := by
        have hpos : 0 < 256 / n := by
          by_contra hzero
          have hlt := hstop hlast
          rw [Nat.eq_zero_of_not_pos hzero, Nat.mul_zero] at hlt
          exact absurd hlt (Nat.not_lt_zero _)
        calc (i + 1) * (256 / n) < n * (256 / n) := Nat.mul_lt_mul_of_pos_right (by omega) hpos
          _ ≤ 256 := Nat.mul_div_le 256 n
      refine ByteOrder.cons_lt_cons.2 (.inl ?_)
      rw [UInt8.lt_iff_toNat_lt, UInt8.toNat_ofNat_of_lt' hbound]
      exact hstop hlast
    · exact hhi

/-- **However a map is split**, it covers what it covered. -/
theorem SplitFrom.covers {first : RangeMap} (h : SplitFrom first rangeMap)
    (hfirst : Covers first key) : Covers rangeMap key := by
  induction h with
  | refl => exact hfirst
  | @split rangeMap rangeMap' shardId newShardId start stop splitKey _ hrange _ hnew hsplit ih =>
    rw [applySplitLocally, hrange] at hsplit
    cases hsplit
    have hne : shardId ≠ newShardId := by
      rintro rfl
      rw [hrange] at hnew
      cases hnew
    obtain ⟨shard, range, hget, hlo, hhi⟩ := ih
    by_cases hshard : shard = shardId
    · subst hshard
      cases hget.symm.trans hrange
      -- the key is in one of the two halves
      rcases lt_or_ge key splitKey with hlt | hge
      · refine ⟨shard, (start, splitKey), ?_, hlo, hlt⟩
        rw [Dict.get?_set_of_ne _ _ hne, Dict.get?_set_self]
      · exact ⟨newShardId, (splitKey, stop), Dict.get?_set_self _ _ _, hge, hhi⟩
    · have hother : shard ≠ newShardId := by
        rintro rfl
        rw [hget] at hnew
        cases hnew
      refine ⟨shard, range, ?_, hlo, hhi⟩
      rw [Dict.get?_set_of_ne _ _ hother, Dict.get?_set_of_ne _ _ hshard, hget]

theorem singleton_le (b : UInt8) : ([b] : Bytes) ≤ [0xff] := by
  rw [ByteOrder.cons_le_cons]
  rcases (UInt8.le_iff_toNat_le.2 (Nat.le_of_lt_succ b.toNat_lt) : b ≤ 0xff).lt_or_eq with hlt | heq
  · exact .inl hlt
  · exact .inr ⟨heq, le_rfl⟩

/-- No range ends above `b"\xff"`. -/
theorem SplitFrom.stop_le {n : ℕ} (h : SplitFrom (defaultRangeMap n) rangeMap) {shardId : ℤ}
    {range : Bytes × Bytes} (hget : rangeMap.get? shardId = some range) : range.2 ≤ [0xff] := by
  induction h generalizing shardId range with
  | refl =>
    unfold defaultRangeMap at hget
    split at hget
    · obtain ⟨-, rfl⟩ := Prod.mk.inj (List.mem_singleton.1 (Dict.get?_eq_some.1 hget))
      exact le_rfl
    · obtain ⟨i, -, -, rfl⟩ := get?_numbered.1 hget
      dsimp only
      split
      · exact singleton_le _
      · exact le_rfl
  | @split rangeMap rangeMap' left newShardId start stop splitKey _ hrange hinside _ hsplit ih =>
    rw [applySplitLocally, hrange] at hsplit
    cases hsplit
    have hstop : stop ≤ [0xff] := ih hrange
    by_cases hnew : shardId = newShardId
    · subst hnew
      rw [Dict.get?_set_self] at hget
      cases hget
      exact hstop
    rw [Dict.get?_set_of_ne _ _ hnew] at hget
    by_cases hleft : shardId = left
    · subst hleft
      rw [Dict.get?_set_self] at hget
      cases hget
      exact hinside.2.le.trans hstop
    · rw [Dict.get?_set_of_ne _ _ hleft] at hget
      exact ih hget

/-- A covered key is located in a shard whose range has it. -/
theorem locate_of_covers (h : Covers rangeMap key) :
    ∃ range, rangeMap.get? (locate rangeMap key) = some range ∧ range.1 ≤ key ∧ key < range.2 := by
  unfold locate
  rcases hf : List.find? _ rangeMap.entries with _ | e
  · obtain ⟨shard, range, hget, hin⟩ := h
    exact absurd (decide_eq_true hin) (List.find?_eq_none.1 hf _ (Dict.get?_eq_some.1 hget))
  · have hin := List.find?_some hf
    exact ⟨e.2, Dict.get?_eq_some.2 (List.mem_of_find?_eq_some hf), of_decide_eq_true hin⟩

/-! ## Reading a shard out -/

/-- `_committed_rows` of the leader whose machine is `m`. -/
def committedRows (m : MVCCStateMachine) (start stop : Bytes) :
    Except String (List (Bytes × Bytes)) :=
  m.storage.scan start stop m.lastAppliedTimestamp

/-- `_rows_above` of a side that has the node: `entry` is the shard's range. -/
def rowsAbove (m : MVCCStateMachine) (entry : Bytes × Bytes) (splitKey : Bytes) :
    Except String (List (Bytes × Bytes)) := do
  return (← committedRows m entry.1 entry.2).filter fun row => splitKey ≤ row.1

/-- `_rows_above` of a side that asks the group through a client. -/
def rowsAboveThrough (m : MVCCStateMachine) (entry : Bytes × Bytes) (splitKey : Bytes) :
    Except MVCCStateMachine.ScanFailure (List (Bytes × Bytes)) := do
  return ((← m.scanVersions entry.1 entry.2 none).map fun row => (row.1, row.2.1)).filter fun row =>
    splitKey ≤ row.1

/-- `_locks_in_range` of a side that has the node. -/
def locksInRange (m : MVCCStateMachine) (start stop : Bytes) : Except String Bool := do
  return (← m.storage.iterLocks).any fun e => start ≤ e.1 ∧ e.1 < stop

/-- A key is live, with a value: the newest version of it is not a tombstone. -/
def Live (m : MVCCStateMachine) (key value : Bytes) : Prop :=
  m.maps.Shows key m.lastAppliedTimestamp (some value)

/-- A key the shard has a version of. -/
def Stored (m : MVCCStateMachine) (key : Bytes) : Prop := ∃ t, m.maps.version key t ≠ none

variable {m : MVCCStateMachine}

theorem live_iff : Live m key value ↔
    ∃ t, Newest (m.maps.visible key m.lastAppliedTimestamp) (some (t, some value)) := by
  constructor
  · rintro ⟨r, hr, hv⟩
    obtain ⟨⟨t, w⟩, rfl, rfl⟩ := Option.bind_eq_some_iff.1 hv.symm
    exact ⟨t, hr⟩
  · rintro ⟨t, ht⟩
    exact ⟨_, ht, rfl⟩

theorem Live.stored (h : Live m key value) : Stored m key := by
  obtain ⟨t, ht⟩ := live_iff.1 h
  obtain - | ⟨hv, -⟩ := ht
  exact ⟨t, by rw [(Maps.visible_eq_some.1 hv).2]; exact Option.some_ne_none _⟩

/-- The rows of a range read, by key: `rows` has the live keys of the machine and no others. -/
def Exactly (m : MVCCStateMachine) (rows : List (Bytes × Bytes)) : Prop :=
  (rows.Pairwise fun e e' => e.1 < e'.1) ∧ ∀ key value, (key, value) ∈ rows ↔ Live m key value

/-- The range can be read, and no live key is above every range. -/
def Readable (m : MVCCStateMachine) (start stop : Bytes) : Prop :=
  ValidKey start ∧ ValidKey stop ∧ ∀ key value, Live m key value → key < [0xff]

/-- What a range read finds is all there is, exactly if every live key is in the range. -/
theorem exactly_scanVersions {start stop : Bytes} (hsorted : rows.Pairwise fun e e' => e.1 < e'.1)
    (hmem : ∀ k v t, (k, v, t) ∈ rows ↔ start ≤ k ∧ k < stop ∧
      Newest (m.maps.visible k m.lastAppliedTimestamp) (some (t, some v))) :
    Exactly m (rows.map fun row => (row.1, row.2.1)) ↔
      ∀ key value, Live m key value → start ≤ key ∧ key < stop := by
  constructor
  · rintro ⟨-, hall⟩ key value hlive
    obtain ⟨⟨k, v, t⟩, hrow, heq⟩ := List.mem_map.1 ((hall key value).2 hlive)
    cases heq
    obtain ⟨hlo, hhi, -⟩ := (hmem k v t).1 hrow
    exact ⟨hlo, hhi⟩
  intro hin
  refine ⟨List.pairwise_map.2 hsorted, fun key value => ?_⟩
  rw [List.mem_map]
  constructor
  · rintro ⟨⟨k, v, t⟩, hrow, heq⟩
    cases heq
    exact live_iff.2 ⟨t, ((hmem k v t).1 hrow).2.2⟩
  · intro hlive
    obtain ⟨t, ht⟩ := live_iff.1 hlive
    obtain ⟨hlo, hhi⟩ := hin key value hlive
    exact ⟨(key, value, t), (hmem key value t).2 ⟨hlo, hhi, ht⟩, rfl⟩

/-- A read that succeeds for bounds without the separator, and for no others. -/
theorem readable_iff {ε : Type} {read : Except ε (List (Bytes × Bytes × ℤ))} {start stop : Bytes}
    (hin : (∀ key value, Live m key value → start ≤ key ∧ key < stop) ↔
      ∀ key value, Live m key value → key < [0xff])
    (hvalid : ∀ {rows}, read = .ok rows → ValidKey start ∧ ValidKey stop)
    (hread : ValidKey start → ValidKey stop → ∃ rows, read = .ok rows ∧
      (rows.Pairwise fun e e' => e.1 < e'.1) ∧ ∀ k v t, (k, v, t) ∈ rows ↔ start ≤ k ∧ k < stop ∧
        Newest (m.maps.visible k m.lastAppliedTimestamp) (some (t, some v))) :
    (∃ rows, (read >>= fun rows => pure (rows.map fun row => (row.1, row.2.1))) = .ok rows ∧
      Exactly m rows) ↔ Readable m start stop := by
  constructor
  · rintro ⟨rows, hrows, hexact⟩
    obtain ⟨rows', hok, hmap⟩ := bind_ok hrows
    cases hmap
    obtain ⟨hstart, hstop⟩ := hvalid hok
    obtain ⟨rows'', hok', hsorted, hmem⟩ := hread hstart hstop
    cases hok.symm.trans hok'
    exact ⟨hstart, hstop, hin.1 ((exactly_scanVersions hsorted hmem).1 hexact)⟩
  · rintro ⟨hstart, hstop, hbelow⟩
    obtain ⟨rows, rfl, hsorted, hmem⟩ := hread hstart hstop
    exact ⟨_, rfl, (exactly_scanVersions hsorted hmem).2 (hin.2 hbelow)⟩

section

variable {n : ℕ} (hsplits : SplitFrom (defaultRangeMap n) rangeMap) {shardId : ℤ}
  {start stop : Bytes} (hrange : rangeMap.get? shardId = some (start, stop))
include hsplits hrange

/-- A key that is located in a shard is in its range, exactly if it is below the end of the
keyspace. -/
theorem SplitFrom.mem_range_iff (hne : key ≠ []) (hloc : locate rangeMap key = shardId) :
    start ≤ key ∧ key < stop ↔ key < [0xff] := by
  refine ⟨fun h => h.2.trans_le (hsplits.stop_le hrange), fun hbelow => ?_⟩
  have hlo : [0] ≤ key := by
    obtain ⟨b, rest, rfl⟩ := List.exists_cons_of_ne_nil hne
    rw [ByteOrder.cons_le_cons]
    rcases (UInt8.le_iff_toNat_le.2 (Nat.zero_le _) : (0 : UInt8) ≤ b).lt_or_eq with hlt | heq
    · exact .inl hlt
    · exact .inr ⟨heq, not_lt.1 (ByteOrder.not_lt_nil rest)⟩
  obtain ⟨range, hget, hle, hlt⟩ :=
    locate_of_covers (hsplits.covers (covers_default n hlo hbelow))
  rw [hloc] at hget
  cases hget.symm.trans hrange
  exact ⟨hle, hlt⟩

/-- **A shard's range read is its rows**, over any splits of a default map, exactly if the range is
readable: what the side that holds the node reads, and, when no key of the range is locked, what the
group answers. -/
theorem range_read_exact
    (hlocated : ∀ key value, Live m key value → key ≠ [] ∧ locate rangeMap key = shardId) :
    ((∃ rows, committedRows m start stop = .ok rows ∧ Exactly m rows) ↔ Readable m start stop) ∧
      (m.Unlocked start stop →
        ((∃ rows, m.scan start stop none = .ok rows ∧ Exactly m rows) ↔ Readable m start stop)) := by
  have hin : (∀ key value, Live m key value → start ≤ key ∧ key < stop) ↔
      ∀ key value, Live m key value → key < [0xff] :=
    forall_congr' fun key => forall_congr' fun value => imp_congr_right fun hlive =>
      hsplits.mem_range_iff hrange (hlocated key value hlive).1 (hlocated key value hlive).2
  refine ⟨readable_iff hin MVCCStateMachine.valid_of_scanVersions fun hstart hstop => ?_,
    fun hfree => readable_iff hin (fun hread => ?_) fun hstart hstop => ?_⟩
  · exact MVCCStorage.scanVersions_valid m.storage hstart hstop m.lastAppliedTimestamp
  · obtain ⟨hstart, hstop, -⟩ := MVCCStateMachine.unlocked_of_scanVersions hread
    exact ⟨hstart, hstop⟩
  · obtain ⟨rows, hrows, -, hrest⟩ := MVCCStateMachine.scanVersions_unlocked hstart hstop hfree
    exact ⟨rows, hrows, hrest⟩

end

/-- A shard to which a `SET` of one key was applied. -/
def oneRow (key : Bytes) : MVCCStateMachine :=
  (MVCCStateMachine.empty.apply 0
    { type := .set, key := some key, value := some [120], timestamp := some 1 }).1

theorem version_oneRow (hkey : ValidKey key) : (oneRow key).maps.version =
    (Maps.empty.putVersion key 1 (some [120])).version := by
  obtain ⟨m', happly, hmaps, -⟩ :=
    MVCCStateMachine.apply_set 0 .empty ⟨key, hkey⟩ [120] ⟨1, by decide⟩ none
  have heq : oneRow key = m' := congrArg Prod.fst happly
  rw [heq, hmaps, Option.elim_none, MVCCStateMachine.empty, MVCCStateMachine.maps,
    MVCCStorage.maps_empty]

theorem stored_oneRow {key' : Bytes} (hkey : ValidKey key) (h : Stored (oneRow key) key') :
    key' = key := by
  obtain ⟨t, ht⟩ := h
  rw [version_oneRow hkey, Maps.putVersion_version] at ht
  by_contra hne
  exact ht (if_neg fun heq => hne heq.1)

/-- The map of one shard, split at `b"m"`, and the lower half read out. -/
theorem range_read_exact_split : ∃ rangeMap,
    applySplitLocally (defaultRangeMap 1) 0 [109] 1 = .ok rangeMap ∧
      rangeMap.get? 0 = some ([], [109]) ∧ Stored (oneRow [97]) [97] ∧
      Readable (oneRow [97]) [] [109] ∧
      ∃ rows, committedRows (oneRow [97]) [] [109] = .ok rows ∧ Exactly (oneRow [97]) rows := by
  have hrange : (defaultRangeMap 1).get? 0 = some ([], [255]) := by decide +kernel
  obtain ⟨rangeMap, hsplit⟩ : ∃ rangeMap,
    applySplitLocally (defaultRangeMap 1) 0 [109] 1 = .ok rangeMap := ⟨_, rfl⟩
  have hget : rangeMap.get? 0 = some ([], [109]) := by
    cases hsplit
    decide +kernel
  have hlocate : locate rangeMap [97] = 0 := by
    cases hsplit
    decide +kernel
  have hreadable : Readable (oneRow [97]) [] [109] := by
    refine ⟨by decide, by decide, fun key value hlive => ?_⟩
    rw [stored_oneRow (by decide) hlive.stored]
    decide
  refine ⟨rangeMap, hsplit, hget, ⟨1, by decide +kernel⟩, hreadable,
    (range_read_exact (.split .refl hrange (by decide +kernel) (by decide +kernel) hsplit) hget
      fun key value hlive => ?_).1.2 hreadable⟩
  rw [stored_oneRow (by decide) hlive.stored]
  exact ⟨List.cons_ne_nil _ _, hlocate⟩

/-- **The default map of two shards cannot be read out**: its first range starts with the byte no
key may have.  And in the map of one shard, a key of the byte `0xff` is stored where no read of the
range finds it. -/
theorem default_range_unreadable :
    ((defaultRangeMap 2).get? 0 = some ([0], [128]) ∧ locate (defaultRangeMap 2) [97] = 0 ∧
      committedRows (oneRow [97]) [0] [128] =
        .error "keys must not contain the 0x00 separator byte") ∧
    (defaultRangeMap 1).get? 0 = some ([], [255]) ∧ locate (defaultRangeMap 1) [255] = 0 ∧
      Live (oneRow [255]) [255] [120] ∧ committedRows (oneRow [255]) [] [255] = .ok [] := by
  refine ⟨⟨by decide +kernel, by decide +kernel, by decide +kernel⟩, by decide +kernel,
    by decide +kernel, live_iff.2 ⟨1, ?_⟩, by decide +kernel⟩
  refine .some (by decide +kernel) fun t ht => ?_
  have hlast : (oneRow [255]).lastAppliedTimestamp = 1 := by decide +kernel
  exact if_neg (by omega)

end Shard
end OxideDB
