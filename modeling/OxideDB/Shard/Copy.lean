import OxideDB.Shard.RangeRead
import OxideDB.Storage.Agreement

/-!
# Copying a range into another group

The copy of a split and the copy of a move go over the rows that were read of the source, ask the
target for each, and propose the row as the version it already is when the target does not have
it.  The loops differ in what a refused row does: a move stops, a split goes on.

* `copyRow_cases`, `propose_moveRow` — what the body of the loops does.
* `version_copyMissing` — which rows the copy of a split leaves in the target.
-/

namespace OxideDB.Shard

open Raft (Bytes ApplyResult ErrorCode)
open Storage List MVCCStateMachine
open Storage.MVCCStateMachine (ScanFailure orRaise orRaise_ok Newest.unique)

variable {result : ApplyResult} {read : List (Bytes × Bytes × ℤ)} {r : Option ApplyResult}

/-! ## The loops -/

/-- What comes of a proposal to a group: its entry is applied and the machine's answer comes back,
or the proposer is told something, a refusal or a success, whatever becomes of the entry. -/
inductive Outcome where
  | answered (now : Time)
  | told (result : ApplyResult) (appliedAt : Option Time)
  deriving DecidableEq

variable {outcome : Outcome}

namespace Outcome

/-- The group after the proposal, and what the proposer hears. -/
def propose (target : MVCCStateMachine) (command : Command) :
    Outcome → MVCCStateMachine × ApplyResult
  | .answered now => target.apply now command
  | .told result none => (target, result)
  | .told result (some now) => ((target.apply now command).1, result)

/-- The entry is applied. -/
def Applies : Outcome → Prop
  | .answered _ => True
  | .told _ appliedAt => appliedAt ≠ none

/-- A success is told of an entry that is applied. -/
def Sincere : Outcome → Prop
  | .answered _ => True
  | .told result appliedAt => result.success = true → appliedAt ≠ none

end Outcome

/-- What the target group has to say about one row. -/
structure RowAnswer where
  /-- The refusal of a read whose leader could not confirm that it leads. -/
  readRefusal : Option ErrorCode
  outcome : Outcome
  deriving DecidableEq

/-- `target.get(key)`; a refused read carries no version. -/
def RowAnswer.get (a : RowAnswer) (target : MVCCStateMachine) (key : Bytes) :
    Except String ReadResult :=
  match a.readRefusal with
  | some code => .ok { success := false, errorCode := some code }
  | none => target.get key none

/-- The target's answer to the read carries the version: the row is passed over. -/
def RowAnswer.Skips (a : RowAnswer) (target : MVCCStateMachine) (key : Bytes) (version : ℤ) : Prop :=
  ∃ read, a.get target key = .ok read ∧ read.commitTs = version

/-- The command of `_move_row`: the row as the version it already is, with the write record of the
transaction that committed it. -/
def moveRowCommand (key value : Bytes) (version : ℤ) (record : Option WriteRecord) : Command :=
  { type := .set, key := some key, value := some value, timestamp := some version,
    startTs := (record.filter fun r => r.commitTs = version).map (·.startTs) }

/-- `_move_row`. -/
def moveRow (source target : MVCCStateMachine) (key value : Bytes) (version : ℤ)
    (outcome : Outcome) : Except String (MVCCStateMachine × ApplyResult) := do
  let record ← source.getWriteRecord key
  return outcome.propose target (moveRowCommand key value version record)

/-- The body of the copy loops, with what `_move_row` returned if it was called. -/
def copyRow (source : MVCCStateMachine) (versions : Dict Bytes ℤ) (target : MVCCStateMachine)
    (row : Bytes × Bytes) (a : RowAnswer) :
    Except String (MVCCStateMachine × Option ApplyResult) := do
  match versions.get? row.1 with
  | none => return (target, none)
  | some expected =>
    if (← a.get target row.1).commitTs = expected then return (target, none)
    else
      let (target, result) ← moveRow source target row.1 row.2 expected a.outcome
      return (target, some result)

/-- The loop of `_copy_what_is_missing`: what `_move_row` returns is not looked at. -/
def copyMissing (source : MVCCStateMachine) (versions : Dict Bytes ℤ) :
    List ((Bytes × Bytes) × RowAnswer) → MVCCStateMachine → Except String MVCCStateMachine
  | [], target => .ok target
  | (row, a) :: rows, target => do
    let (target, _) ← copyRow source versions target row a
    copyMissing source versions rows target

/-- The loop of `_copy_rows`, which stops at a row the target refused. -/
def copyUntilRefused (source : MVCCStateMachine) (versions : Dict Bytes ℤ) :
    List ((Bytes × Bytes) × RowAnswer) → MVCCStateMachine → Except String (MVCCStateMachine × Bool)
  | [], target => .ok (target, true)
  | (row, a) :: rows, target => do
    match ← copyRow source versions target row a with
    | (target, some result) =>
      if result.success then copyUntilRefused source versions rows target
      else return (target, false)
    | (target, none) => copyUntilRefused source versions rows target

/-- The version of each row of a range read. -/
def versionsOf (rows : List (Bytes × Bytes × ℤ)) : Dict Bytes ℤ :=
  .ofList (rows.map fun row => (row.1, row.2.2))

/-- `_copy_what_is_missing`, from the point where a leader of the new group is found.  `entry` is
the range of the source and `rows` are the rows pending, each with what the group says to it. -/
def copyWhatIsMissing (source : MVCCStateMachine) (entry : Bytes × Bytes)
    (rows : List ((Bytes × Bytes) × RowAnswer)) (target : MVCCStateMachine) :
    Except ScanFailure MVCCStateMachine := do
  let versions := versionsOf (← source.scanVersions entry.1 entry.2 none)
  orRaise (copyMissing source versions rows target)

/-- `_copy_rows`; a refused range read ends the copy. -/
def copyRows (source : MVCCStateMachine) (entry : Bytes × Bytes)
    (rows : List ((Bytes × Bytes) × RowAnswer)) (target : MVCCStateMachine) :
    Except String (MVCCStateMachine × Bool) :=
  match source.scanVersions entry.1 entry.2 none with
  | .ok read => copyUntilRefused source (versionsOf read) rows target
  | .error (.refused ..) => .ok (target, false)
  | .error (.raised e) => .error e

/-- What `finish_split` meets besides the two groups: whether a leader of the new group is found in
time, whether the source's leader refuses the range read, and whether there is a table to tell. -/
structure Surroundings where
  leaderFound : Bool
  scanRefusal : Option ScanFailure
  hasTable : Bool
  deriving DecidableEq

/-- `finish_split`, up to the proposal: the new group after the copy, and whether `SPLIT` is
proposed to the routing table. -/
def finishSplit (s : Surroundings) (source : MVCCStateMachine) (entry : Bytes × Bytes)
    (rows : List ((Bytes × Bytes) × RowAnswer)) (target : MVCCStateMachine) :
    Except ScanFailure (MVCCStateMachine × Bool) :=
  if ¬ s.leaderFound then .ok (target, false)
  else
    match s.scanRefusal with
    | some refusal => .error refusal
    | none => do
      let target ← copyWhatIsMissing source entry rows target
      -- `_publish_split` without a routing table proposes nothing
      return (target, s.hasTable)

/-! ## What the body of the loops does -/

variable {source target target' : MVCCStateMachine} {versions : Dict Bytes ℤ} {k v : Bytes} {t : ℤ}
  {a : RowAnswer}

/-- Everything the body can do with a row the source has: the target has the version already, or
the row is proposed. -/
theorem copyRow_cases (hversion : versions.get? k = some t)
    (h : copyRow source versions target (k, v) a = .ok (target', r)) :
    (target' = target ∧ r = none ∧ a.Skips target k t) ∨
      ¬ a.Skips target k t ∧ ∃ record result, source.getWriteRecord k = .ok record ∧
        a.outcome.propose target (moveRowCommand k v t record) = (target', result) ∧
        r = some result := by
  simp only [copyRow, hversion] at h
  obtain ⟨read, hread, h⟩ := bind_ok h
  split at h
  · next hts =>
    cases h
    exact .inl ⟨rfl, rfl, read, hread, hts⟩
  · next hts =>
    obtain ⟨⟨target₁, result⟩, hmove, h⟩ := bind_ok h
    obtain ⟨record, hrecord, hpropose⟩ := bind_ok hmove
    cases h
    refine .inr ⟨?_, record, result, hrecord, Except.ok.inj hpropose, rfl⟩
    rintro ⟨read', hread', hts'⟩
    cases hread.symm.trans hread'
    exact hts hts'

/-- A row the source does not have any more is left out. -/
theorem copyRow_of_gone {row : Bytes × Bytes} (hversion : versions.get? row.1 = none) :
    copyRow source versions target row a = .ok (target, none) := by
  rw [copyRow, hversion]
  rfl

/-- The version a read of the target carries is one the target has, or 0. -/
theorem version_of_get {read : ReadResult} (h : a.get target k = .ok read) :
    read.commitTs = 0 ∨ ∃ w, target.maps.version k read.commitTs = some (some w) := by
  unfold RowAnswer.get at h
  split at h
  · cases h
    exact .inl rfl
  obtain ⟨newest, -, h⟩ := bind_ok h
  have hread : target.readVersion k none = .ok read ∨ read.commitTs = 0 := by
    cases newest with
    | none => exact .inl h
    | some lock =>
      simp only [reduceCtorEq, if_false, Option.all_none, if_true] at h
      cases h
      exact .inr rfl
  rcases hread with hread | hzero
  swap
  · exact .inl hzero
  obtain ⟨r, hr, h⟩ := bind_ok hread
  obtain ⟨newest, hnew, rfl⟩ := MVCCStorage.getVersion_ok hr
  match newest, hnew, h with
  | none, _, h | some (_, none), _, h =>
    cases h
    exact .inl rfl
  | some (t, some w), .some hv _, h =>
    cases h
    exact .inr ⟨w, (Maps.visible_eq_some.1 hv).2⟩

/-- What a row that is applied makes of the target's maps: the version it was, and the write record
it had if that was the newest. -/
inductive Moved (source target target' : MVCCStateMachine) (k v : Bytes) (t : ℤ) : Prop
  | recorded {s : ℤ} (hnew : Newest (source.maps.record k) (some (t, s)))
      (hmaps : target'.maps = (target.maps.putVersion k t (some v)).putRecord k t s)
  | bare (hno : ∀ s, ¬ Newest (source.maps.record k) (some (t, s)))
      (hmaps : target'.maps = target.maps.putVersion k t (some v))

section

variable (h : Moved source target target' k v t)
include h

theorem Moved.version (k' : Bytes) (t' : ℤ) :
    target'.maps.version k' t' =
      if k' = k ∧ t' = t then some (some v) else target.maps.version k' t' := by
  rw [← Maps.putVersion_version]
  cases h with
  | recorded hnew hmaps => rw [hmaps]; rfl
  | bare hno hmaps => rw [hmaps]

theorem Moved.lock : target'.maps.lock = target.maps.lock := by
  cases h with
  | recorded hnew hmaps => rw [hmaps]; rfl
  | bare hno hmaps => rw [hmaps]; rfl

theorem Moved.record_of_ne {k' : Bytes} {c : ℤ} (hne : ¬ (k' = k ∧ c = t)) :
    target'.maps.record k' c = target.maps.record k' c := by
  cases h with
  | recorded hnew hmaps =>
    rw [hmaps, Maps.putRecord_record, if_neg hne]
    rfl
  | bare hno hmaps => rw [hmaps]; rfl

end

theorem propose_moveRow {record : Option WriteRecord} (hk : ValidKey k) (ht : ValidTs t)
    (hrecord : source.getWriteRecord k = .ok record) (happlies : outcome.Applies)
    (h : outcome.propose target (moveRowCommand k v t record) = (target', result)) :
    Moved source target target' k v t := by
  obtain ⟨now, hnow⟩ : ∃ now, target' = (target.apply now (moveRowCommand k v t record)).1 := by
    match outcome, happlies, h with
    | .answered now, _, h => exact ⟨now, (congrArg Prod.fst h).symm⟩
    | .told _ (some now), _, h => exact ⟨now, (congrArg Prod.fst h).symm⟩
  obtain ⟨record', hrecord', hnew⟩ := MVCCStorage.getLatestWrite_valid source.storage hk
  obtain rfl : record = record' := Except.ok.inj (hrecord.symm.trans hrecord')
  -- the command, once it is known whether a write record travels with the row
  have hset : ∀ s : Option Stamp, (record.filter fun r => r.commitTs = t).map (·.startTs) =
      s.map Subtype.val → target'.maps = s.elim (target.maps.putVersion k t (some v))
        fun s => (target.maps.putVersion k t (some v)).putRecord k t s.1 := by
    intro s hs
    obtain ⟨m', happly, hmaps, -⟩ := apply_set now target ⟨k, hk⟩ v ⟨t, ht⟩ s
    have heq : target' = m' := by
      rw [hnow, moveRowCommand, hs]
      exact congrArg Prod.fst happly
    exact heq ▸ hmaps
  by_cases hcommit : ∃ s, Newest (source.maps.record k) (some (t, s))
  · obtain ⟨s, hs⟩ := hcommit
    have heq := Newest.unique hnew hs
    obtain ⟨r, rfl, hpair⟩ := Option.map_eq_some_iff.1 heq
    obtain ⟨hc, hstart⟩ := Prod.mk.inj hpair
    have hvalid : ValidTs s := by
      obtain - | ⟨hrec, -⟩ := hs
      exact (MVCCStorage.valid_of_recordAt hrec).2
    exact .recorded hs (hset (some ⟨s, hvalid⟩) (by simp [hc, hstart]))
  · have hfilter : record.filter (fun r => r.commitTs = t) = none := by
      rw [Option.filter_eq_none_iff]
      rintro r rfl hr
      exact hcommit ⟨r.startTs, of_decide_eq_true hr ▸ hnew⟩
    exact .bare (fun s hs => hcommit ⟨s, hs⟩) (hset none (by rw [hfilter]; rfl))

/-! ## Whole copies -/

/-- A copy in which every row that was proposed was applied. -/
inductive Copies (source : MVCCStateMachine) (versions : Dict Bytes ℤ) :
    List ((Bytes × Bytes) × RowAnswer) → MVCCStateMachine → MVCCStateMachine → Prop
  | nil {target : MVCCStateMachine} : Copies source versions [] target target
  | cons {target target₁ target' : MVCCStateMachine} {row : Bytes × Bytes} {a : RowAnswer}
      {r : Option ApplyResult} {rows : List ((Bytes × Bytes) × RowAnswer)}
      (hrow : copyRow source versions target row a = .ok (target₁, r))
      (happlies : r ≠ none → a.outcome.Applies)
      (hrest : Copies source versions rows target₁ target') :
      Copies source versions ((row, a) :: rows) target target'

variable {rows : List ((Bytes × Bytes) × RowAnswer)}

theorem copies_of_copyMissing (h : copyMissing source versions rows target = .ok target')
    (happlies : ∀ e ∈ rows, e.2.outcome.Applies) : Copies source versions rows target target' := by
  induction rows generalizing target with
  | nil =>
    cases h
    exact .nil
  | cons e rows ih =>
    obtain ⟨⟨target₁, r⟩, hrow, hrest⟩ := bind_ok h
    exact .cons hrow (fun _ => happlies e mem_cons_self)
      (ih hrest fun e he => happlies e (mem_cons_of_mem _ he))

theorem Outcome.Sincere.applies {command : Command} (hsincere : outcome.Sincere)
    (h : outcome.propose target command = (target', result)) (hsuccess : result.success = true) :
    outcome.Applies := by
  match outcome, hsincere, h with
  | .answered _, _, _ => trivial
  | .told _ none, hsincere, h =>
    cases h
    exact hsincere hsuccess
  | .told _ (some _), _, _ => exact Option.some_ne_none _

/-- The copy of a move that was not stopped. -/
theorem copies_of_copyUntilRefused
    (h : copyUntilRefused source versions rows target = .ok (target', true))
    (hsincere : ∀ e ∈ rows, e.2.outcome.Sincere) : Copies source versions rows target target' := by
  induction rows generalizing target with
  | nil =>
    cases h
    exact .nil
  | cons e rows ih =>
    obtain ⟨⟨target₁, r⟩, hrow, hrest⟩ := bind_ok h
    cases r with
    | none =>
      exact .cons hrow (fun hr => absurd rfl hr)
        (ih hrest fun e he => hsincere e (mem_cons_of_mem _ he))
    | some result =>
      dsimp only at hrest
      split at hrest
      · next hsuccess =>
        refine .cons hrow (fun _ => ?_) (ih hrest fun e he => hsincere e (mem_cons_of_mem _ he))
        have hfirst := hsincere e mem_cons_self
        obtain ⟨⟨k, v⟩, a⟩ := e
        rcases hversion : versions.get? k with _ | t
        · cases (copyRow_of_gone hversion).symm.trans hrow
        rcases copyRow_cases hversion hrow with ⟨-, hr, -⟩ | ⟨-, record, result', -, hpropose, hr⟩
        · cases hr
        · cases hr
          exact hfirst.applies hpropose hsuccess
      · cases hrest

/-- The copy of a split brings the row: when the loop comes to it, the target's answer does not carry
the version, and the entry of its proposal is applied. -/
def Arrives (source : MVCCStateMachine) (versions : Dict Bytes ℤ) (k v : Bytes) (t : ℤ) :
    List ((Bytes × Bytes) × RowAnswer) → MVCCStateMachine → Prop
  | [], _ => False
  | (row, a) :: rows, target =>
    (row = (k, v) ∧ ¬ a.Skips target k t ∧ a.outcome.Applies) ∨
      ∃ target₁ r, copyRow source versions target row a = .ok (target₁, r) ∧
        Arrives source versions k v t rows target₁

theorem Outcome.propose_of_not_applies {command : Command} (hnot : ¬ outcome.Applies)
    (h : outcome.propose target command = (target', result)) : target' = target := by
  match outcome, hnot, h with
  | .answered _, hnot, _ => exact absurd trivial hnot
  | .told _ none, _, h => exact (congrArg Prod.fst h).symm
  | .told _ (some _), hnot, _ => exact absurd (Option.some_ne_none _) hnot

section

variable (hvalid : ∀ k t, versions.get? k = some t → ValidKey k ∧ ValidTs t)
include hvalid

/-- What the body leaves of a version with a value: it was there, or this is its row. -/
theorem version_copyRow {row : Bytes × Bytes}
    (hof : row.1 = k → row.2 = v ∧ versions.get? k = some t)
    (hrow : copyRow source versions target row a = .ok (target', r)) :
    target'.maps.version k t = some (some v) ↔ target.maps.version k t = some (some v) ∨
      row = (k, v) ∧ ¬ a.Skips target k t ∧ a.outcome.Applies := by
  obtain ⟨k', v'⟩ := row
  rcases hversion : versions.get? k' with _ | t'
  · cases (copyRow_of_gone hversion).symm.trans hrow
    refine ⟨.inl, fun h => h.elim id ?_⟩
    rintro ⟨heq, -⟩
    cases heq
    cases hversion.symm.trans (hof rfl).2
  have hsame : (k', v') = (k, v) → t' = t := fun heq => by
    cases heq
    exact Option.some.inj (hversion.symm.trans (hof rfl).2)
  rcases copyRow_cases hversion hrow with ⟨rfl, -, hskips⟩ |
    ⟨hskips, record, result, hrecord, hpropose, -⟩
  · refine ⟨.inl, fun h => h.elim id ?_⟩
    rintro ⟨heq, hnot, -⟩
    obtain rfl := hsame heq
    cases heq
    exact absurd hskips hnot
  by_cases happlies : a.outcome.Applies
  · obtain ⟨hk, ht⟩ := hvalid k' t' hversion
    rw [(propose_moveRow hk ht hrecord happlies hpropose).version]
    split
    · next heq =>
      obtain ⟨rfl, rfl⟩ := heq
      obtain ⟨rfl, -⟩ := hof rfl
      exact ⟨fun _ => .inr ⟨rfl, hskips, happlies⟩, fun _ => rfl⟩
    · next hne =>
      refine ⟨.inl, fun h => h.elim id ?_⟩
      rintro ⟨heq, -⟩
      obtain rfl := hsame heq
      cases heq
      exact absurd ⟨rfl, rfl⟩ hne
  · rw [Outcome.propose_of_not_applies happlies hpropose]
    exact ⟨.inl, fun h => h.elim id fun h => absurd h.2.2 happlies⟩

/-- **The loop of a split**: a row is in the target exactly if it was, or arrives. -/
theorem version_copyMissing (hof : ∀ e ∈ rows, e.1.1 = k → e.1.2 = v ∧ versions.get? k = some t)
    (h : copyMissing source versions rows target = .ok target') :
    target'.maps.version k t = some (some v) ↔
      target.maps.version k t = some (some v) ∨ Arrives source versions k v t rows target := by
  induction rows generalizing target with
  | nil =>
    cases h
    exact (or_iff_left id).symm
  | cons e rows ih =>
    obtain ⟨⟨target₁, r⟩, hrow, hrest⟩ := bind_ok h
    have harrives : (∃ target₂ r', copyRow source versions target e.1 e.2 = .ok (target₂, r') ∧
        Arrives source versions k v t rows target₂) ↔ Arrives source versions k v t rows target₁ := by
      constructor
      · rintro ⟨target₂, r', hrow', hlater⟩
        cases hrow.symm.trans hrow'
        exact hlater
      · exact fun hlater => ⟨target₁, r, hrow, hlater⟩
    rw [ih (fun e' he' => hof e' (mem_cons_of_mem _ he')) hrest,
      version_copyRow hvalid (hof e mem_cons_self) hrow, or_assoc, Arrives, harrives]

end

/-! ## The rows that were read -/

theorem get?_versionsOf (hsorted : read.Pairwise fun e e' => e.1 < e'.1) :
    (versionsOf read).get? k = some t ↔ ∃ v, (k, v, t) ∈ read := by
  have hkeys : ((read.map fun row => (row.1, row.2.2)).map Prod.fst).Nodup := by
    rw [map_map]
    exact nodup_iff_pairwise_ne.2 (pairwise_map.2 (hsorted.imp ne_of_lt))
  rw [versionsOf, Dict.get?_eq_some, Dict.entries_ofList hkeys, mem_map]
  constructor
  · rintro ⟨⟨k', v, t'⟩, hrow, heq⟩
    cases heq
    exact ⟨v, hrow⟩
  · rintro ⟨v, hrow⟩
    exact ⟨_, hrow, rfl⟩

/-- Either way of reading the rows above a point finds those of the range read. -/
theorem mem_rowsAbove {entry : Bytes × Bytes} {splitKey : Bytes} {pending : List (Bytes × Bytes)}
    (hread : source.scanVersions entry.1 entry.2 none = .ok read)
    (h : rowsAbove source entry splitKey = .ok pending ∨
      rowsAboveThrough source entry splitKey = .ok pending) :
    (k, v) ∈ pending ↔ splitKey ≤ k ∧ ∃ t, (k, v, t) ∈ read := by
  obtain ⟨hlo, hhi, hfree⟩ := unlocked_of_scanVersions hread
  obtain ⟨read', hread', hstored, -⟩ := scanVersions_unlocked hlo hhi hfree
  cases hread.symm.trans hread'
  have hpending : pending =
      (read.map fun row => (row.1, row.2.1)).filter fun row => splitKey ≤ row.1 := by
    rcases h with h | h
    · rw [rowsAbove, committedRows, MVCCStorage.scan, hstored] at h
      exact (Except.ok.inj h).symm
    · rw [rowsAboveThrough, hread] at h
      exact (Except.ok.inj h).symm
  rw [hpending, mem_filter, mem_map, and_comm]
  refine and_congr (by simp) ⟨?_, ?_⟩
  · rintro ⟨⟨k', v', t⟩, hrow, heq⟩
    cases heq
    exact ⟨t, hrow⟩
  · rintro ⟨t, hrow⟩
    exact ⟨_, hrow, rfl⟩

/-- A leader, a source that reads and a table. -/
def settled : Surroundings := ⟨true, none, true⟩

theorem version_pos_oneRow {key : Bytes} (hkey : ValidKey key) {k : Bytes} {t : ℤ}
    {w : Option Bytes} (h : (oneRow key).maps.version k t = some w) : t = 1 ∧ w = some [120] := by
  rw [version_oneRow hkey, Maps.putVersion_version] at h
  split at h
  · next heq => exact ⟨heq.2, (Option.some.inj h).symm⟩
  · rw [Maps.empty] at h
    cases h

end OxideDB.Shard
