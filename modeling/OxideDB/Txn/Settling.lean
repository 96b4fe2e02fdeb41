import OxideDB.Program
import OxideDB.Storage.Restart
import OxideDB.Txn.Resolver

/-!
# Whether a lock is gone

`LockResolver` as one caller runs it: lookups of a placement, reads of a leader's machine, and one
proposal, each at a time of its own, with anything at all happening to the shards in between.  The
questions say nothing and "could not ask" in the same way: `lock_on` answers `None` for a key without
locks and for a shard without a leader.
-/

namespace OxideDB.Txn

open Raft (Bytes ApplyResult ErrorCode)
open Storage MVCCStateMachine
open Program List Option

variable {key : Bytes} {command : Command} {m : MVCCStateMachine} {home : ℕ} {startTs : ℤ}

/-! ## Calls -/

namespace Resolving

/-- What the caller of a proposal hears. -/
inductive Answer where
  /-- The entry is applied.  The caller is told what the machine has said, or only that it is
  applied, when the answer is no longer kept. -/
  | applied (now : Time) (kept : Bool)
  /-- The caller is told that it is applied, and it is not: another entry stands at its index. -/
  | presumed
  | failure (code : ErrorCode) (msg : String)
  /-- `None`: no leader was found. -/
  | nothing
  | raised (msg : String)
  deriving DecidableEq

/-- What a call of the resolver meets. -/
structure Look where
  /-- The commands that were applied since the last call, and to which shards. -/
  before : List (ℕ × Time × Command) := []
  raised : Option String := none
  /-- The placement the resolver holds. -/
  owner : Bytes → Option ℕ
  /-- A lookup finds a client for the leader of the shard. -/
  leader : ℕ → Bool
  /-- The machine that answers for a shard, if it is not the shard's own as it is now. -/
  shown : ℕ → Option MVCCStateMachine := fun _ => none
  now : Time := 0
  answer : Answer := .nothing

end Resolving

/-- The shards during a call of the resolver. -/
structure Resolving where
  shards : ℕ → MVCCStateMachine
  looks : ℕ → Resolving.Look
  calls : ℕ := 0
  /-- The shards at every time of the call so far. -/
  past : List (ℕ → MVCCStateMachine)

namespace Resolving

/-- A call begins. -/
def init (shards : ℕ → MVCCStateMachine) (looks : ℕ → Look) : Resolving where
  shards := shards
  looks := looks
  past := [shards]

/-- A command is applied to a shard. -/
def execute (c : Resolving) (shard : ℕ) (now : Time) (command : Command) : Resolving :=
  let shards := Function.update c.shards shard (apply now (c.shards shard) command).1
  { c with shards := shards, past := c.past ++ [shards] }

def executeAll (c : Resolving) (commands : List (ℕ × Time × Command)) : Resolving :=
  commands.foldl (fun c e => c.execute e.1 e.2.1 e.2.2) c

/-- The next call begins, and what has happened before it. -/
def advance (c : Resolving) : Resolving :=
  { c with calls := c.calls + 1 }.executeAll (c.looks c.calls).before

/-! ## The methods -/

/-- A method of the resolver. -/
abbrev Method := Program Resolving String

def next : Method Look := fun c => (.ok (c.looks c.calls), c.advance)

/-- A call that is answered, or raises. -/
def ask {A : Type} (f : Look → (ℕ → MVCCStateMachine) → Except String A) : Method A := do
  let look ← next
  match look.raised with
  | some e => raise e
  | none =>
    match ← Program.get fun c => f look c.shards with
    | .ok a => return a
    | .error e => raise e

/-- `time.time()` and `time.monotonic()`. -/
def clock : Method Time := ask fun look _ => .ok look.now

/-- `_get_shard_id`. -/
def getShardId (key : Bytes) : Method (Option ℕ) := ask fun look _ => .ok (look.owner key)

/-- `_client_for`: the shard whose leader it is. -/
def clientFor (key : Bytes) : Method (Option ℕ) :=
  ask fun look _ => .ok ((look.owner key).filter look.leader)

/-- `client.get_lock`. -/
def getLock (shard : ℕ) (key : Bytes) : Method (Option Lock) :=
  ask fun look shards => ((look.shown shard).getD (shards shard)).getLockStatus key

/-- `client.get_write_record`. -/
def getWriteRecord (shard : ℕ) (key : Bytes) : Method (Option WriteRecord) :=
  ask fun look shards => ((look.shown shard).getD (shards shard)).getWriteRecord key

/-- `ask_shard(leaders, shard, propose)`. -/
def propose (shard : ℕ) (command : Command) : Method (Option ApplyResult) := do
  let look ← next
  match look.answer with
  | .applied now kept => fun c =>
    (.ok (some (if kept then (apply now (c.shards shard) command).2 else .ok)),
      c.execute shard now command)
  | .presumed => return some .ok
  | .failure code msg => return some (.failure code msg)
  | .nothing => return none
  | .raised msg => raise msg

/-- `lock_on`. -/
def lockOn (key : Bytes) : Method (Option Lock) := do
  match ← clientFor key with
  | none => return none
  | some shard => getLock shard key

variable (resolver : LockResolver)

/-- The lock is the transaction's, and not past its time. -/
def isLive (startTs : ℤ) : Option Lock → Method Bool
  | none => return false
  | some lock =>
    if lock.startTs = startTs then do
      let now ← clock
      return 0 < resolver.remainingTtl now lock
    else return false

/-- `primary_status`. -/
def primaryStatus (primaryKey : Bytes) (startTs : ℤ) : Method PrimaryStatus := do
  match ← clientFor primaryKey with
  | none => return .unknown
  | some shard =>
    let record ← getWriteRecord shard primaryKey
    if record.any (·.startTs = startTs) then return .committed
    else
      let lock ← getLock shard primaryKey
      let live ← isLive resolver startTs lock
      return if live then .pending else .aborted

/-- `primary_commit_ts`. -/
def primaryCommitTs (primaryKey : Bytes) (startTs : ℤ) : Method (Option ℤ) := do
  match ← clientFor primaryKey with
  | none => return none
  | some shard =>
    let record ← getWriteRecord shard primaryKey
    return (record.filter (·.startTs = startTs)).map (·.commitTs)

/-- The end of `_settle`: whether the lock the caller asked about is still there. -/
def isGone (key : Bytes) (startTs : ℤ) : Method Bool := do
  let current ← lockOn key
  return current.all (·.startTs ≠ startTs)

/-- `_settle`. -/
def settle (key : Bytes) (startTs : ℤ) (command : Command) : Method Bool := do
  match ← getShardId key with
  | none => return false
  | some shard =>
    let result ← propose shard command
    if result.any (·.success) then return true else isGone key startTs

/-- `resolve_lock`, with the lock in hand. -/
def resolve (key : Bytes) (lock : Lock) : Method Bool := do
  match ← primaryStatus resolver lock.primaryKey lock.startTs with
  | .committed =>
    match ← primaryCommitTs lock.primaryKey lock.startTs with
    | none => return false
    | some commitTs => settle key lock.startTs (.commit key lock.startTs commitTs)
  | .aborted => settle key lock.startTs (.rollback key lock.startTs)
  | _ => return false

/-- The lock that is handed in, or the one that is there. -/
def lockOr (key : Bytes) : Option Lock → Method (Option Lock)
  | some lock => return some lock
  | none => lockOn key

/-- `resolve_lock`. -/
def resolveLock (key : Bytes) (lock : Option Lock) : Method Bool := do
  match ← lockOr key lock with
  | none => return true
  | some lock => resolve resolver key lock

/-- The loop of `await_resolution`; no answer if it has not ended after `fuel` rounds. -/
def awaitUntil (key : Bytes) (deadline : Time) : ℕ → Method (Option Bool)
  | 0 => return none
  | fuel + 1 => do
    if ← resolveLock resolver key none then return some true
    else
      let now ← clock
      if deadline ≤ now then return some false else awaitUntil key deadline fuel

/-- `await_resolution`. -/
def awaitResolution (margin : Time) (key : Bytes) (lock : Option Lock) (fuel : ℕ) :
    Method (Option Bool) := do
  match ← lockOr key lock with
  | none => return some true
  | some lock =>
    let start ← clock
    let now ← clock
    awaitUntil resolver key (start + resolver.remainingTtl now lock + margin) fuel

/-! ## The times of a call -/

/-- The machines of the shards are ones that a log leads to, as far as locks go, and the present is
one of the times of the call. -/
structure Sound (c : Resolving) : Prop where
  tidy (n : ℕ) : Tidy (c.shards n)
  present : c.shards ∈ c.past

/-- The call has gone on. -/
structure Goes (c c' : Resolving) : Prop where
  looks : c'.looks = c.looks
  past : c.past ⊆ c'.past
  sound (h : Sound c) : Sound c'

instance : IsPreorder Resolving Goes where
  refl _ := ⟨rfl, List.Subset.refl _, id⟩
  trans _ _ _ h h' :=
    ⟨h'.looks.trans h.looks, List.Subset.trans h.past h'.past, fun hs => h'.sound (h.sound hs)⟩

variable {c c' : Resolving}

theorem goes_execute (c : Resolving) (shard : ℕ) (now : Time) (command : Command) :
    Goes c (c.execute shard now command) where
  looks := rfl
  past := subset_append_left _ _
  sound h := by
    refine ⟨fun n => ?_, mem_append_right _ (mem_singleton_self _)⟩
    simp only [execute, Function.update_apply]
    split
    · exact (h.tidy shard).apply now command
    · exact h.tidy n

theorem goes_executeAll (c : Resolving) (commands : List (ℕ × Time × Command)) :
    Goes c (c.executeAll commands) := by
  induction commands generalizing c with
  | nil => exact refl_of Goes c
  | cons e commands ih => exact trans_of Goes (goes_execute c e.1 e.2.1 e.2.2) (ih _)

theorem goes_advance (c : Resolving) : Goes c c.advance :=
  trans_of Goes (⟨rfl, List.Subset.refl _, fun h => ⟨h.tidy, h.present⟩⟩ :
    Goes c { c with calls := c.calls + 1 }) (goes_executeAll _ _)

theorem goes_next : Within Goes next := goes_advance

section

variable {A : Type} (f : Look → (ℕ → MVCCStateMachine) → Except String A)

theorem ask_spec (c : Resolving) :
    (ask f).Spec c fun r c' => c' = c.advance ∧
      ∀ a, r = .ok a → f (c.looks c.calls) c.advance.shards = .ok a := by
  rw [ask, spec_bind_ok (rfl : next c = (.ok (c.looks c.calls), c.advance))]
  cases (c.looks c.calls).raised with
  | some e =>
    refine spec_raise.2 ⟨rfl, ?_⟩
    rintro a ⟨⟩
  | none =>
    refine spec_get_bind.2 ?_
    cases hf : f (c.looks c.calls) c.advance.shards with
    | error e =>
      refine spec_raise.2 ⟨rfl, ?_⟩
      rintro a ⟨⟩
    | ok a =>
      refine spec_pure.2 ⟨rfl, ?_⟩
      rintro a ⟨⟩
      rfl

theorem goes_ask : Within Goes (ask f) := fun c => by
  have heq : ((ask f) c).2 = c.advance := (ask_spec f c).1
  rw [heq]
  exact goes_advance c

end

theorem goes_propose (shard : ℕ) (command : Command) : Within Goes (propose shard command) :=
  goes_next.bind fun look => by
    cases look.answer with
    | applied now kept => exact fun c => goes_execute c shard now command
    | presumed => exact .pure _
    | failure code msg => exact .pure _
    | nothing => exact .pure _
    | raised msg => exact .raise msg

theorem goes_lockOn (key : Bytes) : Within Goes (lockOn key) :=
  (goes_ask _).bind fun shard? => by
    cases shard? with
    | none => exact .pure _
    | some shard => exact goes_ask _

theorem goes_isLive (startTs : ℤ) (lock? : Option Lock) :
    Within Goes (isLive resolver startTs lock?) := by
  cases lock? with
  | none => exact .pure _
  | some lock =>
    simp only [isLive]
    split
    · exact (goes_ask _).bind fun _ => .pure _
    · exact .pure _

theorem goes_primaryStatus (primaryKey : Bytes) (startTs : ℤ) :
    Within Goes (primaryStatus resolver primaryKey startTs) :=
  (goes_ask _).bind fun shard? => by
    cases shard? with
    | none => exact .pure _
    | some shard =>
      refine (goes_ask _).bind fun record => ?_
      show Within _ (if _ then _ else _)
      split
      · exact .pure _
      · exact (goes_ask _).bind fun lock? => (goes_isLive resolver startTs lock?).bind fun _ => .pure _

theorem goes_primaryCommitTs (primaryKey : Bytes) (startTs : ℤ) :
    Within Goes (primaryCommitTs primaryKey startTs) :=
  (goes_ask _).bind fun shard? => by
    cases shard? with
    | none => exact .pure _
    | some shard => exact (goes_ask _).bind fun _ => .pure _

theorem goes_settle (key : Bytes) (startTs : ℤ) (command : Command) :
    Within Goes (settle key startTs command) :=
  (goes_ask _).bind fun shard? => by
    cases shard? with
    | none => exact .pure _
    | some shard =>
      refine (goes_propose shard command).bind fun result => ?_
      show Within _ (if _ then _ else _)
      split
      · exact .pure _
      · exact (goes_lockOn key).bind fun _ => .pure _

theorem goes_resolve (key : Bytes) (lock : Lock) : Within Goes (resolve resolver key lock) :=
  (goes_primaryStatus resolver _ _).bind fun status => by
    cases status with
    | committed =>
      refine (goes_primaryCommitTs _ _).bind fun commitTs? => ?_
      cases commitTs? with
      | none => exact .pure _
      | some commitTs => exact goes_settle _ _ _
    | aborted => exact goes_settle _ _ _
    | pending => exact .pure _
    | unknown => exact .pure _

theorem goes_lockOr (key : Bytes) (lock? : Option Lock) : Within Goes (lockOr key lock?) := by
  cases lock? with
  | none => exact goes_lockOn key
  | some lock => exact .pure _

theorem goes_resolveLock (key : Bytes) (lock? : Option Lock) :
    Within Goes (resolveLock resolver key lock?) :=
  (goes_lockOr key lock?).bind fun lock? => by
    cases lock? with
    | none => exact .pure _
    | some lock => exact goes_resolve resolver key lock

/-! ## What an answer says of the lock -/

/-- At some time of the call the transaction had no lock on the key. -/
def Gone (home : ℕ) (key : Bytes) (startTs : ℤ) (c : Resolving) : Prop :=
  ∃ shards ∈ c.past, (shards home).maps.lock key startTs = none

theorem Gone.of_goes (h : Gone home key startTs c) (hc : Goes c c') : Gone home key startTs c' := by
  obtain ⟨shards, hmem, hlock⟩ := h
  exact ⟨shards, hc.past hmem, hlock⟩

theorem Sound.gone (hc : Sound c) (h : (c.shards home).maps.lock key startTs = none) :
    Gone home key startTs c :=
  ⟨c.shards, hc.present, h⟩

/-- The shard of the key can be asked: the placement names it, its leader is found and shows what
the shard is now, and it tells of a success only where it has applied the entry. -/
structure Reaches (home : ℕ) (key : Bytes) (look : Look) : Prop where
  owner : look.owner key = some home
  leader : look.leader home = true
  shown : look.shown home = none
  told : look.answer ≠ .presumed

/-- A machine's answer about the locks of a key. -/
theorem lock_of_getLockStatus (hm : Tidy m) {lock? : Option Lock}
    (h : m.getLockStatus key = .ok lock?) (hother : ∀ lock ∈ lock?, lock.startTs ≠ startTs) :
    m.maps.lock key startTs = none := by
  rcases hlock : m.maps.lock key startTs with _ | f
  · rfl
  · have heq := Except.ok.inj ((hm.getNewestLock hlock).symm.trans h)
    exact absurd rfl (hother _ (mem_def.2 heq.symm))

section

variable {home : ℕ} {key : Bytes}

theorem lockOn_spec (hc : Sound c) (hreach : ∀ n, Reaches home key (c.looks n)) :
    (lockOn key).Spec c fun r c' => Goes c c' ∧ ∀ lock?, r = .ok lock? → ∀ startTs,
      (∀ lock ∈ lock?, lock.startTs ≠ startTs) → Gone home key startTs c' := by
  refine (Spec.of_within (goes_lockOn key) c).and ?_
  refine (ask_spec _ c).bind ?_ ?_
  · rintro shard? _ ⟨rfl, hshard⟩
    have hlook := hreach c.calls
    have hsome := Except.ok.inj (hshard shard? rfl)
    rw [hlook.owner, filter_some, if_pos hlook.leader] at hsome
    subst hsome
    refine (ask_spec _ c.advance).mono ?_
    rintro r _ ⟨rfl, hget⟩ lock? rfl startTs hother
    have hsound := (goes_advance _).sound ((goes_advance c).sound hc)
    have hget := hget lock? rfl
    rw [(goes_advance c).looks, (hreach _).shown] at hget
    exact hsound.gone (lock_of_getLockStatus (hsound.tidy home) hget hother)
  · rintro e _ - lock? ⟨⟩

theorem isGone_spec (hc : Sound c) (hreach : ∀ n, Reaches home key (c.looks n)) (startTs : ℤ) :
    (isGone key startTs).Spec c fun r c' => r = .ok true → Gone home key startTs c' := by
  refine (lockOn_spec hc hreach).bind ?_ ?_
  · rintro lock? c' ⟨-, hgone⟩ htrue
    have hall := Except.ok.inj htrue
    exact hgone lock? rfl startTs fun lock hlock => by
      rw [mem_def.1 hlock] at hall
      exact of_decide_eq_true hall
  · rintro e c' - ⟨⟩

/-- Once one of the two commands is applied, the transaction has no lock on the key. -/
def Clears (key : Bytes) (startTs : ℤ) (command : Command) : Prop :=
  ∀ (m : MVCCStateMachine) (now : Time), Tidy m → (apply now m command).1.maps.lock key startTs = none

theorem clears_rollback (key : Bytes) (startTs : ℤ) : Clears key startTs (.rollback key startTs) := by
  intro m now hm
  rw [(apply_release hm now (.inl rfl) rfl rfl).1, Maps.setLock_lock, if_pos ⟨rfl, rfl⟩]

theorem clears_commit (key : Bytes) (startTs : ℤ) {commitTs : ℤ} (h : ValidTs commitTs) :
    Clears key startTs (.commit key startTs commitTs) :=
  fun _ now hm => lock_commit hm now rfl rfl rfl rfl h

theorem propose_spec (hc : Sound c) (hreach : ∀ n, Reaches home key (c.looks n))
    (hclears : Clears key startTs command) :
    (propose home command).Spec c fun r c' => ∀ result, r = .ok (some result) →
      result.success = true → Gone home key startTs c' := by
  rw [propose, spec_bind_ok (rfl : next c = (.ok (c.looks c.calls), c.advance))]
  cases htold : (c.looks c.calls).answer with
  | presumed => exact absurd htold (hreach c.calls).told
  | failure code msg =>
    rintro result ⟨⟩ hsucc
    cases hsucc
  | nothing => rintro result ⟨⟩
  | raised msg => rintro result ⟨⟩
  | applied now kept =>
    rintro result - -
    have hsound := (goes_advance c).sound hc
    refine ((goes_execute _ home now command).sound hsound).gone ?_
    simp only [execute, Function.update_self]
    exact hclears _ now (hsound.tidy home)

theorem settle_spec (hc : Sound c) (hreach : ∀ n, Reaches home key (c.looks n))
    (hclears : Clears key startTs command) :
    (settle key startTs command).Spec c fun r c' => r = .ok true → Gone home key startTs c' := by
  refine (ask_spec _ c).bind ?_ ?_
  · rintro shard? _ ⟨rfl, hshard⟩
    have hsome := Except.ok.inj (hshard shard? rfl)
    rw [(hreach c.calls).owner] at hsome
    subst hsome
    have hsound := (goes_advance c).sound hc
    have hreach₁ : ∀ n, Reaches home key (c.advance.looks n) := (goes_advance c).looks ▸ hreach
    refine ((propose_spec hsound hreach₁ hclears).and
      (Spec.of_within (goes_propose home command) _)).bind ?_ ?_
    · rintro result c' ⟨happlied, hgoes⟩
      show Spec (if _ then _ else _) _ _
      split
      · next hsucc =>
        intro _
        cases result with
        | none => cases hsucc
        | some result => exact happlied result rfl hsucc
      · exact isGone_spec (hgoes.sound hsound) (hgoes.looks ▸ hreach₁) startTs
    · rintro e c' - ⟨⟩
  · rintro e c' - ⟨⟩

theorem validTs_of_getWriteRecord {k : Bytes} {record : WriteRecord}
    (h : m.getWriteRecord k = .ok (some record)) : ValidTs record.commitTs := by
  by_cases hk : ValidKey k
  · obtain ⟨record?, hrecord, hnewest⟩ := MVCCStorage.getLatestWrite_valid m.storage hk
    cases hrecord.symm.trans h
    obtain - | ⟨hat, -⟩ := hnewest
    exact (MVCCStorage.valid_of_recordAt hat).1
  · obtain ⟨e, he⟩ := getWriteRecord_invalid m hk
    cases he.symm.trans h

/-- The timestamp of a write record can be written. -/
theorem primaryCommitTs_spec (primaryKey : Bytes) (startTs : ℤ) (c : Resolving) :
    (primaryCommitTs primaryKey startTs).Spec c fun r _ => ∀ commitTs, r = .ok (some commitTs) →
      ValidTs commitTs := by
  refine (ask_spec _ c).bind ?_ ?_
  · rintro shard? _ -
    cases shard? with
    | none => rintro commitTs ⟨⟩
    | some shard =>
      refine (ask_spec _ _).bind ?_ ?_
      · rintro record? _ ⟨-, hrecord⟩ commitTs hts
        have hts := Except.ok.inj hts
        obtain ⟨record, hfilter, rfl⟩ := map_eq_some_iff.1 hts
        obtain ⟨rfl, -⟩ := filter_eq_some_iff.1 hfilter
        exact validTs_of_getWriteRecord (hrecord _ rfl)
      · rintro e _ - commitTs ⟨⟩
  · rintro e _ - commitTs ⟨⟩

variable (hreach : ∀ n, Reaches home key (c.looks n))

include hreach

variable (hc : Sound c)
include hc

theorem resolve_spec (lock : Lock) :
    (resolve resolver key lock).Spec c fun r c' => r = .ok true → Gone home key lock.startTs c' := by
  refine (Spec.of_within (goes_primaryStatus resolver lock.primaryKey lock.startTs) c).bind ?_ ?_
  · intro status c₁ h₁
    have hreach₁ : ∀ n, Reaches home key (c₁.looks n) := h₁.looks ▸ hreach
    cases status with
    | committed =>
      refine ((primaryCommitTs_spec lock.primaryKey lock.startTs c₁).and
        (Spec.of_within (goes_primaryCommitTs lock.primaryKey lock.startTs) c₁)).bind ?_ ?_
      · rintro commitTs? c₂ ⟨hvalid, h₂⟩
        cases commitTs? with
        | none => rintro ⟨⟩
        | some commitTs =>
          exact settle_spec (h₂.sound (h₁.sound hc)) (h₂.looks ▸ hreach₁)
            (clears_commit key _ (hvalid commitTs rfl))
      · rintro e c₂ - ⟨⟩
    | aborted => exact settle_spec (h₁.sound hc) hreach₁ (clears_rollback key _)
    | pending => rintro ⟨⟩
    | unknown => rintro ⟨⟩
  · rintro e c₁ - ⟨⟩

theorem lockOr_spec (lock? : Option Lock) :
    (lockOr key lock?).Spec c fun r c' => Goes c c' ∧ ∀ found?, r = .ok found? → ∀ startTs,
      (∀ lock ∈ lock?, lock.startTs = startTs) →
        (∀ lock ∈ found?, lock.startTs ≠ startTs) → Gone home key startTs c' := by
  cases lock? with
  | none =>
    refine (lockOn_spec hc hreach).mono ?_
    rintro r c' ⟨hgoes, hgone⟩
    exact ⟨hgoes, fun found? hfound startTs _ hother => hgone found? hfound startTs hother⟩
  | some lock =>
    refine spec_pure.2 ⟨refl_of Goes c, ?_⟩
    rintro _ ⟨⟩ startTs hsame hother
    exact absurd (hsame lock rfl) (hother lock rfl)

/-- **`resolve_lock`**: of the lock that is handed in, or else of any transaction. -/
theorem resolveLock_spec (lock? : Option Lock) :
    (resolveLock resolver key lock?).Spec c fun r c' => r = .ok true → ∀ startTs,
      (∀ lock ∈ lock?, lock.startTs = startTs) → Gone home key startTs c' := by
  refine (lockOr_spec hreach hc lock?).bind ?_ ?_
  · rintro found? c₁ ⟨h₁, hgone⟩
    cases found? with
    | none => exact fun _ startTs hsame => hgone none rfl startTs hsame nofun
    | some lock =>
      refine ((resolve_spec resolver (h₁.looks ▸ hreach) (h₁.sound hc) lock).and
        (Spec.of_within (goes_resolve resolver key lock) c₁)).mono ?_
      rintro r c₂ ⟨hresolved, h₂⟩ htrue startTs hsame
      by_cases heq : lock.startTs = startTs
      · exact heq ▸ hresolved htrue
      · refine (hgone _ rfl startTs hsame ?_).of_goes h₂
        rintro lock' ⟨⟩
        exact heq
  · rintro e c₁ - ⟨⟩

theorem awaitUntil_spec (deadline : Time) (fuel : ℕ) :
    (awaitUntil resolver key deadline fuel).Spec c fun r c' => r = .ok (some true) →
      ∀ startTs, Gone home key startTs c' := by
  induction fuel generalizing c with
  | zero => rintro ⟨⟩
  | succ fuel ih =>
    refine ((resolveLock_spec resolver hreach hc none).and
      (Spec.of_within (goes_resolveLock resolver key none) c)).bind ?_ ?_
    · rintro gone c₁ ⟨hgone, h₁⟩
      cases gone with
      | true => exact fun _ startTs => hgone rfl startTs nofun
      | false =>
        refine (Spec.of_within (goes_ask _) c₁).bind ?_ ?_
        · intro now c₂ h₂
          show Spec (if _ then _ else _) _ _
          split
          · rintro ⟨⟩
          · have h := trans_of Goes h₁ h₂
            exact ih (h.looks ▸ hreach) (h.sound hc)
        · rintro e c₂ - ⟨⟩
    · rintro e c₁ - ⟨⟩

/-- **`await_resolution`**. -/
theorem awaitResolution_spec (margin : Time) (lock? : Option Lock) (fuel : ℕ) :
    (awaitResolution resolver margin key lock? fuel).Spec c fun r c' => r = .ok (some true) →
      ∀ startTs, (∀ lock ∈ lock?, lock.startTs = startTs) → Gone home key startTs c' := by
  refine (lockOr_spec hreach hc lock?).bind ?_ ?_
  · rintro found? c₁ ⟨h₁, hgone⟩
    cases found? with
    | none => exact fun _ startTs hsame => hgone none rfl startTs hsame nofun
    | some lock =>
      refine (Spec.of_within (goes_ask _) c₁).bind ?_ ?_
      · intro start c₂ h₂
        refine (Spec.of_within (goes_ask _) c₂).bind ?_ ?_
        · intro now c₃ h₃
          have h := trans_of Goes h₁ (trans_of Goes h₂ h₃)
          exact (awaitUntil_spec resolver (h.looks ▸ hreach) (h.sound hc) _ fuel).mono
            fun r c₄ hgone htrue startTs _ => hgone htrue startTs
        · rintro e c₃ - ⟨⟩
      · rintro e c₂ - ⟨⟩
  · rintro e c₁ - ⟨⟩

end

/-- A call from any state that logs lead to. -/
theorem sound_init (logs : ℕ → History) (looks : ℕ → Look) :
    Sound (init (fun n => replay (logs n)) looks) :=
  ⟨fun n => tidy_replay (logs n), mem_singleton_self _⟩

/-- **Settled means gone**, where the shard of the key can be asked throughout the call and tells of
no success it has not had: if `resolve_lock` or `await_resolution` returns `True`, then at some time
of the call the transaction had no lock on the key. -/
theorem settled_means_gone (resolver : LockResolver) (logs : ℕ → History) (looks : ℕ → Look)
    (home : ℕ) (key : Bytes) (hreach : ∀ n, Reaches home key (looks n)) (lock? : Option Lock)
    (startTs : ℤ) (hlock : ∀ lock ∈ lock?, lock.startTs = startTs) (margin : Time) (fuel : ℕ) :
    let c := init (fun n => replay (logs n)) looks
    (∀ c', resolveLock resolver key lock? c = (.ok true, c') →
      ∃ shards ∈ c'.past, (shards home).maps.lock key startTs = none) ∧
    ∀ c', awaitResolution resolver margin key lock? fuel c = (.ok (some true), c') →
      ∃ shards ∈ c'.past, (shards home).maps.lock key startTs = none := by
  intro c
  have hc : Sound c := sound_init logs looks
  constructor
  · intro c' hrun
    have h := resolveLock_spec resolver hreach hc lock?
    rw [Spec, hrun] at h
    exact h rfl startTs hlock
  · intro c' hrun
    have h := awaitResolution_spec resolver hreach hc margin lock? fuel
    rw [Spec, hrun] at h
    exact h rfl startTs hlock

/-- A log that leaves a lock, past its time. -/
def abandoned : History := [(0, .prewrite [1] [7] 5 [1])]

/-- Everything answers, long after that. -/
def laterLooks : ℕ → Look := fun _ =>
  { owner := fun _ => some 0, leader := fun _ => true, now := 100, answer := .applied 100 true }

/-- The lock is found, its primary is itself and its time is up: it is rolled back. -/
theorem settled_means_gone_abandoned :
    let c := init (fun n => replay ((fun _ => abandoned) n)) laterLooks
    ∃ c', resolveLock ⟨5⟩ [1] none c = (.ok true, c') ∧
      ∃ shards ∈ c'.past, (shards 0).maps.lock [1] 5 = none := by
  refine ⟨_, rfl, ?_⟩
  exact (settled_means_gone ⟨5⟩ (fun _ => abandoned) laterLooks 0 [1]
    (fun _ => ⟨rfl, rfl, rfl, nofun⟩) none 5 nofun 1 0).1 _ rfl

/-- **Settled does not mean gone** where no leader can be reached: the lock is there throughout the
call, and both methods return `True`. -/
theorem settled_unasked :
    let looks : ℕ → Look := fun _ => { owner := fun _ => some 0, leader := fun _ => false }
    let c := init (fun _ => replay abandoned) looks
    let resolved := resolveLock ⟨5⟩ [1] none c
    let awaited := awaitResolution ⟨5⟩ 1 [1] none 1 c
    resolved.1 = .ok true ∧ (∀ shards ∈ resolved.2.past, (shards 0).maps.lock [1] 5 ≠ none) ∧
      awaited.1 = .ok (some true) ∧
        ∀ shards ∈ awaited.2.past, (shards 0).maps.lock [1] 5 ≠ none := by
  have hheld : (replay abandoned).maps.lock [1] 5 ≠ none := by decide +kernel
  refine ⟨rfl, fun shards hmem => ?_, rfl, fun shards hmem => ?_⟩
  · obtain rfl := mem_singleton.1 hmem
    exact hheld
  · obtain rfl := mem_singleton.1 hmem
    exact hheld

end Resolving
end OxideDB.Txn
