import OxideDB.Raft.EngineRows
import OxideDB.Transition

/-!
# Notes of unfinished work

`raft/recovery_notes.py`: before the first row of a split or a move is copied, a note of it goes to
the storage of every replica, and a cluster that starts again reads it from any one of them.  The
storage is the one the replica's Raft node writes to, so a note has to survive all that the node
writes, and the notes of other work, until it is forgotten.
-/

namespace OxideDB.Raft

open Transition (run Along)

variable {n : ℕ} {δ : Type}

/-- `SPLIT_RECORD_PREFIX` and `MIGRATION_RECORD_PREFIX`. -/
inductive NoteKind where
  | split
  | migrate
  deriving DecidableEq

def NoteKind.name : NoteKind → String
  | .split => "split"
  | .migrate => "migrate"

structure PendingNote where
  kind : NoteKind
  shardId : ℤ
  splitKey : Bytes := []
  newShardId : ℤ := 0
  sourceNodes : List ℤ := []
  targetNodes : List ℤ := []
  deriving DecidableEq

/-- The fields of a record.  Those of the other kind are not there. -/
structure NoteFields where
  shardId : ℤ
  splitKey : Option Bytes := none
  newShardId : Option ℤ := none
  sourceNodes : Option (List ℤ) := none
  targetNodes : Option (List ℤ) := none
  deriving DecidableEq

/-- `msgpack`, for these records. -/
structure NotePacking where
  packb : NoteFields → Bytes
  unpackb : Bytes → Except String NoteFields

namespace PendingNote

def split (shardId : ℤ) (splitKey : Bytes) (newShardId : ℤ) : PendingNote :=
  { kind := .split, shardId, splitKey, newShardId }

def move (shardId : ℤ) (sourceNodes targetNodes : List ℤ) : PendingNote :=
  { kind := .migrate, shardId, sourceNodes, targetNodes }

/-- The fields that are packed. -/
def record (note : PendingNote) : NoteFields :=
  match note.kind with
  | .split =>
    { shardId := note.shardId, splitKey := note.splitKey, newShardId := note.newShardId }
  | .migrate =>
    { shardId := note.shardId, sourceNodes := note.sourceNodes, targetNodes := note.targetNodes }

/-- The notes that `split` and `move` make. -/
def Made (note : PendingNote) : Prop :=
  match note.kind with
  | .split => note = split note.shardId note.splitKey note.newShardId
  | .migrate => note = move note.shardId note.sourceNodes note.targetNodes

end PendingNote

def recordKey (kind : NoteKind) (shardId : ℤ) : String := kind.name ++ "/" ++ toString shardId

/-- `record[name]`. -/
def NoteFields.field {α : Type} (name : String) : Option α → Except String α
  | some a => .ok a
  | none => .error s!"KeyError: {name}"

open NoteFields (field)

def noteFromRecord (kind : NoteKind) (shardId : ℤ) (record : NoteFields) :
    Except String (Option PendingNote) := do
  if record.shardId ≠ shardId then return none
  match kind with
  | .split =>
    let splitKey ← field "split_key" record.splitKey
    let newShardId ← field "new_shard_id" record.newShardId
    return some (.split shardId splitKey newShardId)
  | .migrate =>
    let sourceNodes ← field "source_nodes" record.sourceNodes
    let targetNodes ← field "target_nodes" record.targetNodes
    return some (.move shardId sourceNodes targetNodes)

section

variable (M : NotePacking)

def saveNote (storage : EngineRows n δ) (note : PendingNote) : EngineRows n δ :=
  storage.saveAdmin (recordKey note.kind note.shardId) (M.packb note.record)

def loadNote (storage : EngineRows n δ) (shardId : ℤ) (kind : NoteKind) :
    Except String (Option PendingNote) :=
  match storage.loadAdmin (recordKey kind shardId) with
  | none => .ok none
  | some raw => do noteFromRecord kind shardId (← M.unpackb raw)

def writeNote (storages : List (EngineRows n δ)) (note : PendingNote) : List (EngineRows n δ) :=
  storages.map (saveNote M · note)

def readNote (shardId : ℤ) (kind : NoteKind) :
    List (EngineRows n δ) → Except String (Option PendingNote)
  | [] => .ok none
  | storage :: storages => do
    match ← loadNote M storage shardId kind with
    | some note => return some note
    | none => readNote shardId kind storages

def forgetNote (storages : List (EngineRows n δ)) (shardId : ℤ) (kind : NoteKind) :
    List (EngineRows n δ) := storages.map (·.deleteAdmin (recordKey kind shardId))

/-- What happens to one storage. -/
inductive NoteEvent (n : ℕ) (δ : Type) where
  /-- The Raft node writes, or the storage is opened again. -/
  | raft (call : Call n δ)
  | write (note : PendingNote)
  | forget (shardId : ℤ) (kind : NoteKind)

def NoteEvent.step (storage : EngineRows n δ) : NoteEvent n δ → Option (EngineRows n δ)
  | .raft call => (call.onEngine storage).toOption
  | .write note => some (saveNote M storage note)
  | .forget shardId kind => some (storage.deleteAdmin (recordKey kind shardId))

end

/-- The event is not about the note of that kind of that shard.  The node itself writes no notes. -/
def NoteEvent.Spares (shardId : ℤ) (kind : NoteKind) : NoteEvent n δ → Prop
  | .raft (.saveAdmin ..) | .raft (.deleteAdmin _) => False
  | .raft call => call.Fits
  | .write note => ¬ (note.kind = kind ∧ note.shardId = shardId)
  | .forget shardId' kind' => ¬ (kind' = kind ∧ shardId' = shardId)

variable {M : NotePacking} {storage storage' : EngineRows n δ} {shardId shardId' : ℤ}
  {kind kind' : NoteKind} {note : PendingNote}

/-- A number is told by its numeral. -/
theorem repr_injective {x y : ℤ} (h : x.repr = y.repr) : x = y := by
  have hnat : ∀ {a b : ℕ}, Nat.toDigits 10 a = Nat.toDigits 10 b → a = b := fun {a b} heq => by
    rw [← @Nat.ofDigitChars_ten_toDigits a, heq, Nat.ofDigitChars_ten_toDigits]
  have hminus : ∀ a b : ℕ, Nat.toDigits 10 a ≠ "-".toList ++ Nat.toDigits 10 b := fun a b heq => by
    have hmem : '-' ∈ Nat.toDigits 10 a := by simp [heq]
    exact absurd (Nat.isDigit_of_mem_toDigits (by decide) (by decide) hmem) (by decide)
  replace h := congrArg String.toList h
  rw [Int.repr_eq_if, Int.repr_eq_if] at h
  split at h <;> split at h <;>
    simp only [Nat.repr_eq_ofList_toDigits, String.toList_append, String.toList_ofList] at h
  · have := hnat h
    omega
  · exact absurd h (hminus _ _)
  · exact absurd h.symm (hminus _ _)
  · have := hnat (List.append_cancel_left h)
    omega

/-- A name is of one kind and one shard. -/
theorem recordKey_injective (h : recordKey kind shardId = recordKey kind' shardId') :
    kind = kind' ∧ shardId = shardId' := by
  have hlist := congrArg String.toList h
  simp only [recordKey, String.toList_append] at hlist
  cases kind <;> cases kind'
  · refine ⟨rfl, repr_injective (String.toList_inj.1 ?_)⟩
    exact List.append_cancel_left hlist
  · cases hlist
  · cases hlist
  · refine ⟨rfl, repr_injective (String.toList_inj.1 ?_)⟩
    exact List.append_cancel_left hlist

theorem loadAdmin_saveAdmin (storage : EngineRows n δ) (key name : String) (value : Bytes) :
    (storage.saveAdmin key value).loadAdmin name =
      if name = key then some value else storage.loadAdmin name := by
  obtain ⟨_, heq, hkept⟩ := storage.run_call (.saveAdmin key value) trivial
  cases heq
  exact congrFun (congrArg Kept.notes hkept) name

theorem loadAdmin_deleteAdmin (storage : EngineRows n δ) (key name : String) :
    (storage.deleteAdmin key).loadAdmin name =
      if name = key then none else storage.loadAdmin name := by
  obtain ⟨_, heq, hkept⟩ := storage.run_call (.deleteAdmin key) trivial
  cases heq
  exact congrFun (congrArg Kept.notes hkept) name

/-- **Step.** -/
theorem loadAdmin_step {e : NoteEvent n δ} (he : e.Spares shardId kind)
    (hs : e.step M storage = some storage') :
    storage'.loadAdmin (recordKey kind shardId) = storage.loadAdmin (recordKey kind shardId) := by
  cases e with
  | raft call =>
    have hcall : call.Fits ∧ (call.act storage.kept).notes = storage.loadAdmin := by
      cases call with
      | saveAdmin key value => exact he.elim
      | deleteAdmin key => exact he.elim
      | _ => exact ⟨he, rfl⟩
    obtain ⟨_, heq, hkept⟩ := storage.run_call call hcall.1
    simp only [NoteEvent.step, heq, Except.toOption] at hs
    cases hs
    rw [← hcall.2, ← hkept]
    rfl
  | write note =>
    cases hs
    rw [saveNote, loadAdmin_saveAdmin, if_neg]
    exact fun heq => he ((recordKey_injective heq).imp Eq.symm Eq.symm)
  | forget shardId' kind' =>
    cases hs
    rw [loadAdmin_deleteAdmin, if_neg]
    exact fun heq => he ((recordKey_injective heq).imp Eq.symm Eq.symm)

theorem loadAdmin_run {es : List (NoteEvent n δ)} (hes : ∀ e ∈ es, e.Spares shardId kind)
    (hr : run (NoteEvent.step M) storage es = some storage') :
    storage'.loadAdmin (recordKey kind shardId) = storage.loadAdmin (recordKey kind shardId) :=
  (Along.of_mem fun _ => hes).invariant (I := fun st => st.loadAdmin (recordKey kind shardId) =
      storage.loadAdmin (recordKey kind shardId))
    (fun _ _ _ he h hs => (loadAdmin_step he hs).trans h) rfl hr

/-- What was packed from a note is read back as the note. -/
theorem noteFromRecord_record (hnote : note.Made) :
    noteFromRecord note.kind note.shardId note.record = .ok (some note) := by
  unfold PendingNote.Made at hnote
  split at hnote <;> rw [hnote] <;> exact if_neg (not_not_intro rfl)

/-- **A note survives**: whichever replicas come back, and whatever their nodes and other work have
written since, the note that was written to all of them is read. -/
theorem note_survives (M : NotePacking) (storages later : List (EngineRows n δ))
    (note : PendingNote) (hnote : note.Made)
    (hpack : M.unpackb (M.packb note.record) = .ok note.record) (hne : later ≠ [])
    (hlater : ∀ st' ∈ later, ∃ st ∈ writeNote M storages note, ∃ es,
      (∀ e ∈ es, e.Spares note.shardId note.kind) ∧ run (NoteEvent.step M) st es = some st') :
    readNote M note.shardId note.kind later = .ok (some note) := by
  obtain ⟨st', rest, rfl⟩ := List.exists_cons_of_ne_nil hne
  obtain ⟨st, hst, es, hes, hr⟩ := hlater st' List.mem_cons_self
  obtain ⟨st₀, -, rfl⟩ := List.mem_map.1 hst
  have hload : loadNote M st' note.shardId note.kind = .ok (some note) := by
    rw [loadNote, loadAdmin_run hes hr, saveNote, loadAdmin_saveAdmin, if_pos rfl]
    show (M.unpackb (M.packb note.record)).bind _ = _
    rw [hpack]
    exact noteFromRecord_record hnote
  rw [readNote, hload]
  rfl

open Msgpack in
/-- msgpack, for notes that are small. -/
def packedNotes : NotePacking where
  packb fields := packb [("shard_id", some (.int fields.shardId)),
    ("split_key", fields.splitKey.map .bin), ("new_shard_id", fields.newShardId.map .int),
    ("source_nodes", fields.sourceNodes.map .array), ("target_nodes", fields.targetNodes.map .array)]
  unpackb raw :=
    match unpackb raw with
    | none => .error "Unpack failed"
    | some fields => do
      return {
        shardId := ← field "shard_id" ((get fields "shard_id").bind Value.int?)
        splitKey := (get fields "split_key").bind Value.bin?
        newShardId := (get fields "new_shard_id").bind Value.int?
        sourceNodes := (get fields "source_nodes").bind Value.array?
        targetNodes := (get fields "target_nodes").bind Value.array? }

/-- The node commits, another shard is moved, and an earlier move of shard 3 is forgotten. -/
def otherWork : List (NoteEvent 3 Bytes) :=
  [.raft (.saveCommitIndex 1), .write (.move 4 [0, 1] [1, 2]), .forget 3 .migrate, .raft .reopen]

theorem otherWork_spares : ∀ e ∈ otherWork, e.Spares 3 .split := by
  simp [otherWork, NoteEvent.Spares, Call.Fits, PendingNote.move]

theorem note_survives_otherWork : ∃ st, run (NoteEvent.step packedNotes)
    (saveNote packedNotes .empty (.split 3 [5] 7)) otherWork = some st ∧
    readNote packedNotes 3 .split [st] = .ok (some (.split 3 [5] 7)) := by
  refine ⟨_, rfl, note_survives packedNotes [.empty] _ (.split 3 [5] 7) rfl rfl nofun ?_⟩
  rintro _ (_ | ⟨_, ⟨⟩⟩)
  exact ⟨_, List.mem_singleton.2 rfl, otherWork, otherWork_spares, rfl⟩

/-- **A note that every replica has forgotten stays forgotten.** -/
theorem note_stays_forgotten (M : NotePacking) (storages later : List (EngineRows n δ))
    (shardId : ℤ) (kind : NoteKind)
    (hlater : ∀ st' ∈ later, ∃ st ∈ forgetNote storages shardId kind, ∃ es,
      (∀ e ∈ es, e.Spares shardId kind) ∧ run (NoteEvent.step M) st es = some st') :
    readNote M shardId kind later = .ok none := by
  induction later with
  | nil => rfl
  | cons st' rest ih =>
    obtain ⟨st, hst, es, hes, hr⟩ := hlater st' List.mem_cons_self
    obtain ⟨st₀, -, rfl⟩ := List.mem_map.1 hst
    have hload : loadNote M st' shardId kind = .ok none := by
      rw [loadNote, loadAdmin_run hes hr, loadAdmin_deleteAdmin, if_pos rfl]
    rw [readNote, hload]
    exact ih fun st hst => hlater st (List.mem_cons_of_mem _ hst)

theorem note_stays_forgotten_otherWork : ∃ st, run (NoteEvent.step packedNotes)
    ((saveNote packedNotes .empty (.split 3 [5] 7)).deleteAdmin "split/3") otherWork = some st ∧
    readNote packedNotes 3 .split [st] = .ok none := by
  refine ⟨_, rfl, note_stays_forgotten packedNotes
    [saveNote packedNotes .empty (.split 3 [5] 7)] _ 3 .split ?_⟩
  rintro _ (_ | ⟨_, ⟨⟩⟩)
  exact ⟨_, List.mem_singleton.2 rfl, otherWork, otherWork_spares, rfl⟩

end OxideDB.Raft
