import OxideDB.Dict
import OxideDB.Raft.EngineRows

/-!
# The storage in JSON files

`JSONFileStorage` of `raft/storage.py`: one document for the vote, the commit index and the place of
the snapshot, rewritten by three methods, and a file each for the log, the snapshot and the notes.
The methods do not rewrite the document alike: a vote is written with the commit index that was
there, and without the place of the snapshot.
-/

namespace OxideDB.Raft

open List EngineRaftStorage Call

variable {n : ℕ} {δ : Type}

/-- `raft_meta.json`; a field may be missing, and a vote may be `null`. -/
structure MetaDocument (n : ℕ) where
  currentTerm : Option ℕ := none
  votedFor : Option (Option (Fin n)) := none
  commitIndex : Option ℕ := none
  snapshotIndex : Option ℕ := none
  snapshotTerm : Option ℕ := none
  deriving DecidableEq

/-- The four files, each of which may be missing. -/
structure JSONFileStorage (n : ℕ) (δ : Type) where
  metaFile : Option (MetaDocument n) := none
  logFile : Option (List LogEntry) := none
  /-- The snapshot's data, with the entries it was made from. -/
  snapshotFile : Option (δ × List LogEntry) := none
  adminFile : Option (Dict String Bytes) := none

namespace JSONFileStorage

/-- The storage in an empty directory. -/
def empty : JSONFileStorage n δ := {}

def readLog (st : JSONFileStorage n δ) : List LogEntry := st.logFile.getD []

def writeLog (st : JSONFileStorage n δ) (entries : List LogEntry) : JSONFileStorage n δ :=
  { st with logFile := some entries }

def saveMeta (st : JSONFileStorage n δ) (currentTerm : ℕ) (votedFor : Option (Fin n)) :
    JSONFileStorage n δ :=
  { st with
    metaFile := some
      { currentTerm := some currentTerm
        votedFor := some votedFor
        commitIndex := st.metaFile.map fun data => data.commitIndex.getD 0 } }

def loadMeta (st : JSONFileStorage n δ) : ℕ × Option (Fin n) :=
  match st.metaFile with
  | none => (0, none)
  | some data => (data.currentTerm.getD 0, data.votedFor.getD none)

def appendLogEntry (st : JSONFileStorage n δ) (entry : LogEntry) : JSONFileStorage n δ :=
  st.writeLog (st.readLog.filter (·.index < entry.index) ++ [entry])

def truncateLog (st : JSONFileStorage n δ) (fromIndex : ℕ) : JSONFileStorage n δ :=
  st.writeLog (st.readLog.filter (·.index < fromIndex))

def compactLog (st : JSONFileStorage n δ) (lastIncludedIndex : ℕ) : JSONFileStorage n δ :=
  st.writeLog (st.readLog.filter (lastIncludedIndex < ·.index))

def loadLog (st : JSONFileStorage n δ) : List LogEntry :=
  st.readLog.insertionSort (·.index ≤ ·.index)

def saveSnapshot (st : JSONFileStorage n δ) (snapshot : Snapshot δ) : JSONFileStorage n δ :=
  { st with
    snapshotFile := some (snapshot.data, snapshot.history)
    metaFile := some
      { st.metaFile.getD {} with
        snapshotIndex := some snapshot.index
        snapshotTerm := some snapshot.term } }

def loadSnapshot (st : JSONFileStorage n δ) : Option (Snapshot δ) := do
  let (data, history) ← st.snapshotFile
  let metadata ← st.metaFile
  let index ← metadata.snapshotIndex
  return ⟨index, metadata.snapshotTerm.getD 0, data, history⟩

def saveCommitIndex (st : JSONFileStorage n δ) (commitIndex : ℕ) : JSONFileStorage n δ :=
  { st with
    metaFile := some
      (match st.metaFile with
      | none =>
        { currentTerm := some 0, votedFor := some none, commitIndex := some commitIndex }
      | some data =>
        { data with
          currentTerm := some (data.currentTerm.getD 0)
          votedFor := some (data.votedFor.getD none)
          commitIndex := some commitIndex }) }

def loadCommitIndex (st : JSONFileStorage n δ) : ℕ :=
  match st.metaFile with
  | none => 0
  | some data => data.commitIndex.getD 0

def readAdmin (st : JSONFileStorage n δ) : Dict String Bytes := st.adminFile.getD .empty

def saveAdmin (st : JSONFileStorage n δ) (key : String) (value : Bytes) : JSONFileStorage n δ :=
  { st with adminFile := some (st.readAdmin.set key value) }

def loadAdmin (st : JSONFileStorage n δ) (key : String) : Option Bytes := st.readAdmin.get? key

def deleteAdmin (st : JSONFileStorage n δ) (key : String) : JSONFileStorage n δ :=
  if st.readAdmin.get? key ≠ none then { st with adminFile := some (st.readAdmin.erase key) }
  else st

/-! ## What the calls do -/

variable {st : JSONFileStorage n δ}

/-- What the loads answer. -/
def kept (st : JSONFileStorage n δ) : Kept n δ where
  records :=
    { currentTerm := st.loadMeta.1
      votedFor := st.loadMeta.2
      log := st.loadLog
      commitIndex := st.loadCommitIndex
      snapshot := st.loadSnapshot }
  notes := st.loadAdmin

/-- The entries are in the order of their indices. -/
def Ordered (st : JSONFileStorage n δ) : Prop :=
  st.readLog.Pairwise fun e e' => e.index < e'.index

theorem Ordered.loadLog_eq (h : st.Ordered) : st.loadLog = st.readLog :=
  (h.imp fun hlt => hlt.le).insertionSort_eq

end JSONFileStorage

/-- The call, on the files. -/
def Call.onFiles (st : JSONFileStorage n δ) : Call n δ → JSONFileStorage n δ
  | .saveMeta t v => st.saveMeta t v
  | .appendLogEntry e => st.appendLogEntry e
  | .truncateLog i => st.truncateLog i
  | .compactLog i => st.compactLog i
  | .saveSnapshot s => st.saveSnapshot s
  | .saveCommitIndex c => st.saveCommitIndex c
  | .saveAdmin key value => st.saveAdmin key value
  | .deleteAdmin key => st.deleteAdmin key
  | .reopen => st

/-- What the storage must be for a call: an entry is appended above every other, and a vote is
written while no snapshot is stored. -/
def Call.Finds (st : JSONFileStorage n δ) : Call n δ → Prop
  | .saveMeta .. => st.loadSnapshot = none
  | .appendLogEntry e => ∀ e' ∈ st.loadLog, e'.index < e.index
  | _ => True

instance decidableFinds [DecidableEq δ] (st : JSONFileStorage n δ) (call : Call n δ) :
    Decidable (call.Finds st) := by
  induction call using Call.casesOn <;> dsimp only [Call.Finds] <;> infer_instance

namespace JSONFileStorage

variable {st : JSONFileStorage n δ}

theorem writeLog_spec (st : JSONFileStorage n δ) {entries : List LogEntry}
    (h : entries.Pairwise fun e e' => e.index < e'.index) : (st.writeLog entries).Ordered ∧
      (st.writeLog entries).kept =
        { st.kept with records := { st.kept.records with log := entries } } := by
  have hordered : (st.writeLog entries).Ordered := h
  refine ⟨hordered, ?_⟩
  rw [kept, hordered.loadLog_eq]
  rfl

/-- **Every call** does to the files what it is to do. -/
theorem run_call_json (hst : st.Ordered) (call : Call n δ) (h : call.Finds st) :
    (call.onFiles st).Ordered ∧ (call.onFiles st).kept = call.act st.kept := by
  cases call with
  | saveMeta t v =>
    refine ⟨hst, ?_⟩
    have hsnapshot : (st.saveMeta t v).loadSnapshot = st.loadSnapshot := by
      rw [h, loadSnapshot, saveMeta]
      cases st.snapshotFile <;> rfl
    have hcommit : (st.saveMeta t v).loadCommitIndex = st.loadCommitIndex := by
      rw [loadCommitIndex, loadCommitIndex, saveMeta]
      cases st.metaFile <;> rfl
    rw [onFiles, kept, hsnapshot, hcommit]
    rfl
  | appendLogEntry e =>
    have hall : ∀ e' ∈ st.readLog, e'.index < e.index := hst.loadLog_eq ▸ h
    have hlow : st.readLog.filter (·.index < e.index) = st.readLog :=
      filter_eq_self.2 fun e' he' => decide_eq_true (hall e' he')
    have hhigh : st.readLog.filter (e.index < ·.index) = [] :=
      filter_eq_nil_iff.2 fun e' he' => by simpa using (hall e' he').le
    have hsorted : (st.readLog ++ [e]).Pairwise fun e e' => e.index < e'.index :=
      pairwise_append.2 ⟨hst, pairwise_singleton _ _, fun e' he' e'' he'' =>
        mem_singleton.1 he'' ▸ hall e' he'⟩
    obtain ⟨hordered, hkept⟩ := writeLog_spec st hsorted
    rw [onFiles, appendLogEntry, hlow]
    refine ⟨hordered, hkept.trans ?_⟩
    rw [act, EngineRaftStorage.appendLogEntry]
    have hlog : st.kept.records.log = st.readLog := hst.loadLog_eq
    rw [hlog, hlow, hhigh]
  | truncateLog i =>
    obtain ⟨hordered, hkept⟩ := writeLog_spec st (hst.filter fun e => e.index < i)
    refine ⟨hordered, hkept.trans ?_⟩
    have hlog : st.kept.records.log = st.readLog := hst.loadLog_eq
    rw [act, EngineRaftStorage.truncateLog, hlog]
  | compactLog i =>
    obtain ⟨hordered, hkept⟩ := writeLog_spec st (hst.filter fun e => i < e.index)
    refine ⟨hordered, hkept.trans ?_⟩
    have hlog : st.kept.records.log = st.readLog := hst.loadLog_eq
    rw [act, EngineRaftStorage.compactLog, hlog]
  | saveSnapshot s =>
    refine ⟨hst, ?_⟩
    have hmeta : (st.saveSnapshot s).loadMeta = st.loadMeta := by
      rw [loadMeta, loadMeta, saveSnapshot]
      cases st.metaFile <;> rfl
    have hcommit : (st.saveSnapshot s).loadCommitIndex = st.loadCommitIndex := by
      rw [loadCommitIndex, loadCommitIndex, saveSnapshot]
      cases st.metaFile <;> rfl
    rw [onFiles, kept, hmeta, hcommit]
    rfl
  | saveCommitIndex c =>
    refine ⟨hst, ?_⟩
    have hmeta : (st.saveCommitIndex c).loadMeta = st.loadMeta := by
      rw [loadMeta, loadMeta, saveCommitIndex]
      cases st.metaFile <;> rfl
    have hsnapshot : (st.saveCommitIndex c).loadSnapshot = st.loadSnapshot := by
      rw [loadSnapshot, loadSnapshot, saveCommitIndex]
      cases st.metaFile <;> cases st.snapshotFile <;> rfl
    have hcommit : (st.saveCommitIndex c).loadCommitIndex = c := by
      rw [loadCommitIndex, saveCommitIndex]
      cases st.metaFile <;> rfl
    rw [onFiles, kept, hmeta, hsnapshot, hcommit]
    rfl
  | saveAdmin key value =>
    refine ⟨hst, congrArg (Kept.mk _) ?_⟩
    funext name
    exact Dict.get?_set _ _ _ _
  | deleteAdmin key =>
    rw [onFiles, deleteAdmin]
    split
    · refine ⟨hst, congrArg (Kept.mk _) ?_⟩
      funext name
      exact Dict.get?_erase _ _ _
    · next hnone =>
      refine ⟨hst, congrArg (Kept.mk _) ?_⟩
      funext name
      rw [not_not] at hnone
      by_cases hname : name = key
      · rw [if_pos hname, hname]
        exact hnone
      · rw [if_neg hname]
        rfl
  | reopen => exact ⟨hst, rfl⟩

end JSONFileStorage

/-! ## Runs -/

/-- Every call of a run has numbers that fit and finds what it must. -/
def ProperCalls : JSONFileStorage n δ → List (Call n δ) → Prop
  | _, [] => True
  | st, call :: calls => call.Fits ∧ call.Finds st ∧ ProperCalls (call.onFiles st) calls

instance decidableProperCalls [DecidableEq δ] :
    (st : JSONFileStorage n δ) → (calls : List (Call n δ)) → Decidable (ProperCalls st calls)
  | _, [] => inferInstanceAs (Decidable True)
  | st, call :: calls =>
    have := decidableProperCalls (call.onFiles st) calls
    inferInstanceAs (Decidable (_ ∧ _ ∧ _))

theorem kept_run {engine : EngineRows n δ} {files : JSONFileStorage n δ} {calls : List (Call n δ)}
    (hordered : files.Ordered) (hkept : engine.kept = files.kept) (h : ProperCalls files calls) :
    ∃ engine', calls.foldlM onEngine engine = .ok engine' ∧
      engine'.kept = (calls.foldl onFiles files).kept := by
  induction calls generalizing engine files with
  | nil => exact ⟨engine, rfl, hkept⟩
  | cons call calls ih =>
    obtain ⟨hfits, hfinds, hrest⟩ := h
    obtain ⟨engine₁, hrun, hengine⟩ := EngineRows.run_call engine call hfits
    obtain ⟨hordered₁, hfiles⟩ := JSONFileStorage.run_call_json hordered call hfinds
    obtain ⟨engine', hrun', hkept'⟩ := ih hordered₁ (by rw [hengine, hfiles, hkept]) hrest
    refine ⟨engine', ?_, hkept'⟩
    rw [foldlM_cons, hrun]
    exact hrun'

/-- **The two storages are interchangeable** over calls whose numbers fit and in which no vote is
written while a snapshot is stored: after every run of them, all the loads answer alike. -/
theorem storages_interchangeable {calls : List (Call n δ)} (h : ProperCalls .empty calls) :
    ∃ engine, calls.foldlM Call.onEngine EngineRows.empty = .ok engine ∧
      engine.loadMeta = (calls.foldl Call.onFiles .empty).loadMeta ∧
      engine.loadLog = (calls.foldl Call.onFiles .empty).loadLog ∧
      engine.loadSnapshot = (calls.foldl Call.onFiles .empty).loadSnapshot ∧
      engine.loadCommitIndex = (calls.foldl Call.onFiles .empty).loadCommitIndex ∧
      ∀ key, engine.loadAdmin key = (calls.foldl Call.onFiles .empty).loadAdmin key := by
  have hempty : (EngineRows.empty : EngineRows n δ).kept = JSONFileStorage.empty.kept := rfl
  have hordered : (JSONFileStorage.empty : JSONFileStorage n δ).Ordered := List.Pairwise.nil
  obtain ⟨engine, hrun, hkept⟩ := kept_run hordered hempty h
  have hrecords := congrArg Kept.records hkept
  refine ⟨engine, hrun, Prod.ext ?_ ?_, ?_, ?_, ?_, fun key => ?_⟩
  · exact congrArg currentTerm hrecords
  · exact congrArg votedFor hrecords
  · exact congrArg log hrecords
  · exact congrArg snapshot hrecords
  · exact congrArg commitIndex hrecords
  · exact congrFun (congrArg Kept.notes hkept) key

/-- A vote, entries, a snapshot, and the log without what it covers. -/
def properExample : List (Call 3 Bytes) :=
  [.saveMeta 1 (some 2), .appendLogEntry ⟨1, 1, [97]⟩, .appendLogEntry ⟨1, 2, [98]⟩,
    .saveCommitIndex 2, .saveSnapshot ⟨1, 1, [99], []⟩, .compactLog 1, .saveAdmin "split" [100], .reopen]

theorem storages_interchangeable_example :
    ProperCalls .empty properExample ∧
      ∃ engine, properExample.foldlM Call.onEngine EngineRows.empty = .ok engine ∧
        engine.loadLog = (properExample.foldl Call.onFiles .empty).loadLog ∧
        engine.loadSnapshot = (properExample.foldl Call.onFiles .empty).loadSnapshot := by
  have hproper : ProperCalls .empty properExample := by decide +kernel
  obtain ⟨engine, hrun, -, hlog, hsnapshot, -⟩ := storages_interchangeable hproper
  exact ⟨hproper, engine, hrun, hlog, hsnapshot⟩

/-- **A vote makes a stored snapshot disappear** from the files, and not from the engine. -/
theorem vote_hides_snapshot :
    ∃ (calls : List (Call 1 Bytes)) (engine : EngineRows 1 Bytes),
      calls = [.saveSnapshot ⟨5, 1, [99], []⟩, .saveMeta 2 none] ∧
      calls.foldlM Call.onEngine EngineRows.empty = .ok engine ∧
      engine.loadSnapshot = some ⟨5, 1, [99], []⟩ ∧
      (calls.foldl Call.onFiles .empty).loadSnapshot = none :=
  ⟨_, _, rfl, rfl, by decide +kernel, by decide +kernel⟩

end OxideDB.Raft
