import OxideDB.Storage.Effect

/-!
# What every machine keeps, and what a snapshot carries

`snapshot` packs the rows of the keyspace with the last applied timestamp, and `restore` throws
away whatever the receiver had: what comes out is the machine the snapshot was taken of.  So a
machine that commands and transfers have made is one that commands alone make, and it keeps what
commands keep: one lock per key, a version under every write record, and no version above the last
applied timestamp.
-/

namespace OxideDB.Storage

open Raft (Bytes ApplyResult)

/-! ## Snapshots -/

namespace MVCCStorage

open SortedTable

/-- The bounds of everything the storage writes. -/
def allStart : Bytes := [1]

def allEnd : Bytes := [5]

/-- What `dump` packs: rows of a keyspace. -/
structure Dump where
  rows : List (Bytes × Cell)
  formed : ∀ row ∈ rows, Formed row

/-- `dump`. -/
def dump (st : MVCCStorage) : Dump where
  rows := st.engine.scan allStart allEnd
  formed row h := st.formed row (SortedTable.mem_scan.1 h).1

/-- `load`; `none` is the empty byte string. -/
def load (st : MVCCStorage) (data : Option Dump) : MVCCStorage where
  engine := (st.engine.eraseRange allStart allEnd).putAll (data.elim [] Dump.rows)
  formed row h := by
    rcases SortedTable.mem_putAll h with h | h
    · cases data with
      | none => cases h
      | some data => exact data.formed row h
    · exact st.formed row (List.mem_filter.1 h).1

theorem bounds_of_formed {row : Bytes × Cell} (h : Formed row) :
    allStart ≤ row.1 ∧ row.1 < allEnd := by
  obtain ⟨space, key, t, heq, -⟩ := h
  rw [heq, rowKey, rowPrefix, List.cons_append, List.cons_append, allStart, allEnd,
    ByteOrder.cons_le_cons, ByteOrder.cons_lt_cons]
  cases space with
  | version => exact ⟨.inr ⟨rfl, not_lt.1 (ByteOrder.not_lt_nil _)⟩, .inl (by decide)⟩
  | write | lock => exact ⟨.inl (by decide), .inl (by decide)⟩

/-- **A keyspace that is dumped and loaded is the same**, whatever it is loaded over. -/
theorem load_dump (st st' : MVCCStorage) : st'.load (some st.dump) = st := by
  have hall : ∀ st : MVCCStorage, ∀ row ∈ st.engine.rows, allStart ≤ row.1 ∧ row.1 < allEnd :=
    fun st row hrow => bounds_of_formed (st.formed row hrow)
  refine ext_engine ?_
  show (st'.engine.eraseRange allStart allEnd).putAll (st.engine.scan allStart allEnd) = st.engine
  rw [eraseRange_eq_empty (hall st'), scan_eq_rows (hall st),
    empty_putAll]

end MVCCStorage

namespace MVCCStateMachine

/-- What `snapshot` packs. -/
structure Snapshot where
  ts : ℤ
  storage : MVCCStorage.Dump

/-- `snapshot`. -/
def snapshot (m : MVCCStateMachine) : Snapshot := ⟨m.lastAppliedTimestamp, m.storage.dump⟩

/-- `restore`; `none` is the empty byte string. -/
def restore (m : MVCCStateMachine) (data : Option Snapshot) : MVCCStateMachine :=
  match data with
  | none => ⟨m.storage.load none, 0⟩
  | some record => ⟨m.storage.load (some record.storage), record.ts⟩

/-- **The machine a snapshot was taken of comes back**, whatever the receiver had. -/
theorem restore_snapshot (m receiver : MVCCStateMachine) :
    receiver.restore (some m.snapshot) = m := by
  simp only [restore, snapshot, MVCCStorage.load_dump]

/-! ## Versions that are read -/

/-- A `SET` that carries a write record carries one that can be written. -/
def CarriesRecord (cmd : Command) : Prop :=
  cmd.type = .set → ∀ s, cmd.startTs = some s → ValidTs s

/-- A read of the newest versions sees them all. -/
def Settled (m : MVCCStateMachine) : Prop :=
  ∀ k t w, m.maps.version k t = some w → t ≤ m.lastAppliedTimestamp

variable {m m' : MVCCStateMachine} {cmd : Command} {now : Time} {r : ApplyResult}

theorem settled_empty : Settled empty := by
  intro k t w h
  simp [maps, empty] at h

theorem Settled.put (hm : Settled m) {k : Bytes} {t : ℤ} {w : Option Bytes}
    (hversion : m'.maps.version = (m.maps.putVersion k t w).version)
    (hlast : m'.lastAppliedTimestamp = max m.lastAppliedTimestamp t) : Settled m' := by
  intro k' t' w' h
  rw [hversion, Maps.putVersion_version] at h
  rw [hlast]
  split at h
  · next heq => exact heq.2 ▸ le_max_right _ _
  · exact (hm k' t' w' h).trans (le_max_left _ _)

theorem Settled.applied (hm : Settled m) (hcmd : CarriesRecord cmd)
    (h : Applied now m cmd m' r) : Settled m' := by
  have hkeep : m'.maps.version = m.maps.version →
      m'.lastAppliedTimestamp = m.lastAppliedTimestamp → Settled m' := by
    intro hversion hlast k t w h
    rw [hlast]
    exact hm k t w (hversion ▸ h)
  cases h with
  | refused | kept => exact hm
  | wrote _ _ _ _ _ hmaps hlast | deleted _ _ _ _ hmaps hlast =>
    exact hm.put (by rw [hmaps]) hlast
  | copied _ _ _ _ _ hmaps hlast | committed _ _ _ _ _ _ _ hmaps hlast =>
    exact hm.put (by rw [hmaps]; rfl) hlast
  | halfCopied hr htype hkey ht hs hinvalid => exact absurd (hcmd htype _ hs) hinvalid
  | locked _ _ _ _ _ _ _ _ _ hmaps hlast | unlocked _ _ _ hmaps hlast =>
    exact hkeep (by rw [hmaps]; rfl) hlast

/-- **What commands make of an empty machine.** -/
theorem settled_replay {log : History} (h : ∀ entry ∈ log, CarriesRecord entry.2) :
    Settled (replay log) := by
  induction log using List.reverseRecOn with
  | nil => exact settled_empty
  | append_singleton log entry ih =>
    have hlog := ih fun e he => h e (List.mem_append_left _ he)
    rw [replay_concat]
    exact hlog.applied (h entry (List.mem_append_right _ (List.mem_singleton_self _)))
      (apply_applied entry.1 (replay log) entry.2)

/-! ## Commands and transfers -/

/-- What happens to the state a machine carries on. -/
inductive Event where
  /-- A command is applied. -/
  | command (now : Time) (cmd : Command)
  /-- The state is snapshotted, and restored into another machine. -/
  | transfer (receiver : MVCCStateMachine)

/-- The machine that has the state afterwards. -/
def Event.act (m : MVCCStateMachine) : Event → MVCCStateMachine
  | .command now cmd => (apply now m cmd).1
  | .transfer receiver => receiver.restore (some m.snapshot)

/-- The machine that has the state in the end, from an empty one. -/
def run (events : List Event) : MVCCStateMachine := events.foldl Event.act empty

/-- The commands among the events. -/
def commands (events : List Event) : History :=
  events.filterMap fun e => match e with
    | .command now cmd => some (now, cmd)
    | .transfer _ => none

/-- **Transfers make no difference.** -/
theorem run_eq_replay (events : List Event) : run events = replay (commands events) := by
  induction events using List.reverseRecOn with
  | nil => rfl
  | append_singleton events e ih =>
    have hcommands : commands (events ++ [e]) = commands events ++ commands [e] :=
      List.filterMap_append
    rw [run, List.foldl_append, ← run, ih, hcommands, List.foldl_cons, List.foldl_nil]
    cases e with
    | command now cmd => exact (replay_concat _ now cmd).symm
    | transfer receiver =>
      rw [show commands [.transfer receiver] = [] from rfl, List.append_nil]
      exact restore_snapshot _ receiver

/-- What a read answers of the newest version it sees; a tombstone and no version are no value. -/
def answerOf : Option (ℤ × Option Bytes) → ReadResult
  | some (t, some v) => .ok (some v) t
  | _ => .ok none

theorem readVersion_valid {k : Bytes} {timestamp : Option ℤ} (m : MVCCStateMachine)
    (hk : ValidKey k) (ht : -1 ≤ timestamp.getD m.lastAppliedTimestamp) :
    ∃ newest, Newest (m.maps.visible k (timestamp.getD m.lastAppliedTimestamp)) newest ∧
      m.readVersion k timestamp = .ok (answerOf newest) := by
  obtain ⟨newest, hnew, hget⟩ := MVCCStorage.getVersion_valid m.storage hk ht
  refine ⟨newest, hnew, ?_⟩
  simp only [readVersion, hget, bind, Except.bind]
  rcases newest with _ | ⟨t, _ | v⟩ <;> rfl

theorem lastApplied_nonneg (log : History) : 0 ≤ (replay log).lastAppliedTimestamp :=
  replay_invariant (I := fun m => 0 ≤ m.lastAppliedTimestamp) le_rfl
    (fun now m cmd hm => hm.trans (apply_applied now m cmd).lastApplied_le) log

/-- The newest version of a key is visible to a read of what has been applied. -/
theorem Settled.newest (hm : Settled m) {k : Bytes} {newest : Option (ℤ × Option Bytes)}
    (h : Newest (m.maps.visible k m.lastAppliedTimestamp) newest) :
    Newest (m.maps.version k) newest := by
  have hvisible : m.maps.visible k m.lastAppliedTimestamp = m.maps.version k := by
    funext t
    rcases hv : m.maps.version k t with _ | w
    · rw [Maps.visible, hv, ite_self]
    · exact Maps.visible_eq_some.2 ⟨hm k t w hv, hv⟩
  exact hvisible ▸ h

/-- What holds of a machine between any two commands. -/
structure Consistent (m : MVCCStateMachine) : Prop where
  /-- One lock per key, with the status of a write intent. -/
  tidy : Tidy m
  /-- A version under every write record. -/
  recorded : Recorded m
  /-- No version above the last applied timestamp. -/
  settled : Settled m
  /-- A read of an unlocked key without a timestamp answers from the newest version. -/
  reads {k : Bytes} (hk : ValidKey k) (hfree : ∀ s, m.maps.lock k s = none) :
    ∃ newest, Newest (m.maps.version k) newest ∧ m.get k none = .ok (answerOf newest)

/-- **The invariant of a machine**: whatever commands are applied, refused ones among them, and
however often the state moves to another machine. -/
theorem consistent_run {events : List Event}
    (h : ∀ now cmd, .command now cmd ∈ events → CarriesRecord cmd) : Consistent (run events) := by
  rw [run_eq_replay]
  have hsettled : Settled (replay (commands events)) := by
    refine settled_replay fun entry hentry => ?_
    obtain ⟨e, he, heq⟩ := List.mem_filterMap.1 hentry
    cases e with
    | command now cmd =>
      cases heq
      exact h now cmd he
    | transfer receiver => cases heq
  refine ⟨tidy_replay _, recorded_replay _, hsettled, fun {k} hk hfree => ?_⟩
  have hnonneg := lastApplied_nonneg (commands events)
  have hlast : -1 ≤ (none : Option ℤ).getD (replay (commands events)).lastAppliedTimestamp := by
    rw [Option.getD_none]
    omega
  obtain ⟨newest, hnew, hread⟩ := readVersion_valid (replay (commands events)) hk hlast
  refine ⟨newest, hsettled.newest hnew, ?_⟩
  simp only [get, getNewestLock_free hk hfree, bind, Except.bind]
  exact hread

/-- A transaction, a row that a split brought and a refused command, over two machines. -/
def moved : List Event :=
  [.command 0 (.prewrite [97] [98] 1 [97]), .command 1 (.commit [97] 1 2), .transfer empty,
    .command 2
      { type := .set, key := some [99], value := some [100], timestamp := some 5,
        startTs := some 4 },
    .command 3 (.commit [97] 1 2), .command 4 (.prewrite [97] [101] 6 [97])]

theorem consistent_run_moved : (∀ now cmd, .command now cmd ∈ moved → CarriesRecord cmd) ∧
    Consistent (run moved) := by
  have hcarries : ∀ now cmd, .command now cmd ∈ moved → CarriesRecord cmd := by
    intro now cmd h htype s hs
    simp only [moved, List.mem_cons, Event.command.injEq, reduceCtorEq, List.not_mem_nil, or_false,
      false_or] at h
    rcases h with ⟨-, rfl⟩ | ⟨-, rfl⟩ | ⟨-, rfl⟩ | ⟨-, rfl⟩ | ⟨-, rfl⟩
    · cases htype
    · cases htype
    · cases hs
      decide
    · cases htype
    · cases htype
  exact ⟨hcarries, consistent_run hcarries⟩

end MVCCStateMachine
end OxideDB.Storage
