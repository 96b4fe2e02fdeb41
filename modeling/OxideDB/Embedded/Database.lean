import OxideDB.Dict
import OxideDB.Storage.Keyspace

/-!
# The embedded database

`database.py` over `transaction/local.py` and `storage/timestamp.py`: a storage in the process, whose
timestamps come from the wall clock, and transactions that buffer their writes and hand them to the
storage one by one when they commit.  The buffers take any key and any value; the storage checks them
while it writes.

A key or a value that is no byte string is `none`.  The clock is read in nanoseconds since the epoch.
-/

namespace OxideDB.Embedded

open Raft (Bytes)
open Storage List MVCCStorage Maps

/-- What a caller passes for a key. -/
abbrev Key := Option Bytes

structure TimestampAllocator where
  lastTimestamp : ℕ
  deriving DecidableEq

def TimestampAllocator.allocate (clock : TimestampAllocator) (now : ℕ) : TimestampAllocator :=
  if clock.lastTimestamp < now then ⟨now⟩ else ⟨clock.lastTimestamp + 1⟩

inductive TransactionState where
  | pending
  | committed
  | aborted
  deriving DecidableEq

def TransactionState.value : TransactionState → String
  | .pending => "pending"
  | .committed => "committed"
  | .aborted => "aborted"

/-- A transaction; a key is buffered as written or as deleted, not as both. -/
structure Transaction where
  txnId : ℕ
  startTimestamp : ℕ
  commitTimestamp : Option ℕ := none
  state : TransactionState := .pending
  writes : Dict Key (Option Bytes) := .empty
  deletes : Finset Key := ∅
  apart : ∀ k ∈ deletes, writes.get? k = none := by simp

structure Database where
  storage : MVCCStorage
  clock : TimestampAllocator
  txnCounter : ℕ := 0

/-- `MVCCStorage.get`. -/
def read (st : MVCCStorage) (key : Key) (timestamp : ℤ) : Except String (Option Bytes) := do
  return (← st.getVersion key timestamp).map (·.value)

namespace Transaction

/-- What every method begins with. -/
def guardPending (t : Transaction) : Except String Unit :=
  let state := t.state.value
  if t.state = .pending then .ok () else .error s!"Transaction is {state}"

def get (t : Transaction) (st : MVCCStorage) (key : Key) : Except String (Option Bytes) := do
  t.guardPending
  match t.writes.get? key with
  | some value => return value
  | none => if key ∈ t.deletes then return none else read st key t.startTimestamp

def set (t : Transaction) (key : Key) (value : Option Bytes) : Except String Transaction := do
  t.guardPending
  return { t with
    writes := t.writes.set key value
    deletes := t.deletes.erase key
    apart := fun k hk => by
      rw [Dict.get?_set_of_ne _ _ (Finset.ne_of_mem_erase hk)]
      exact t.apart k (Finset.mem_of_mem_erase hk) }

def delete (t : Transaction) (key : Key) : Except String Transaction := do
  t.guardPending
  return { t with
    writes := t.writes.erase key
    deletes := insert key t.deletes
    apart := fun k hk => by
      rw [Dict.get?_erase]
      split
      · rfl
      · next hne => exact t.apart k ((Finset.mem_insert.1 hk).resolve_left hne) }

end Transaction

/-- One thing that a commit hands to the storage. -/
inductive Item where
  | set (key : Key) (value : Option Bytes)
  | delete (key : Key)
  deriving DecidableEq

namespace Item

def key : Item → Key
  | .set key _ => key
  | .delete key => key

/-- What the key is to read as. -/
def word : Item → Option Bytes
  | .set _ value => value
  | .delete _ => none

def run (timestamp : ℕ) (st : MVCCStorage) : Item → Except String MVCCStorage
  | .set key value => st.set key value (some (timestamp : ℤ))
  | .delete key => st.delete key (some (timestamp : ℤ))

/-- The checks the storage makes, and the row it writes when they pass. -/
def check (timestamp : ℕ) : Item → Except String (UserKey × Stamp × UInt8 × Bytes)
  | .set key value => do
    return (← checkUserKey key, ← tsBytes (some (timestamp : ℤ)), 1, ← asBytes value)
  | .delete key => do
    return (← checkUserKey key, ← tsBytes (some (timestamp : ℤ)), 0, [])

/-- The storage takes it. -/
def accepted (timestamp : ℕ) (i : Item) : Bool := (i.check timestamp).isOk

end Item

/-- The body of `commit`'s `try`: what has been written stays when the next write raises. -/
def writeAll (timestamp : ℕ) : List Item → MVCCStorage → Bool × MVCCStorage
  | [], st => (true, st)
  | i :: items, st =>
    match i.run timestamp st with
    | .ok st' => writeAll timestamp items st'
    | .error _ => (false, st)

namespace Transaction

/-- What is buffered, in the order in which `commit` goes through it: the writes as they came, the
deletes as the set happens to be iterated. -/
def items (t : Transaction) (order : List Key) : List Item :=
  (t.writes.entries.map fun e => .set e.1 e.2) ++ order.map .delete

def commit (t : Transaction) (db : Database) (now : ℕ) (order : List Key) :
    Except String (Bool × Transaction × Database) := do
  t.guardPending
  let clock := db.clock.allocate now
  let (done, storage) := writeAll clock.lastTimestamp (t.items order) db.storage
  return (done,
    { t with
      commitTimestamp := some clock.lastTimestamp
      state := if done then .committed else .aborted },
    { db with storage := storage, clock := clock })

end Transaction

namespace Database

def begin (db : Database) (now : ℕ) : Transaction × Database :=
  let clock := db.clock.allocate now
  ({ txnId := db.txnCounter + 1, startTimestamp := clock.lastTimestamp },
    { db with clock := clock, txnCounter := db.txnCounter + 1 })

def get (db : Database) (key : Key) : Option Transaction → Except String (Option Bytes)
  | some t => t.get db.storage key
  | none => read db.storage key db.clock.lastTimestamp

def scan (db : Database) (startKey endKey : Bytes) (t : Option Transaction) :
    Except String (List (Bytes × Bytes)) :=
  db.storage.scan startKey endKey
    (t.elim db.clock.lastTimestamp fun t => t.startTimestamp : ℕ)

/-- `set` outside a transaction; what its commit returned is not handed on. -/
def set (db : Database) (key : Key) (value : Option Bytes) (now now' : ℕ) :
    Except String (Bool × Database) := do
  let (t, db) := db.begin now
  let t ← t.set key value
  let (done, _, db) ← t.commit db now' []
  return (done, db)

/-- `delete` outside a transaction. -/
def delete (db : Database) (key : Key) (now now' : ℕ) : Except String (Bool × Database) := do
  let (t, db) := db.begin now
  let t ← t.delete key
  let (done, _, db) ← t.commit db now' [key]
  return (done, db)

end Database

/-! ## Reads of the storage -/

section Reads

variable {st st' : MVCCStorage} {k lo hi : Bytes} {t : ℤ} {w : Option Bytes} {M : Maps}

theorem read_ok : read st (some k) t = .ok w ↔
    (ValidKey k ∧ -1 ≤ t) ∧ st.maps.Shows k t w := by
  by_cases h : ValidKey k ∧ -1 ≤ t
  · obtain ⟨newest, hnew, hget⟩ := getVersion_valid st h.1 h.2
    have hread : read st (some k) t = .ok (newest.bind Prod.snd) := by
      rw [read, hget]
      rcases newest with _ | ⟨c, _ | v⟩ <;> rfl
    rw [hread, Except.ok.injEq]
    refine ⟨fun heq => ⟨h, newest, hnew, heq.symm⟩, fun hs => ?_⟩
    exact Maps.Shows.unique ⟨newest, hnew, rfl⟩ hs.2
  · obtain ⟨e, he⟩ := getVersion_invalid h
    have hread : read st (some k) t = .error e := by
      rw [read, he]
      rfl
    simp [hread, h]

/-- What two storages show alike they answer alike. -/
theorem read_congr (h : ∀ w, st'.maps.Shows k t w ↔ st.maps.Shows k t w) :
    read st' (some k) t = read st (some k) t := by
  by_cases hvalid : ValidKey k ∧ -1 ≤ t
  · obtain ⟨newest, hnew, -⟩ := getVersion_valid st hvalid.1 hvalid.2
    have hs : st.maps.Shows k t (newest.bind Prod.snd) := ⟨newest, hnew, rfl⟩
    rw [read_ok.2 ⟨hvalid, hs⟩, read_ok.2 ⟨hvalid, (h _).2 hs⟩]
  · obtain ⟨e, he⟩ := getVersion_invalid hvalid
    rw [read, read, he, he]

/-- **A range read is the reads of its keys.** -/
theorem scan_read (st : MVCCStorage) (hlo : ValidKey lo) (hhi : ValidKey hi) (t : ℤ) :
    ∃ rows, st.scan lo hi t = .ok rows ∧ (rows.Pairwise fun e e' => e.1 < e'.1) ∧
      ∀ k v, (k, v) ∈ rows ↔ lo ≤ k ∧ k < hi ∧ read st (some k) t = .ok (some v) := by
  obtain ⟨rows, hscan, hsorted, hmem⟩ := scanVersions_valid st hlo hhi t
  refine ⟨rows.map fun row => (row.1, row.2.1), ?_, pairwise_map.2 hsorted, fun k v => ?_⟩
  · rw [scan, hscan]
    rfl
  rw [mem_map, read_ok]
  constructor
  · rintro ⟨⟨k', v', c⟩, hrow, heq⟩
    cases heq
    obtain ⟨hlo', hhi', hnew⟩ := (hmem _ _ _).1 hrow
    obtain ⟨hle, hv⟩ : c ≤ t ∧ st.maps.version k' c = some (some v') := by
      cases hnew with
      | some hv => exact visible_eq_some.1 hv
    obtain ⟨hkey, hc⟩ := valid_of_versionAt hv
    have := hc.1
    exact ⟨hlo', hhi', ⟨hkey, by omega⟩, _, hnew, rfl⟩
  · rintro ⟨hlo', hhi', -, newest, hnew, heq⟩
    rcases newest with _ | ⟨c, _ | v'⟩
    · cases heq
    · cases heq
    · cases heq
      exact ⟨(k, v, c), (hmem _ _ _).2 ⟨hlo', hhi', hnew⟩, rfl⟩

theorem scan_congr (h : ∀ k t, read st' (some k) t = read st (some k) t) :
    st'.scan lo hi t = st.scan lo hi t := by
  by_cases hlo : ValidKey lo
  · by_cases hhi : ValidKey hi
    · obtain ⟨rows, hrows, hsorted, hmem⟩ := scan_read st hlo hhi t
      obtain ⟨rows', hrows', hsorted', hmem'⟩ := scan_read st' hlo hhi t
      rw [hrows, hrows', SortedTable.ext_rows hsorted' hsorted fun row => ?_]
      rw [hmem, hmem', h]
    · simp only [scan, scanVersions, checkUserKey_valid hlo,
        checkUserKey_invalid hhi]
      rfl
  · simp only [scan, scanVersions, checkUserKey_invalid hlo]
    rfl

theorem shows_put (M : Maps) (k : Bytes) (s : ℤ) (w : Option Bytes) :
    (M.putVersion k s w).Shows k s w :=
  ⟨some (s, w), .some (by simp [visible, putVersion]) fun t' ht' => by
    simp [visible, not_le.2 ht'], rfl⟩

/-- The newest entry is above a bound, and above it the maps agree. -/
theorem newest_of_agree {f g : ℤ → Option (Option Bytes)} {s c₀ : ℤ} (h : ∀ c, s < c → f c = g c)
    (hlt : s < c₀) (hseen : f c₀ ≠ none) {newest : Option (ℤ × Option Bytes)}
    (hnew : Newest f newest) : Newest g newest := by
  cases hnew with
  | none hall => exact absurd (hall c₀) hseen
  | @some c x hx hmax =>
    have hc : s < c := by
      by_contra hc
      exact hseen (hmax c₀ (by omega))
    exact .some (h c hc ▸ hx) fun c' hc' => h c' (hc.trans hc') ▸ hmax c' hc'

/-- A version that repeats what its key reads as changes no read. -/
theorem shows_putVersion {s : ℤ} (hw : M.Shows k s w) (k' : Bytes) (t : ℤ) (w' : Option Bytes) :
    (M.putVersion k s w).Shows k' t w' ↔ M.Shows k' t w' := by
  by_cases hk : k' = k ∧ s ≤ t
  swap
  · have hv : (M.putVersion k s w).visible k' t = M.visible k' t := by
      funext c
      simp only [visible, putVersion_version]
      grind
    rw [Maps.Shows, Maps.Shows, hv]
  obtain ⟨rfl, hst⟩ := hk
  by_cases hnone : ∀ c, s < c → c ≤ t → M.version k' c = none
  · -- nothing was written between the two timestamps
    have hv : M.visible k' t = M.visible k' s := by
      funext c
      simp only [visible]
      grind
    have hv' : (M.putVersion k' s w).visible k' t = (M.putVersion k' s w).visible k' s := by
      funext c
      simp only [visible, putVersion_version]
      grind
    have hput := shows_put M k' s w
    rw [Maps.Shows, Maps.Shows, hv, hv']
    exact ⟨fun h => hput.unique h ▸ hw, fun h => hw.unique h ▸ hput⟩
  · push Not at hnone
    obtain ⟨c₀, hlt, hle, hc₀⟩ := hnone
    have hsame : ∀ c, s < c →
        (M.putVersion k' s w).visible k' t c = M.visible k' t c := by
      intro c hc
      simp only [visible, putVersion_version]
      grind
    have hseen : M.visible k' t c₀ ≠ none := by simpa [visible, hle] using hc₀
    constructor
    · rintro ⟨newest, hnew, hw'⟩
      exact ⟨newest, newest_of_agree hsame hlt (hsame c₀ hlt ▸ hseen) hnew, hw'⟩
    · rintro ⟨newest, hnew, hw'⟩
      exact ⟨newest, newest_of_agree (fun c hc => (hsame c hc).symm) hlt hseen hnew, hw'⟩

end Reads

/-! ## A commit that fails -/

section Commit

variable {st st' : MVCCStorage} {timestamp : ℕ} {i : Item} {items : List Item}

theorem run_isOk (i : Item) (st : MVCCStorage) : (i.run timestamp st).isOk = i.accepted timestamp := by
  cases i with
  | set key value =>
    simp only [Item.run, Item.accepted, Item.check, MVCCStorage.set]
    rcases checkUserKey key with _ | _ <;> rcases tsBytes (some (timestamp : ℤ)) with _ | _ <;>
      rcases asBytes value with _ | _ <;> rfl
  | delete key =>
    simp only [Item.run, Item.accepted, Item.check, delete]
    rcases checkUserKey key with _ | _ <;> rcases tsBytes (some (timestamp : ℤ)) with _ | _ <;> rfl

theorem run_done (h : i.run timestamp st = .ok st') : ∃ k, i.key = some k ∧ ValidKey k ∧
    st'.maps = st.maps.putVersion k timestamp i.word := by
  cases i with
  | set key value =>
    obtain ⟨k, v, t, hk, hv, ht, hvalid, -, hmaps⟩ := set_ok h
    cases ht
    exact ⟨k, hk, hvalid, by rw [hmaps, Item.word, hv]⟩
  | delete key =>
    obtain ⟨k, t, hk, ht, hvalid, -, hmaps⟩ := delete_ok h
    cases ht
    exact ⟨k, hk, hvalid, hmaps⟩

theorem writeAll_fst (items : List Item) (st : MVCCStorage) :
    (writeAll timestamp items st).1 = items.all (Item.accepted timestamp) := by
  induction items generalizing st with
  | nil => rfl
  | cons i items ih =>
    rw [writeAll, all_cons, ← run_isOk i st]
    rcases i.run timestamp st with e | st'
    · rfl
    · exact ih st'

/-- Writes of what the keys read as already change no read. -/
theorem read_writeAll (h : ∀ i ∈ items.takeWhile (Item.accepted timestamp),
      read st i.key timestamp = .ok i.word) (key : Key) (t : ℤ) :
    read (writeAll timestamp items st).2 key t = read st key t := by
  induction items generalizing st with
  | nil => rfl
  | cons i items ih =>
    rw [writeAll]
    have hacc : (i.run timestamp st).isOk = i.accepted timestamp := run_isOk i st
    rcases hrun : i.run timestamp st with e | st'
    · rfl
    rw [hrun] at hacc
    rw [takeWhile_cons_of_pos hacc.symm] at h
    obtain ⟨k, hk, -, hmaps⟩ := run_done hrun
    have hi := h i mem_cons_self
    rw [hk, read_ok] at hi
    have hsame : ∀ key t, read st' key t = read st key t := by
      intro key t
      rcases key with _ | key
      · rfl
      · refine read_congr fun w => ?_
        rw [hmaps]
        exact shows_putVersion hi.2 key t w
    refine (ih fun j hj => ?_).trans (hsame key t)
    rw [hsame]
    exact h j (mem_cons_of_mem _ hj)

theorem version_writeAll {k : Bytes} (h : ∀ i ∈ items, i.key ≠ some k) (st : MVCCStorage) :
    (writeAll timestamp items st).2.maps.version k = st.maps.version k := by
  induction items generalizing st with
  | nil => rfl
  | cons i items ih =>
    rw [writeAll]
    rcases hrun : i.run timestamp st with e | st'
    · rfl
    obtain ⟨k', hk', -, hmaps⟩ := run_done hrun
    refine (ih (fun j hj => h j (mem_cons_of_mem _ hj)) st').trans ?_
    funext t
    rw [hmaps, putVersion_version, if_neg]
    rintro ⟨rfl, -⟩
    exact h i mem_cons_self hk'

theorem read_written (hkeys : (items.map Item.key).Nodup) (st : MVCCStorage) :
    ∀ i ∈ items.takeWhile (Item.accepted timestamp),
      read (writeAll timestamp items st).2 i.key timestamp = .ok i.word := by
  induction items generalizing st with
  | nil => simp
  | cons i items ih =>
    rw [map_cons, nodup_cons, mem_map] at hkeys
    rw [writeAll]
    have hacc : (i.run timestamp st).isOk = i.accepted timestamp := run_isOk i st
    rcases hrun : i.run timestamp st with e | st' <;> rw [hrun] at hacc
    · rw [takeWhile_cons_of_neg (by rw [← hacc]; exact Bool.false_ne_true)]
      simp
    rw [takeWhile_cons_of_pos hacc.symm]
    obtain ⟨k, hk, hvalid, hmaps⟩ := run_done hrun
    intro j hj
    rcases mem_cons.1 hj with rfl | hj
    · rw [hk, read_ok]
      refine ⟨⟨hvalid, by omega⟩, (shows_put st.maps k timestamp j.word).congr fun c _ => ?_⟩
      rw [← hmaps]
      exact congrFun (version_writeAll (fun j' hj' hk' => hkeys.1 ⟨j', hj', hk'.trans hk.symm⟩) st') c
    · exact ih hkeys.2 st' j hj

end Commit

/-- The timestamp a commit at this moment gets. -/
def Database.nextTimestamp (db : Database) (now : ℕ) : ℕ := (db.clock.allocate now).lastTimestamp

theorem Transaction.nodup_items (t : Transaction) {order : List Key} (horder : order.Nodup)
    (hset : order.toFinset = t.deletes) : ((t.items order).map Item.key).Nodup := by
  have hkeys : (t.items order).map Item.key = t.writes.entries.map Prod.fst ++ order := by
    simp [Transaction.items, Function.comp_def, Item.key]
  rw [hkeys]
  refine List.Nodup.append t.writes.nodup horder fun k hk hmem => ?_
  obtain ⟨⟨k', v⟩, he, rfl⟩ := mem_map.1 hk
  have hnone := t.apart k' (by rw [← hset]; exact mem_toFinset.2 hmem)
  rw [Dict.get?_eq_none] at hnone
  exact hnone v he

/-- **When a commit that fails has changed nothing**: when nothing that it writes before the first
refused key or value was to read differently before. -/
theorem failed_commit_iff (t : Transaction) (hpending : t.state = .pending) (db : Database) (now : ℕ)
    (order : List Key) (horder : order.Nodup) (hset : order.toFinset = t.deletes) :
    (∀ t' db', t.commit db now order = .ok (false, t', db') →
      (∀ key timestamp, read db'.storage key timestamp = read db.storage key timestamp) ∧
      ∀ lo hi timestamp, db'.storage.scan lo hi timestamp = db.storage.scan lo hi timestamp) ↔
    (∀ i ∈ t.items order, i.accepted (db.nextTimestamp now) = true) ∨
      ∀ i ∈ (t.items order).takeWhile (Item.accepted (db.nextTimestamp now)),
        read db.storage i.key (db.nextTimestamp now) = .ok i.word := by
  have hcommit : t.commit db now order = .ok ((t.items order).all (Item.accepted (db.nextTimestamp now)),
      { t with
        commitTimestamp := some (db.nextTimestamp now)
        state := if (writeAll (db.nextTimestamp now) (t.items order) db.storage).1 then .committed
          else .aborted },
      { db with
        storage := (writeAll (db.nextTimestamp now) (t.items order) db.storage).2
        clock := db.clock.allocate now }) := by
    rw [← writeAll_fst (t.items order) db.storage, Transaction.commit, Transaction.guardPending,
      if_pos hpending]
    rfl
  rw [hcommit]
  by_cases hall : ∀ i ∈ t.items order, i.accepted (db.nextTimestamp now) = true
  · rw [all_eq_true.2 hall]
    exact ⟨fun _ => .inl hall, nofun⟩
  · have hfalse : (t.items order).all (Item.accepted (db.nextTimestamp now)) = false := by
      rw [← Bool.not_eq_true, all_eq_true]
      exact hall
    rw [hfalse]
    constructor
    · intro h
      obtain ⟨hread, -⟩ := h _ _ rfl
      refine .inr fun i hi => ?_
      rw [← hread]
      exact read_written (t.nodup_items horder hset) db.storage i hi
    · rintro (h | h) t' db' heq
      · exact absurd h hall
      · cases heq
        have hread := read_writeAll h
        exact ⟨hread, fun lo hi ts => scan_congr fun k ts => hread (some k) ts⟩

/-- A key that the storage takes, and one with the separator byte. -/
def halfTxn : Transaction where
  txnId := 1
  startTimestamp := 10
  writes := (Dict.empty.set (some [97]) (some [1])).set (some [0]) (some [1])

/-- A database where the first key reads so already. -/
def halfDone : Database := ⟨(writeAll 5 [.set (some [97]) (some [1])] .empty).2, ⟨10⟩, 1⟩

/-- The first key is written again before the second is refused. -/
theorem failed_commit_iff_refused : (∃ t' db', halfTxn.commit halfDone 11 [] = .ok (false, t', db') ∧
      db'.storage ≠ halfDone.storage) ∧
    ∀ t' db', halfTxn.commit halfDone 11 [] = .ok (false, t', db') →
      (∀ key timestamp, read db'.storage key timestamp = read halfDone.storage key timestamp) ∧
      ∀ lo hi timestamp, db'.storage.scan lo hi timestamp = halfDone.storage.scan lo hi timestamp :=
  ⟨⟨_, _, rfl, by decide +kernel⟩, (failed_commit_iff halfTxn rfl halfDone 11 [] (by decide)
    (by decide)).2 (.inr (by decide +kernel))⟩

/-- On a fresh database it returns `False`, and the first key is there. -/
theorem failed_commit_writes : ∃ t' db',
    halfTxn.commit ⟨.empty, ⟨10⟩, 1⟩ 11 [] = .ok (false, t', db') ∧
    read .empty (some [97]) 11 = .ok none ∧ read db'.storage (some [97]) 11 = .ok (some [1]) :=
  ⟨_, _, rfl, by decide +kernel, by decide +kernel⟩

/-! ## Reads in a transaction -/

/-- What a transaction has buffered for a key. -/
def Transaction.buffered (t : Transaction) (key : Key) : Option (Option Bytes) :=
  (t.writes.get? key).or (if key ∈ t.deletes then some none else none)

theorem Transaction.get_eq {t : Transaction} (hpending : t.state = .pending) (st : MVCCStorage)
    (key : Key) : t.get st key = (t.buffered key).elim (read st key t.startTimestamp) .ok := by
  rw [Transaction.get, Transaction.guardPending, if_pos hpending, Transaction.buffered]
  rcases t.writes.get? key with _ | w
  · simp only [bind, Except.bind, Option.none_or]
    split <;> rfl
  · rfl

/-- **When a range read in a transaction agrees with its reads of single keys**: when everything that is
buffered inside the range reads that way in the snapshot too. -/
theorem scan_sees_buffers_iff (db : Database) (t : Transaction) (hpending : t.state = .pending)
    {lo hi : Bytes} (hlo : ValidKey lo) (hhi : ValidKey hi) :
    (∃ rows, db.scan lo hi (some t) = .ok rows ∧ (rows.Pairwise fun e e' => e.1 < e'.1) ∧
      ∀ k v, (k, v) ∈ rows ↔ lo ≤ k ∧ k < hi ∧ db.get (some k) (some t) = .ok (some v)) ↔
    ∀ k, lo ≤ k → k < hi → ∀ w, t.buffered (some k) = some w →
      ∀ v, w = some v ↔ read db.storage (some k) t.startTimestamp = .ok (some v) := by
  obtain ⟨rows, hscan, hsorted, hmem⟩ := scan_read db.storage hlo hhi (t.startTimestamp : ℤ)
  constructor
  · rintro ⟨rows', hscan', -, hmem'⟩ k hk hk' w hw v
    obtain rfl : rows = rows' := Except.ok.inj (hscan.symm.trans hscan')
    have hv := (hmem k v).symm.trans (hmem' k v)
    rw [Database.get, t.get_eq hpending, hw] at hv
    simpa [hk, hk'] using hv.symm
  · intro h
    refine ⟨rows, hscan, hsorted, fun k v => (hmem k v).trans ?_⟩
    refine and_congr_right fun hk => and_congr_right fun hk' => ?_
    rw [Database.get, t.get_eq hpending]
    rcases hw : t.buffered (some k) with _ | w
    · rfl
    · rw [← h k hk hk' w hw v]
      simp

/-- A transaction that has written one key. -/
def writingTxn : Transaction where
  txnId := 1
  startTimestamp := 10
  writes := Dict.empty.set (some [98]) (some [1])

/-- A database with what it has written. -/
def writtenDb : Database := ⟨(writeAll 5 [.set (some [98]) (some [1])] .empty).2, ⟨10⟩, 1⟩

theorem scan_sees_buffers_iff_written : writingTxn.buffered (some [98]) = some (some [1]) ∧
    ∃ rows, writtenDb.scan [97] [99] (some writingTxn) = .ok rows ∧
      (rows.Pairwise fun e e' => e.1 < e'.1) ∧ ∀ k v, (k, v) ∈ rows ↔ [97] ≤ k ∧ k < [99] ∧
        writtenDb.get (some k) (some writingTxn) = .ok (some v) := by
  refine ⟨by decide, (scan_sees_buffers_iff writtenDb writingTxn rfl (by decide)
    (by decide)).2 fun k _ _ w hw v => ?_⟩
  by_cases hk : k = [98]
  · subst hk
    obtain rfl : some [1] = w := Option.some.inj hw
    have hread : read writtenDb.storage (some [98]) 10 = .ok (some [1]) := by decide +kernel
    show _ ↔ read writtenDb.storage (some [98]) 10 = _
    rw [hread, Except.ok.injEq]
  · rw [Transaction.buffered, writingTxn, Dict.get?_set_of_ne _ _ (by simpa using hk)] at hw
    cases hw

/-- A range read does not see what its transaction has written. -/
theorem scan_misses_write :
    Database.get ⟨.empty, ⟨10⟩, 1⟩ (some [98]) (some writingTxn) = .ok (some [1]) ∧
    Database.scan ⟨.empty, ⟨10⟩, 1⟩ [97] [99] (some writingTxn) = .ok [] := by
  decide +kernel

end OxideDB.Embedded
