import OxideDB.ByteOrder
import OxideDB.SortedTable
import OxideDB.Raft.Message

/-!
# The MVCC keyspace

`storage/mvcc.py`: versions, write records and locks on one byte-ordered engine.  A row of
key `k` at timestamp `t` stands at `namespace || k || 0x00 || t` with `t` in eight bytes,
the most significant first, so that the rows of a key are a contiguous range in the order of
their timestamps and the newest of them is the last.

A key without the separator byte and a timestamp of 64 bits are types of their own
(`UserKey`, `Stamp`), which the two checks of the source produce, and a storage carries the
proof that every row of its engine was written at such a key and timestamp.

Any argument the source is handed may be `None`, and what it raises then is modelled; what
`msgpack` makes of a lock's fields is taken to come back as it went in.
-/

namespace OxideDB.Storage

open Raft (Bytes)
open ByteOrder (bigEndian ofBigEndian)

/-- Readings of a clock, in whatever unit it counts. -/
abbrev Time := ℤ

/-! ## How the source prints a byte string -/

def hexDigit (n : ℕ) : Char := "0123456789abcdef".toList.getD n 'f'

/-- One byte of `repr(bytes)`, between quotes of the given kind. -/
def reprByte (quote : Char) (b : UInt8) : String :=
  let c := Char.ofNat b.toNat
  if b = 9 then "\\t"
  else if b = 10 then "\\n"
  else if b = 13 then "\\r"
  else if b = 92 ∨ c = quote then String.ofList ['\\', c]
  else if 32 ≤ b ∧ b < 127 then String.ofList [c]
  else "\\x" ++ String.ofList [hexDigit (b.toNat / 16), hexDigit (b.toNat % 16)]

/-- `repr(bytes)`: double quotes where there is a single one and no double one inside. -/
def reprBytes (bytes : Bytes) : String :=
  let quote := Char.ofNat (if (39 : UInt8) ∈ bytes ∧ (34 : UInt8) ∉ bytes then 34 else 39)
  let quoted := String.ofList [quote]
  "b" ++ quoted ++ String.join (bytes.map (reprByte quote)) ++ quoted

/-! ## Keys and timestamps -/

/-- The namespaces of the keyspace. -/
inductive Space where
  | version
  | write
  | lock
  deriving DecidableEq, Repr

/-- The byte a namespace's rows begin with. -/
def Space.byte : Space → UInt8
  | .version => 1
  | .write => 3
  | .lock => 4

/-- The field separator. -/
def sep : UInt8 := 0

def maxTs : ℤ := 2 ^ 64 - 1

/-- A key the separator does not occur in. -/
abbrev UserKey := { key : Bytes // sep ∉ key }

/-- A timestamp of 64 bits. -/
abbrev Stamp := { t : ℤ // 0 ≤ t ∧ t ≤ maxTs }

/-- The eight bytes of a timestamp. -/
def Stamp.bytes (t : Stamp) : Bytes := bigEndian 8 t.1.toNat

/-- `_ts_bytes`. -/
def tsBytes : Option ℤ → Except String Stamp
  | none => .error "'<=' not supported between instances of 'int' and 'NoneType'"
  | some timestamp =>
    if h : 0 ≤ timestamp ∧ timestamp ≤ maxTs then .ok ⟨timestamp, h⟩
    else .error s!"timestamp out of 64-bit range: {timestamp}"

/-- `_check_user_key`. -/
def checkUserKey : Option Bytes → Except String UserKey
  | none => .error "key must be bytes, got NoneType"
  | some key =>
    if h : sep ∈ key then .error "keys must not contain the 0x00 separator byte"
    else .ok ⟨key, h⟩

/-- `bytes(value)`. -/
def asBytes : Option Bytes → Except String Bytes
  | none => .error "cannot convert 'NoneType' object to bytes"
  | some value => .ok value

/-- What the rows of a key begin with. -/
def rowPrefix (space : Space) (key : UserKey) : Bytes := space.byte :: key.1 ++ [sep]

/-- `_key_upper_bound`. -/
def keyUpperBound (space : Space) (key : UserKey) : Bytes := space.byte :: key.1 ++ [1]

/-- Where the row of a key at a timestamp stands. -/
def rowKey (space : Space) (key : UserKey) (t : Stamp) : Bytes := rowPrefix space key ++ t.bytes

/-! ## Rows -/

inductive LockStatus where
  | locked
  | committed
  | aborted
  deriving DecidableEq, Repr

/-- The constant a status is. -/
def LockStatus.bytes : LockStatus → String
  | .locked => "b'LOCKED'"
  | .committed => "b'COMMITTED'"
  | .aborted => "b'ABORTED'"

/-- The fields a lock record packs. -/
structure LockFields where
  status : LockStatus
  primaryKey : Bytes
  lockTime : Time
  value : Bytes
  deriving DecidableEq, Repr

/-- What a row holds: bytes, or the packed fields of a lock. -/
inductive Cell where
  | raw (bytes : Bytes)
  | packed (fields : LockFields)
  deriving DecidableEq, Repr

structure MVCCRecord where
  value : Bytes
  timestamp : ℤ
  deleted : Bool
  deriving DecidableEq, Repr

structure WriteRecord where
  startTs : ℤ
  commitTs : ℤ
  deriving DecidableEq, Repr

/-- A decoded lock. -/
structure Lock where
  status : LockStatus
  primaryKey : Bytes
  lockTime : Time
  value : Bytes
  key : Bytes
  startTs : ℤ
  deriving DecidableEq, Repr

/-- What a namespace keeps in its rows: a flag and a value, a timestamp, a lock. -/
def Cell.Fits : Space → Cell → Prop
  | .version, .raw bytes => bytes ≠ []
  | .write, .raw bytes => ∃ t : Stamp, bytes = t.bytes
  | .lock, .packed _ => True
  | _, _ => False

theorem Cell.fits_version (flag : UInt8) (payload : Bytes) :
    (Cell.raw (flag :: payload)).Fits .version :=
  List.cons_ne_nil _ _

theorem Cell.fits_write (t : Stamp) : (Cell.raw t.bytes).Fits .write := ⟨t, rfl⟩

theorem Cell.fits_lock (fields : LockFields) : (Cell.packed fields).Fits .lock := trivial

/-- A row the storage writes. -/
def Formed (row : Bytes × Cell) : Prop :=
  ∃ space key t, row.1 = rowKey space key t ∧ row.2.Fits space

/-- The keyspace: an engine all of whose rows are the storage's own. -/
structure MVCCStorage where
  engine : SortedTable Bytes Cell
  formed : ∀ row ∈ engine.rows, Formed row

namespace MVCCStorage

instance : DecidableEq MVCCStorage := fun st st' =>
  decidable_of_iff (st.engine = st'.engine)
    ⟨fun h => by cases st; cases st'; cases h; rfl, fun h => h ▸ rfl⟩

theorem ext_engine {st st' : MVCCStorage} (h : st.engine = st'.engine) : st = st' := by
  cases st
  cases st'
  cases h
  rfl

def empty : MVCCStorage where
  engine := .empty
  formed _ h := absurd h List.not_mem_nil

/-- `engine.put` of a row. -/
def put (st : MVCCStorage) (space : Space) (key : UserKey) (t : Stamp) (cell : Cell)
    (fits : cell.Fits space) : MVCCStorage where
  engine := st.engine.put (rowKey space key t) cell
  formed row h := by
    rcases SortedTable.mem_put h with rfl | h
    · exact ⟨space, key, t, rfl, fits⟩
    · exact st.formed row h

/-- `engine.delete` of a row. -/
def remove (st : MVCCStorage) (space : Space) (key : UserKey) (t : Stamp) : MVCCStorage where
  engine := st.engine.erase (rowKey space key t)
  formed row h := st.formed row (SortedTable.mem_erase h)

/-- `_decode_version`. -/
def decodeVersion : Cell → ℤ → Option MVCCRecord
  | .raw (flag :: payload), timestamp => some ⟨payload, timestamp, flag = 0⟩
  | .raw [], _ => none
  | .packed _, _ => none

/-- `_split_version_key`. -/
def splitVersionKey (rowKey : Bytes) : Except String (Bytes × ℤ) :=
  let body := rowKey.drop 1
  if body.length < 9 then
    let text := reprBytes rowKey
    .error s!"malformed MVCC version key: {text}"
  else .ok (body.take (body.length - 9), ofBigEndian (body.drop (body.length - 9 + 1)))

/-- `_decode_lock`. -/
def decodeLock : Cell → Bytes → ℤ → Except String Lock
  | .packed f, key, startTs => .ok ⟨f.status, f.primaryKey, f.lockTime, f.value, key, startTs⟩
  | .raw _, _, _ => .error "Unpack failed: incomplete input"

/-- The rows of a key, in the order of their timestamps. -/
def rowsOf (st : MVCCStorage) (space : Space) (key : UserKey) : List (Bytes × Cell) :=
  st.engine.scan (rowPrefix space key) (keyUpperBound space key)

/-! ### Versions -/

/-- `_get_version_at`. -/
def getVersionAt (st : MVCCStorage) (key : Option Bytes) (timestamp : ℤ) :
    Except String (Option MVCCRecord) := do
  let key ← checkUserKey key
  let start := rowPrefix .version key
  let stop ← if timestamp < maxTs then do
      let t ← tsBytes (some (timestamp + 1))
      pure (start ++ t.bytes)
    else pure (keyUpperBound .version key)
  match (st.engine.scan start stop).getLast? with
  | none => return none
  | some (lastKey, lastValue) =>
    return decodeVersion lastValue (ofBigEndian (lastKey.drop start.length))

/-- `get_version`. -/
def getVersion (st : MVCCStorage) (key : Option Bytes) (timestamp : ℤ) :
    Except String (Option MVCCRecord) := do
  match ← st.getVersionAt key timestamp with
  | none => return none
  | some record => return if record.deleted then none else some record

/-- `set`. -/
def set (st : MVCCStorage) (key value : Option Bytes) (timestamp : Option ℤ) :
    Except String MVCCStorage := do
  let key ← checkUserKey key
  let t ← tsBytes timestamp
  let value ← asBytes value
  return st.put .version key t (.raw (1 :: value)) (Cell.fits_version _ _)

/-- `delete`: a tombstone is a version. -/
def delete (st : MVCCStorage) (key : Option Bytes) (timestamp : Option ℤ) :
    Except String MVCCStorage := do
  let key ← checkUserKey key
  let t ← tsBytes timestamp
  return st.put .version key t (.raw [0]) (Cell.fits_version _ _)

/-- `get_latest_version`. -/
def getLatestVersion (st : MVCCStorage) (key : Option Bytes) :
    Except String (Option MVCCRecord) := do
  let key ← checkUserKey key
  match (st.rowsOf .version key).getLast? with
  | none => return none
  | some (rowKey, raw) =>
    let (_, versionTs) ← splitVersionKey rowKey
    return decodeVersion raw versionTs

/-- The variables of the loop of `scan_versions`. -/
structure ScanState where
  result : List (Bytes × Bytes × ℤ) := []
  currentKey : Option Bytes := none
  currentValue : Option Bytes := none
  currentTs : ℤ := 0

/-- The rows so far, and the row of the key the loop is at. -/
def ScanState.flushed (s : ScanState) : List (Bytes × Bytes × ℤ) :=
  match s.currentKey, s.currentValue with
  | some key, some value => s.result ++ [(key, value, s.currentTs)]
  | _, _ => s.result

/-- The loop comes to a key. -/
def ScanState.turn (s : ScanState) (userKey : Bytes) : ScanState :=
  if s.currentKey = some userKey then s
  else { result := s.flushed, currentKey := some userKey }

/-- The loop comes to a version: the newest that is visible counts, and a tombstone hides. -/
def ScanState.see (s : ScanState) (record : Option MVCCRecord) (versionTs : ℤ) : ScanState :=
  let visible := record.filter fun record => !record.deleted
  { s with
    currentValue := visible.map (·.value)
    currentTs := if visible.isSome then versionTs else 0 }

/-- The body of the loop. -/
def ScanState.visit (timestamp : ℤ) (s : ScanState) (row : Bytes × Cell) :
    Except String ScanState := do
  let (userKey, versionTs) ← splitVersionKey row.1
  let s := s.turn userKey
  return if versionTs ≤ timestamp then s.see (decodeVersion row.2 0) versionTs else s

/-- `scan_versions`. -/
def scanVersions (st : MVCCStorage) (startKey endKey : Bytes) (timestamp : ℤ) :
    Except String (List (Bytes × Bytes × ℤ)) := do
  let startKey ← checkUserKey (some startKey)
  let endKey ← checkUserKey (some endKey)
  let rows := st.engine.scan (Space.version.byte :: startKey.1) (Space.version.byte :: endKey.1)
  let s ← rows.foldlM (ScanState.visit timestamp) {}
  return s.flushed

/-- `scan`. -/
def scan (st : MVCCStorage) (startKey endKey : Bytes) (timestamp : ℤ) :
    Except String (List (Bytes × Bytes)) := do
  return (← st.scanVersions startKey endKey timestamp).map fun row => (row.1, row.2.1)

/-! ### Write records -/

/-- `get_latest_write`. -/
def getLatestWrite (st : MVCCStorage) (key : Option Bytes) :
    Except String (Option WriteRecord) := do
  let key ← checkUserKey key
  match (st.rowsOf .write key).getLast? with
  | none => return none
  | some (rowKey, .raw raw) =>
    return some ⟨ofBigEndian raw, ofBigEndian (rowKey.drop (1 + key.1.length + 1))⟩
  | some (_, .packed _) => return none

/-- `write_write_record`. -/
def writeWriteRecord (st : MVCCStorage) (key : Option Bytes) (startTs commitTs : Option ℤ) :
    Except String MVCCStorage := do
  let key ← checkUserKey key
  let c ← tsBytes commitTs
  let s ← tsBytes startTs
  return st.put .write key c (.raw s.bytes) (Cell.fits_write s)

/-! ### Locks -/

/-- `put_lock`. -/
def putLock (st : MVCCStorage) (key : Option Bytes) (startTs : Option ℤ) (status : LockStatus)
    (primaryKey : Option Bytes) (lockTime : Time) (value : Option Bytes) :
    Except String MVCCStorage := do
  let key ← checkUserKey key
  let primaryKey ← asBytes primaryKey
  let value ← asBytes value
  let s ← tsBytes startTs
  return st.put .lock key s (.packed ⟨status, primaryKey, lockTime, value⟩)
    (Cell.fits_lock _)

/-- `get_lock`. -/
def getLock (st : MVCCStorage) (key : Option Bytes) (startTs : Option ℤ) :
    Except String (Option Lock) := do
  let key ← checkUserKey key
  let s ← tsBytes startTs
  match st.engine.get (rowKey .lock key s) with
  | none => return none
  | some raw => return some (← decodeLock raw key.1 s.1)

/-- `get_newest_lock`. -/
def getNewestLock (st : MVCCStorage) (key : Option Bytes) : Except String (Option Lock) := do
  let key ← checkUserKey key
  match (st.rowsOf .lock key).getLast? with
  | none => return none
  | some (rowKey, raw) =>
    let (_, startTs) ← splitVersionKey rowKey
    return some (← decodeLock raw key.1 startTs)

/-- `remove_lock`. -/
def removeLock (st : MVCCStorage) (key : Option Bytes) (startTs : Option ℤ) :
    Except String MVCCStorage := do
  let key ← checkUserKey key
  let s ← tsBytes startTs
  return st.remove .lock key s

/-- `iter_locks`: every lock, ordered by key and then `start_ts`. -/
def iterLocks (st : MVCCStorage) : Except String (List (Bytes × Lock)) :=
  (st.engine.scan [Space.lock.byte] [5]).mapM fun row => do
    let (key, startTs) ← splitVersionKey row.1
    return (key, ← decodeLock row.2 key startTs)

end MVCCStorage

end OxideDB.Storage
