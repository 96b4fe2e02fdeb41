import Mathlib.Algebra.Group.Nat.Defs
import Mathlib.Data.List.Basic

/-!
# MessagePack

Maps from names to values as msgpack packs them, where they are small: the length of a map or an array
(below 16) or of a name (below 32) is in the type byte, a number from -32 to 127 is its own byte, and
before a byte string stands its length, in one byte.
-/

namespace Msgpack

def utf8 (s : String) : List UInt8 := s.toByteArray.data.toList

theorem utf8_injective {s s' : String} (h : utf8 s = utf8 s') : s = s' :=
  String.toByteArray_inj.1 (ByteArray.ext (Array.toList_inj.1 h))

inductive Value where
  | int (x : ℤ)
  | bin (bytes : List UInt8)
  | array (xs : List ℤ)
  deriving DecidableEq

def Value.packb : Value → List UInt8
  | .int x => [.ofInt x]
  | .bin bytes => 0xc4 :: .ofNat bytes.length :: bytes
  | .array xs => .ofNat (0x90 + xs.length) :: xs.map .ofInt

/-- `msgpack.packb` of a map; a field without a value is not there. -/
def packb (fields : List (String × Option Value)) : List UInt8 :=
  let fields := fields.filterMap fun f => f.2.map (f.1, ·)
  .ofNat (0x80 + fields.length) :: fields.flatMap fun f =>
    .ofNat (0xa0 + (utf8 f.1).length) :: utf8 f.1 ++ f.2.packb

def toInt (b : UInt8) : Option ℤ :=
  if b < 0x80 ∨ 0xe0 ≤ b then some b.toInt8.toInt else none

/-- The next `n` bytes. -/
def read (n : ℕ) (bytes : List UInt8) : Option (List UInt8 × List UInt8) :=
  if n ≤ bytes.length then some (bytes.splitAt n) else none

def Value.unpackb : List UInt8 → Option (Value × List UInt8)
  | 0xc4 :: n :: bytes => (read n.toNat bytes).map fun r => (.bin r.1, r.2)
  | b :: bytes =>
    if 0x90 ≤ b ∧ b < 0xa0 then do
      let (xs, bytes) ← read (b.toNat - 0x90) bytes
      return (.array (← xs.mapM toInt), bytes)
    else (toInt b).map (.int ·, bytes)
  | [] => none

def unpackFields : ℕ → List UInt8 → Option (List (List UInt8 × Value))
  | 0, [] => some []
  | n + 1, b :: bytes => do
    let (name, bytes) ← if 0xa0 ≤ b ∧ b < 0xc0 then read (b.toNat - 0xa0) bytes else none
    let (v, bytes) ← Value.unpackb bytes
    return (name, v) :: (← unpackFields n bytes)
  | _, _ => none

/-- `msgpack.unpackb`; the names are left as they were packed. -/
def unpackb : List UInt8 → Option (List (List UInt8 × Value))
  | b :: bytes => if 0x80 ≤ b ∧ b < 0x90 then unpackFields (b.toNat - 0x80) bytes else none
  | [] => none

/-- `fields.get(name)`: of two fields of one name the later is there. -/
def get (fields : List (List UInt8 × Value)) (name : String) : Option Value :=
  (fields.reverse.find? (·.1 = utf8 name)).map Prod.snd

def Value.bin? : Value → Option (List UInt8)
  | .bin bytes => some bytes
  | _ => none

def Value.int? : Value → Option ℤ
  | .int x => some x
  | _ => none

def Value.array? : Value → Option (List ℤ)
  | .array xs => some xs
  | _ => none

end Msgpack
