/-
Memnode.Value — Python objects as they come out of `msgpack.unpackb`,
and the package as a parameter.

Code that reads a decoded object calls `.get` on it, tests its type and
truth and compares it; these are the operations here. A `Packer` is the
package with what is assumed of it: what is packed is unpacked, accepted
byte strings are self-delimiting, and their length is close to that of
the strings in them. `Packer.msgpack` is the format itself.
-/
import Memnode.Config
import Memnode.Lib.Msgpack

namespace Memnode

open Lib

abbrev Value := Msgpack.Value

namespace Value

/-- A dictionary with text keys. -/
def record (fields : List (String × Value)) : Value :=
  .map (fields.map (fun p => (.str p.1, p.2)))

/-- `d.get(key)` on the entries of a dictionary. A later entry replaces an
earlier one with the same key. -/
def get (entries : List (Msgpack.Key × Value)) (key : String) : Option Value :=
  (entries.reverse.find? (fun p => p.1 = .str key)).map Prod.snd

/-- `isinstance(v, (bytes, bytearray))`. -/
def bytes? : Value → Option Bytes
  | .bin b => some b
  | _ => none

/-- `v == 1`, which is true of `True` and `1.0` as well. -/
def isOne : Value → Bool
  | .int i => i = 1
  | .bool b => b
  | .float bits => bits = 0x3ff0000000000000
  | _ => false

/-- `bool(v)`. A float is false when all bits but the sign are zero. -/
def truthy : Value → Bool
  | .nil => false
  | .bool b => b
  | .int i => i ≠ 0
  | .float bits => bits.toNat % 2 ^ 63 ≠ 0
  | .str s => s ≠ ""
  | .bin b => b ≠ []
  | .ext _ _ => true
  | .array items => !items.isEmpty
  | .map fields => !fields.isEmpty

/-- `isinstance(v, int)`, which holds of `True` and `False`, and the number. -/
def asInt : Value → Option Int
  | .int i => some i
  | .bool b => some (if b then 1 else 0)
  | _ => none

/-- `type(v).__name__`. -/
def typeName : Value → String
  | .nil => "NoneType"
  | .bool _ => "bool"
  | .int _ => "int"
  | .float _ => "float"
  | .str _ => "str"
  | .bin _ => "bytes"
  | .ext _ _ => "ExtType"
  | .array _ => "list"
  | .map _ => "dict"

end Value

/-- `msgpack.packb` and `msgpack.unpackb`, `none` where they raise. -/
structure Packer where
  packb : Value → Option Bytes
  unpackb : Bytes → Option Value
  /-- what is packed is unpacked -/
  roundTrip : ∀ {v : Value} {b : Bytes}, packb v = some b → unpackb b = some v
  /-- no accepted string is a proper beginning of another -/
  selfDelimiting : ∀ {x y s t : Bytes} {v w : Value}, unpackb x = some v → unpackb y = some w →
    x ++ s = y ++ t → x = y
  /-- a string is at least as long as what it says -/
  size_le : ∀ {b : Bytes} {v : Value}, unpackb b = some v → Msgpack.size v ≤ b.length
  /-- what fits the format can be packed, in not much more than its strings -/
  packs : ∀ {v : Value}, Msgpack.depth v ≤ Msgpack.maxPackDepth → Msgpack.fits v = true →
    ∃ b, packb v = some b ∧ b.length ≤ Msgpack.room v

/-- The format itself. -/
def Packer.msgpack : Packer where
  packb := Msgpack.packb
  unpackb := Msgpack.unpackb
  roundTrip := Msgpack.unpackb_packb
  selfDelimiting := Msgpack.unpackb_selfDelimiting
  size_le := Msgpack.size_le_of_unpackb
  packs := Msgpack.packb_length

end Memnode
