/-
Lib.BigEndian — fixed-width unsigned integers as bytes, most significant
byte first.

`pack w x` writes `x` modulo `256 ^ w` in `w` bytes and `unpack` reads a
byte string of any width. Reading gives back every number that fits the
width, so packing is injective there, which is all that a length field
or a sequence number needs.
-/
import Mathlib.Tactic.Ring

namespace Lib.BigEndian

/-- `x` in `w` bytes. -/
def pack : Nat → Nat → List UInt8
  | 0, _ => []
  | w + 1, x => UInt8.ofNat (x / 256 ^ w) :: pack w x

/-- The number a byte string stands for. -/
def unpack : List UInt8 → Nat
  | [] => 0
  | b :: bs => b.toNat * 256 ^ bs.length + unpack bs

@[simp] theorem length_pack (w x : Nat) : (pack w x).length = w := by
  induction w with
  | zero => rfl
  | succ w ih => simp [pack, ih]

theorem unpack_lt (bs : List UInt8) : unpack bs < 256 ^ bs.length := by
  induction bs with
  | nil => decide
  | cons b bs ih =>
    have hb : b.toNat < 256 := b.toNat_lt
    calc b.toNat * 256 ^ bs.length + unpack bs
        < b.toNat * 256 ^ bs.length + 256 ^ bs.length := by omega
      _ = (b.toNat + 1) * 256 ^ bs.length := by ring
      _ ≤ 256 * 256 ^ bs.length := Nat.mul_le_mul_right _ hb
      _ = 256 ^ (b :: bs).length := by rw [List.length_cons]; ring

theorem unpack_pack (w x : Nat) : unpack (pack w x) = x % 256 ^ w := by
  induction w with
  | zero => simp [pack, unpack, Nat.mod_one]
  | succ w ih =>
    have hb : (UInt8.ofNat (x / 256 ^ w)).toNat = x / 256 ^ w % 256 := by simp
    simp only [pack, unpack, length_pack, ih, hb]
    rw [Nat.pow_succ, Nat.mod_mul, Nat.mul_comm, Nat.add_comm]

theorem unpack_pack_of_lt {w x : Nat} (h : x < 256 ^ w) : unpack (pack w x) = x := by
  rw [unpack_pack, Nat.mod_eq_of_lt h]

theorem pack_inj {w x y : Nat} (hx : x < 256 ^ w) (hy : y < 256 ^ w) (h : pack w x = pack w y) :
    x = y := by
  rw [← unpack_pack_of_lt hx, h, unpack_pack_of_lt hy]

end Lib.BigEndian
