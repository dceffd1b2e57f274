/-
Memnode.Lib.Hex — hexadecimal digits, and bytes written with them.

`toHex` writes two digits for each byte. `fromHex` reads digits in either
case and skips ASCII white space before a pair, as `bytes.fromhex` does;
it reads back what was written (`fromHex_toHex`), and what it reads has
at least two characters for each byte.
-/
import Mathlib.Data.List.Basic

namespace Lib

def hexDigit (c : Char) : Option Nat :=
  let n := c.toNat
  if 48 ≤ n ∧ n ≤ 57 then some (n - 48)
  else if 97 ≤ n ∧ n ≤ 102 then some (n - 87)
  else if 65 ≤ n ∧ n ≤ 70 then some (n - 55)
  else none

theorem hexDigit_digitChar {k : Nat} (hk : k < 16) : hexDigit (Nat.digitChar k) = some k := by
  have hall : ∀ k : Fin 16, hexDigit (Nat.digitChar k.val) = some k.val := by decide
  exact hall ⟨k, hk⟩

theorem hexDigit_lt {c : Char} {n : Nat} (h : hexDigit c = some n) : n < 16 := by
  simp only [hexDigit] at h
  split at h
  · cases h
    omega
  · split at h
    · cases h
      omega
    · split at h
      · cases h
        omega
      · cases h

/-- ASCII white space. -/
def isSpace (c : Char) : Bool := c ∈ [' ', '\t', '\n', '\x0b', '\x0c', '\r']

/-- `bytes.fromhex`: pairs of digits, with white space between pairs. -/
def fromHex : List Char → Option (List UInt8)
  | [] => some []
  | [c] => if isSpace c then some [] else none
  | c :: d :: rest =>
      if isSpace c then fromHex (d :: rest)
      else
        match hexDigit c, hexDigit d, fromHex rest with
        | some hi, some lo, some tail => some (UInt8.ofNat (16 * hi + lo) :: tail)
        | _, _, _ => none

/-- `data.hex()`. -/
def toHex (data : List UInt8) : String :=
  String.ofList (data.flatMap (fun b =>
    [Nat.digitChar (b.toNat / 16), Nat.digitChar (b.toNat % 16)]))

theorem toHex_toList (data : List UInt8) :
    (toHex data).toList
      = data.flatMap (fun b => [Nat.digitChar (b.toNat / 16), Nat.digitChar (b.toNat % 16)]) := by
  rw [toHex, String.toList_ofList]

theorem length_toHex (data : List UInt8) : (toHex data).toList.length = 2 * data.length := by
  rw [toHex_toList]
  induction data with
  | nil => rfl
  | cons b data ih =>
    rw [List.flatMap_cons, List.length_append, ih, List.length_cons, List.length_cons,
      List.length_cons, List.length_nil]
    omega

/-- Only the sixteen digits are written. -/
theorem mem_toHex {data : List UInt8} {c : Char} (hc : c ∈ (toHex data).toList) :
    ∃ k < 16, c = Nat.digitChar k := by
  rw [toHex_toList] at hc
  obtain ⟨b, -, hb⟩ := List.mem_flatMap.mp hc
  have hlt := b.toNat_lt
  simp only [List.mem_cons, List.not_mem_nil, or_false] at hb
  rcases hb with rfl | rfl
  · exact ⟨b.toNat / 16, by omega, rfl⟩
  · exact ⟨b.toNat % 16, by omega, rfl⟩

theorem isSpace_digitChar {k : Nat} (hk : k < 16) : isSpace (Nat.digitChar k) = false := by
  have hall : ∀ k : Fin 16, isSpace (Nat.digitChar k.val) = false := by decide
  exact hall ⟨k, hk⟩

/-- `bytes.fromhex(data.hex())` is the data. -/
theorem fromHex_toHex (data : List UInt8) : fromHex (toHex data).toList = some data := by
  rw [toHex_toList]
  induction data with
  | nil => rfl
  | cons b data ih =>
    have hlt := b.toNat_lt
    have hhigh : b.toNat / 16 < 16 := by omega
    have hlow : b.toNat % 16 < 16 := by omega
    have hspace : ¬isSpace (Nat.digitChar (b.toNat / 16)) = true := by
      simp [isSpace_digitChar hhigh]
    rw [List.flatMap_cons, List.cons_append, List.cons_append, List.nil_append, fromHex,
      if_neg hspace, hexDigit_digitChar hhigh, hexDigit_digitChar hlow, ih]
    have hbyte : 16 * (b.toNat / 16) + b.toNat % 16 = b.toNat := by omega
    simp only [hbyte, UInt8.ofNat_toNat]

/-- Two characters for each byte, at least. -/
theorem length_of_fromHex (cs : List Char) :
    ∀ {data : List UInt8}, fromHex cs = some data → 2 * data.length ≤ cs.length := by
  induction cs using fromHex.induct with
  | case1 =>
    intro data h
    cases h
    exact Nat.le_refl 0
  | case2 c hspace =>
    intro data h
    rw [fromHex, if_pos hspace] at h
    cases h
    exact Nat.zero_le _
  | case3 c hspace =>
    intro data h
    rw [fromHex, if_neg hspace] at h
    cases h
  | case4 c d rest hspace ih =>
    intro data h
    rw [fromHex, if_pos hspace] at h
    have := ih h
    simp only [List.length_cons] at this ⊢
    omega
  | case5 c d rest hspace hi lo tail htail hd hc ih =>
    intro data h
    rw [fromHex, if_neg hspace, hc, hd, htail] at h
    cases h
    have := ih htail
    simp only [List.length_cons]
    omega
  | case6 c d rest hspace hnot ih =>
    intro data h
    rw [fromHex, if_neg hspace] at h
    split at h
    · rename_i hi lo tail hc hd htail
      exact absurd htail (hnot hi lo tail hc hd)
    · cases h

end Lib
