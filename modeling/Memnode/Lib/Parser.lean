/-
Lib.Parser — parsers that take a value off the front of a byte string.

Three notions carry the use of a binary format. A parser is `Stable`
when input after the value changes nothing; a format with a stable
parser is self-delimiting (`Stable.eq_of_append`), so that concatenated
messages split in one way only. A parser `Reads` an encoding when it
gives back the encoded value and leaves the rest. A parser `Uses` a size
when every value takes at least its size off the input. All are closed
under the combinators, so that a format's lemmas follow its grammar.
-/
import Memnode.Lib.BigEndian

namespace Lib

/-- A parser returns a value and the unread rest. -/
def Parser (α : Type) := List UInt8 → Option (α × List UInt8)

namespace Parser

variable {α β : Type}

def pure (a : α) : Parser α := fun x => some (a, x)

def fail : Parser α := fun _ => none

def bind (p : Parser α) (f : α → Parser β) : Parser β := fun x =>
  match p x with
  | none => none
  | some (a, rest) => f a rest

/-- One byte. -/
def byte : Parser UInt8
  | [] => none
  | b :: rest => some (b, rest)

/-- A byte string of known length. -/
def takeN (n : Nat) : Parser (List UInt8) := fun x =>
  if n ≤ x.length then some (x.take n, x.drop n) else none

/-- A big-endian number of `w` bytes. -/
def uint (w : Nat) : Parser Nat := (takeN w).bind (fun b => pure (BigEndian.unpack b))

/-- `n` values in a row. -/
def many (p : Parser α) : Nat → Parser (List α)
  | 0 => pure []
  | n + 1 => p.bind (fun a => (many p n).bind (fun as => pure (a :: as)))

/-! ## Input after the value changes nothing -/

def Stable (p : Parser α) : Prop :=
  ∀ x s a rest, p x = some (a, rest) → p (x ++ s) = some (a, rest ++ s)

theorem stable_pure (a : α) : Stable (pure a) := by
  intro x s b rest h
  cases h
  rfl

theorem stable_fail : Stable (fail : Parser α) := by
  intro x s a rest h
  cases h

theorem Stable.bind {p : Parser α} {f : α → Parser β} (hp : Stable p) (hf : ∀ a, Stable (f a)) :
    Stable (p.bind f) := by
  intro x s b rest h
  unfold Parser.bind at h ⊢
  split at h
  · cases h
  · rename_i a mid hx
    rw [hp x s a mid hx]
    exact hf a mid s b rest h

theorem stable_byte : Stable byte := by
  intro x s b rest h
  cases x with
  | nil => cases h
  | cons c x =>
    cases h
    rfl

theorem stable_takeN (n : Nat) : Stable (takeN n) := by
  intro x s b rest h
  unfold takeN at h ⊢
  split at h
  · rename_i hle
    cases h
    rw [if_pos (by simp; omega), List.take_append_of_le_length hle, List.drop_append_of_le_length hle]
  · cases h

theorem stable_uint (w : Nat) : Stable (uint w) :=
  (stable_takeN w).bind (fun _ => stable_pure _)

theorem Stable.many {p : Parser α} (hp : Stable p) (n : Nat) : Stable (p.many n) := by
  induction n with
  | zero => exact stable_pure []
  | succ n ih => exact hp.bind (fun a => ih.bind (fun as => stable_pure _))

/-- What a stable parser accepts as a whole is self-delimiting: no
accepted string is a proper beginning of another. -/
theorem Stable.eq_of_append {p : Parser α} (hp : Stable p) {x y s t : List UInt8} {a b : α}
    (hx : p x = some (a, [])) (hy : p y = some (b, [])) (h : x ++ s = y ++ t) : x = y := by
  -- one of the two is a beginning of the other
  rcases List.append_eq_append_iff.mp h with ⟨u, rfl, _⟩ | ⟨u, rfl, _⟩
  · have hlong := hp x u a [] hx
    rw [hy] at hlong
    obtain rfl : u = [] := by simpa using (Prod.mk.inj (Option.some.inj hlong)).2.symm
    simp
  · have hlong := hp y u b [] hy
    rw [hx] at hlong
    obtain rfl : u = [] := by simpa using (Prod.mk.inj (Option.some.inj hlong)).2.symm
    simp

/-! ## Reading back an encoding -/

def Reads (p : Parser α) (enc : List UInt8) (a : α) : Prop :=
  ∀ s, p (enc ++ s) = some (a, s)

theorem reads_pure (a : α) : Reads (pure a) [] a := fun _ => rfl

theorem Reads.bind {p : Parser α} {f : α → Parser β} {x y : List UInt8} {a : α} {b : β}
    (hp : Reads p x a) (hf : Reads (f a) y b) : Reads (p.bind f) (x ++ y) b := by
  intro s
  unfold Parser.bind
  rw [List.append_assoc, hp (y ++ s)]
  exact hf s

/-- A `bind` whose second part reads nothing more. -/
theorem Reads.map {p : Parser α} {x : List UInt8} {a : α} (hp : Reads p x a) (f : α → β) :
    Reads (p.bind (fun a => pure (f a))) x (f a) := by
  have h := hp.bind (f := fun a => pure (f a)) (reads_pure (f a))
  rwa [List.append_nil] at h

theorem reads_byte (b : UInt8) : Reads byte [b] b := fun _ => rfl

theorem reads_takeN {n : Nat} {b : List UInt8} (h : b.length = n) : Reads (takeN n) b b := by
  intro s
  unfold takeN
  rw [if_pos (by simp; omega), List.take_left' h, List.drop_left' h]

theorem reads_uint {w n : Nat} (h : n < 256 ^ w) : Reads (uint w) (BigEndian.pack w n) n := by
  have hread := (reads_takeN (BigEndian.length_pack w n)).map BigEndian.unpack
  rwa [BigEndian.unpack_pack_of_lt h] at hread

/-! ## How much input a value takes -/

def Uses (p : Parser α) (size : α → Nat) : Prop :=
  ∀ x a rest, p x = some (a, rest) → size a + rest.length ≤ x.length

theorem uses_pure {size : α → Nat} {a : α} (h : size a = 0) : Uses (pure a) size := by
  intro x b rest hx
  cases hx
  omega

theorem uses_fail (size : α → Nat) : Uses fail size := by
  intro x a rest h
  cases h

/-- The second parser has to take what the first one left open. -/
theorem Uses.bind {p : Parser α} {f : α → Parser β} {size : α → Nat} {size' : β → Nat}
    (hp : Uses p size) (hf : ∀ a, Uses (f a) (fun b => size' b - size a)) :
    Uses (p.bind f) size' := by
  intro x b rest h
  unfold Parser.bind at h
  split at h
  · cases h
  · rename_i a mid hx
    have hfirst := hp x a mid hx
    have hsecond : size' b - size a + rest.length ≤ mid.length := hf a mid b rest h
    omega

/-- A `bind` whose second part reads nothing more. -/
theorem Uses.map {p : Parser α} {size : α → Nat} {size' : β → Nat} (hp : Uses p size) {f : α → β}
    (hf : ∀ a, size' (f a) ≤ size a) : Uses (p.bind (fun a => pure (f a))) size' :=
  hp.bind (fun a => uses_pure (Nat.sub_eq_zero_of_le (hf a)))

theorem uses_byte : Uses byte (fun _ => 1) := by
  intro x b rest h
  cases x with
  | nil => cases h
  | cons c x =>
    cases h
    rw [List.length_cons, Nat.add_comm]

theorem uses_takeN (n : Nat) : Uses (takeN n) List.length := by
  intro x b rest h
  unfold takeN at h
  split at h
  · cases h
    rw [List.length_take, List.length_drop]
    omega
  · cases h

theorem uses_uint (w : Nat) : Uses (uint w) (fun _ => w) := by
  have htake : Uses (takeN w) (fun _ => w) := by
    intro x b rest h
    unfold takeN at h
    split at h
    · rename_i hle
      cases h
      rw [List.length_drop]
      exact Nat.le_of_eq (Nat.add_sub_cancel' hle)
    · cases h
  exact htake.map (fun _ => Nat.le_refl w)

theorem Uses.many {p : Parser α} {size : α → Nat} (hp : Uses p size) (n : Nat) :
    Uses (p.many n) (fun as => (as.map size).sum) := by
  induction n with
  | zero => exact uses_pure rfl
  | succ n ih =>
    refine hp.bind (fun a => ih.map (fun as => ?_))
    rw [List.map_cons, List.sum_cons]
    omega

theorem Uses.mono {p : Parser α} {size size' : α → Nat} (hp : Uses p size)
    (h : ∀ a, size' a ≤ size a) : Uses p size' := by
  intro x a rest hx
  have hle := hp x a rest hx
  have := h a
  omega

end Parser

end Lib
