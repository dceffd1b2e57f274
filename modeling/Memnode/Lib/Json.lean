/-
Memnode.Lib.Json — `json.loads` and `json.dumps`.

`loads` scans a text the way the scanner of the standard library does:
one value, with a bound on the nesting, and nothing but whitespace
around it. Numbers that are too long and texts that are nested too
deeply raise exceptions of their own. `dumps` writes ASCII, in a
`Style` that says where whitespace goes; it fails on objects that JSON
does not have.

How floats are worded is a parameter, `FloatFormat`: `float.__repr__`
and `float` are inverse to each other on finite numbers.

The round trip has a module of its own, `Lib.JsonRoundTrip`. Here
`size_le_of_loads` bounds the text from below by the object, so that a
short text cannot hold a long string.
-/
import Memnode.Lib.Hex
import Memnode.Lib.Py

namespace Lib.Json

/-- What `json.loads` raises: a `JSONDecodeError`, another `ValueError` for
too long a number, or a `RecursionError`. -/
inductive Error where
  | malformed
  | tooLong
  | tooDeep
  deriving DecidableEq

/-- A scanner returns a value and the unread rest. -/
abbrev Scanner (α : Type) := List Char → Except Error (α × List Char)

/-! ## Tokens -/

def isWs (c : Char) : Bool := c = ' ' ∨ c = '\t' ∨ c = '\n' ∨ c = '\r'

def skipWs (x : List Char) : List Char := x.dropWhile isWs

/-- What `step` finds, one after the other, until it finds the end. -/
def collect {α : Type} (step : Scanner (Option α)) : Nat → Scanner (List α)
  | 0, _ => .error .malformed
  | n + 1, x =>
      match step x with
      | .error e => .error e
      | .ok (none, rest) => .ok ([], rest)
      | .ok (some a, rest) =>
          match collect step n rest with
          | .error e => .error e
          | .ok (as, rest') => .ok (a :: as, rest')

/-- The four digits of a `\u` escape. -/
def hex4 : List Char → Option (Nat × List Char)
  | a :: b :: c :: d :: rest =>
      match hexDigit a, hexDigit b, hexDigit c, hexDigit d with
      | some a, some b, some c, some d => some (4096 * a + 256 * b + 16 * c + d, rest)
      | _, _, _, _ => none
  | _ => none

/-- The escapes of one character, and what they stand for. -/
def escapes : List (Char × Nat) :=
  [('"', 0x22), ('\\', 0x5c), ('/', 0x2f), ('b', 0x08), ('f', 0x0c), ('n', 0x0a), ('r', 0x0d),
    ('t', 0x09)]

def scanEscape : Scanner (Option Nat)
  | [] => .error .malformed
  | c :: rest =>
      if c = 'u' then
        match hex4 rest with
        | some (u, rest') => .ok (some u, rest')
        | none => .error .malformed
      else
        match escapes.lookup c with
        | some u => .ok (some u, rest)
        | none => .error .malformed

/-- One unit of a string, or its closing quote. -/
def scanUnit : Scanner (Option Nat)
  | [] => .error .malformed
  | c :: rest =>
      if c = '"' then .ok (none, rest)
      else if c = '\\' then scanEscape rest
      else if c.toNat < 0x20 then .error .malformed
      else .ok (some c.toNat, rest)

def isHigh (u : Nat) : Bool := 0xd800 ≤ u ∧ u < 0xdc00

def isLow (u : Nat) : Bool := 0xdc00 ≤ u ∧ u < 0xe000

/-- A pair of surrogates is one code point. -/
def join : List Nat → Text
  | hi :: lo :: rest =>
      if isHigh hi ∧ isLow lo then (0x10000 + (hi - 0xd800) * 0x400 + (lo - 0xdc00)) :: join rest
      else hi :: join (lo :: rest)
  | units => units

/-- A string, after its opening quote. -/
def scanString : Scanner Text := fun x =>
  match collect scanUnit (x.length + 1) x with
  | .error e => .error e
  | .ok (units, rest) => .ok (join units, rest)

/-! ## Numbers -/

/-- A number as it is written. -/
structure Decimal where
  negative : Bool
  whole : List Char
  /-- the digits after the point, if there is one -/
  frac : List Char
  /-- what follows the `e`, if there is one -/
  exponent : Option (List Char)

def scanWhole : List Char → Option (List Char × List Char)
  | [] => none
  | c :: rest =>
      if c = '0' then some (['0'], rest)
      else if c.isDigit then some ((c :: rest).span Char.isDigit)
      else none

def scanFrac (x : List Char) : List Char × List Char :=
  match x with
  | [] => ([], [])
  | c :: rest =>
      if c = '.' ∧ (rest.head?.any Char.isDigit) then rest.span Char.isDigit else ([], x)

/-- The digits of an exponent after its sign. -/
def scanSigned (x : List Char) : Option (List Char × List Char) :=
  match x with
  | [] => none
  | c :: rest =>
      if c = '+' ∨ c = '-' then
        if rest.head?.any Char.isDigit then
          some (c :: (rest.span Char.isDigit).1, (rest.span Char.isDigit).2)
        else none
      else if c.isDigit then some (x.span Char.isDigit)
      else none

def scanExponent (x : List Char) : Option (List Char) × List Char :=
  match x with
  | [] => (none, [])
  | c :: rest =>
      if c = 'e' ∨ c = 'E' then
        match scanSigned rest with
        | some (e, rest') => (some e, rest')
        | none => (none, x)
      else (none, x)

def scanSign : List Char → Bool × List Char
  | [] => (false, [])
  | c :: rest => if c = '-' then (true, rest) else (false, c :: rest)

def scanDecimal (x : List Char) : Option (Decimal × List Char) :=
  let (negative, x) := scanSign x
  match scanWhole x with
  | none => none
  | some (whole, x) =>
      let (frac, x) := scanFrac x
      let (exponent, x) := scanExponent x
      some (⟨negative, whole, frac, exponent⟩, x)

/-- `sys.int_info.default_max_str_digits`. -/
def maxDigits : Nat := 4300

def Decimal.toInt (d : Decimal) : Int :=
  let n : Int := Nat.ofDigitChars 10 d.whole 0
  if d.negative then -n else n

def Decimal.text (d : Decimal) : List Char :=
  (if d.negative then ['-'] else []) ++ d.whole ++ (if d.frac = [] then [] else '.' :: d.frac)
    ++ (match d.exponent with
      | none => []
      | some e => 'e' :: e)

/-- The digits of an exponent, after an optional sign. -/
def SignedDigits (e : List Char) : Prop :=
  ∃ sign digits, e = sign ++ digits ∧ (sign = [] ∨ sign = ['+'] ∨ sign = ['-']) ∧ digits ≠ [] ∧
    ∀ c ∈ digits, c.isDigit = true

/-- A whole part: digits, without a leading zero. -/
def WholeDigits (w : List Char) : Prop :=
  w = ['0'] ∨ (w ≠ [] ∧ (∀ c ∈ w, c.isDigit = true) ∧ w.head? ≠ some '0')

structure Decimal.WellFormed (d : Decimal) : Prop where
  whole : WholeDigits d.whole
  frac : ∀ c ∈ d.frac, c.isDigit = true
  exponent : ∀ e, d.exponent = some e → SignedDigits e

/-- What is read as a float. -/
structure Decimal.IsFloat (d : Decimal) : Prop extends d.WellFormed where
  float : d.frac ≠ [] ∨ d.exponent ≠ none

/-- `float.__repr__` and `float`. -/
structure FloatFormat where
  repr : UInt64 → Decimal
  read : Decimal → UInt64
  repr_isFloat : ∀ x, Py.isFinite x = true → (repr x).IsFloat
  read_repr : ∀ x, Py.isFinite x = true → read (repr x) = x
  read_notNaN : ∀ d, Py.isNaN (read d) = false

/-! ## Values -/

section Loads

variable (F : FloatFormat)

def number : Scanner Py := fun x =>
  match scanDecimal x with
  | none => .error .malformed
  | some (d, rest) =>
      if d.frac = [] ∧ d.exponent = none then
        if maxDigits < d.whole.length then .error .tooLong else .ok (.int d.toInt, rest)
      else .ok (.float (F.read d), rest)

def nan : UInt64 := 0x7ff8000000000000

def infinity : UInt64 := 0x7ff0000000000000

def negInfinity : UInt64 := 0xfff0000000000000

/-- The words, and what they stand for. -/
def words : List (List Char × Py) :=
  [(['n', 'u', 'l', 'l'], .none), (['t', 'r', 'u', 'e'], .bool true),
    (['f', 'a', 'l', 's', 'e'], .bool false), (['N', 'a', 'N'], .float nan),
    (['I', 'n', 'f', 'i', 'n', 'i', 't', 'y'], .float infinity),
    (['-', 'I', 'n', 'f', 'i', 'n', 'i', 't', 'y'], .float negInfinity)]

/-- What follows the word, if the text begins with it. -/
def after (word x : List Char) : Option (List Char) :=
  if word.isPrefixOf x then some (x.drop word.length) else none

def scanWord (x : List Char) : Option (Py × List Char) :=
  words.findSome? (fun w => (after w.1 x).map (fun rest => (w.2, rest)))

/-- After a part of a list or an object: its end, or another part. -/
def scanNext {α : Type} (close : Char) (part : Scanner α) : Scanner (Option α) := fun x =>
  match skipWs x with
  | [] => .error .malformed
  | c :: rest =>
      if c = close then .ok (none, rest)
      else if c = ',' then (part (skipWs rest)).map (fun r => (some r.1, r.2))
      else .error .malformed

/-- The parts of a list or an object, after its opening bracket. -/
def scanParts {α : Type} (close : Char) (part : Scanner α) : Scanner (List α) := fun x =>
  match skipWs x with
  | [] => .error .malformed
  | c :: rest =>
      if c = close then .ok ([], rest)
      else
        match part (c :: rest) with
        | .error e => .error e
        | .ok (a, rest) =>
            (collect (scanNext close part) (rest.length + 1) rest).map
              (fun r => (a :: r.1, r.2))

/-- A field: a string, a colon and a value. -/
def scanField (value : Scanner Py) : Scanner (Py.Key × Py) := fun x =>
  match x with
  | [] => .error .malformed
  | c :: rest =>
      if c = '"' then
        match scanString rest with
        | .error e => .error e
        | .ok (k, rest) =>
            match skipWs rest with
            | [] => .error .malformed
            | c :: rest =>
                if c = ':' then (value (skipWs rest)).map (fun r => ((.str k, r.1), r.2))
                else .error .malformed
      else .error .malformed

def scanList (value : Scanner Py) : Scanner Py := fun x =>
  (scanParts ']' value x).map (fun r => (.list r.1, r.2))

def scanObject (value : Scanner Py) : Scanner Py := fun x =>
  (scanParts '\x7d' (scanField value) x).map (fun r => (.dict (Py.merge r.1), r.2))

/-- One value. Lists and objects need the scanner for what they hold. -/
def scanValue (nested : Option (Scanner Py)) : Scanner Py := fun x =>
  match x with
  | [] => .error .malformed
  | c :: rest =>
      if c = '"' then (scanString rest).map (fun r => (.str r.1, r.2))
      else if c = '[' then
        match nested with
        | none => .error .tooDeep
        | some value => scanList value rest
      else if c = '{' then
        match nested with
        | none => .error .tooDeep
        | some value => scanObject value rest
      else
        match scanWord x with
        | some r => .ok r
        | none => number F x

/-- A value with at most this many levels of lists and objects. -/
def decode : Nat → Scanner Py
  | 0 => scanValue F none
  | depth + 1 => scanValue F (some (decode depth))

/-- `json.loads(x)`, with room for `depth` levels on the stack. -/
def loads (depth : Nat) (x : List Char) : Except Error Py :=
  match decode F depth (skipWs x) with
  | .error e => .error e
  | .ok (v, rest) => if skipWs rest = [] then .ok v else .error .malformed

end Loads

/-! ## Writing -/

/-- What `json.dumps` raises: a `TypeError` for an object it does not
know, a `ValueError` for too long a number, or a `RecursionError`. -/
inductive DumpError where
  | unserialisable
  | tooLong
  | tooDeep
  deriving DecidableEq

/-- Where whitespace goes, by the level of the list or object. -/
structure Style where
  opening : Nat → List Char
  comma : Nat → List Char
  closing : Nat → List Char
  colon : List Char
  opening_ws : ∀ n, ∀ c ∈ opening n, isWs c = true
  comma_ws : ∀ n, ∀ c ∈ comma n, isWs c = true
  closing_ws : ∀ n, ∀ c ∈ closing n, isWs c = true
  colon_ws : ∀ c ∈ colon, isWs c = true

/-- The default: `", "` and `": "`. -/
def Style.default : Style where
  opening := fun _ => []
  comma := fun _ => [' ']
  closing := fun _ => []
  colon := [' ']
  opening_ws := by simp
  comma_ws := by simp [isWs]
  closing_ws := by simp
  colon_ws := by simp [isWs]

/-- A new line and two blanks for each level. -/
def newline (n : Nat) : List Char := '\n' :: List.replicate (2 * n) ' '

theorem newline_ws (n : Nat) : ∀ c ∈ newline n, isWs c = true := by
  intro c hc
  rcases List.mem_cons.mp hc with rfl | hc
  · rfl
  · rw [List.eq_of_mem_replicate hc]
    rfl

/-- `indent=2`. -/
def Style.indented : Style where
  opening := fun n => newline (n + 1)
  comma := fun n => newline (n + 1)
  closing := newline
  colon := [' ']
  opening_ws := fun n => newline_ws (n + 1)
  comma_ws := fun n => newline_ws (n + 1)
  closing_ws := newline_ws
  colon_ws := by simp [isWs]

def hexText (u : Nat) : List Char :=
  [Nat.digitChar (u / 4096 % 16), Nat.digitChar (u / 256 % 16), Nat.digitChar (u / 16 % 16),
    Nat.digitChar (u % 16)]

/-- The surrogates of a code point beyond the first plane. -/
def split (u : Nat) : List Nat :=
  if u < 0x10000 then [u] else [0xd800 + (u - 0x10000) / 0x400, 0xdc00 + (u - 0x10000) % 0x400]

/-- One unit in a string literal. -/
def unitText (u : Nat) : List Char :=
  if u = 0x22 then ['\\', '"']
  else if u = 0x5c then ['\\', '\\']
  else if u = 0x0a then ['\\', 'n']
  else if u = 0x0d then ['\\', 'r']
  else if u = 0x09 then ['\\', 't']
  else if u = 0x0c then ['\\', 'f']
  else if u = 0x08 then ['\\', 'b']
  else if 0x20 ≤ u ∧ u < 0x7f then [Char.ofNat u]
  else '\\' :: 'u' :: hexText u

/-- A string literal. -/
def quote (s : Text) : List Char := '"' :: ((s.flatMap split).flatMap unitText ++ ['"'])

def intText (i : Int) : List Char :=
  (if i < 0 then ['-'] else []) ++ Nat.toDigits 10 i.natAbs

section Dumps

variable (F : FloatFormat)

def floatText (bits : UInt64) : List Char :=
  if Py.isFinite bits then (F.repr bits).text
  else if Py.isNaN bits then ['N', 'a', 'N']
  else if bits.toNat < 2 ^ 63 then ['I', 'n', 'f', 'i', 'n', 'i', 't', 'y']
  else ['-', 'I', 'n', 'f', 'i', 'n', 'i', 't', 'y']

variable (st : Style) (depth : Nat)

/-- The parts of a list or an object, with its closing bracket. -/
def partsText (level : Nat) (close : Char) : List (List Char) → List Char
  | [] => [close]
  | t :: ts =>
      st.opening level ++ (t ++ (ts.flatMap (fun t => ',' :: (st.comma level ++ t))
        ++ (st.closing level ++ [close])))

def fieldText (k : Text) (value : List Char) : List Char := quote k ++ (':' :: (st.colon ++ value))

mutual

/-- An object inside `level` lists and objects, of which there may be
`depth`. -/
def encode (level : Nat) : Py → Except DumpError (List Char)
  | .none => .ok ['n', 'u', 'l', 'l']
  | .bool true => .ok ['t', 'r', 'u', 'e']
  | .bool false => .ok ['f', 'a', 'l', 's', 'e']
  | .int i => if maxDigits < (Nat.toDigits 10 i.natAbs).length then .error .tooLong else .ok (intText i)
  | .float bits => .ok (floatText F bits)
  | .str s => .ok (quote s)
  | .bytes _ => .error .unserialisable
  | .ext _ _ => .error .unserialisable
  | .list items =>
      if depth ≤ level then .error .tooDeep
      else (encodeItems (level + 1) items).map (fun ts => '[' :: partsText st level ']' ts)
  | .dict fields =>
      if depth ≤ level then .error .tooDeep
      else
        (encodeFields (level + 1) fields).map (fun ts => '\x7b' :: partsText st level '\x7d' ts)

def encodeItems (level : Nat) : List Py → Except DumpError (List (List Char))
  | [] => .ok []
  | v :: rest =>
      match encode level v with
      | .error e => .error e
      | .ok t => (encodeItems level rest).map (fun ts => t :: ts)

def encodeFields (level : Nat) : List (Py.Key × Py) → Except DumpError (List (List Char))
  | [] => .ok []
  | (.bytes _, _) :: _ => .error .unserialisable
  | (.str k, v) :: rest =>
      match encode level v with
      | .error e => .error e
      | .ok t => (encodeFields level rest).map (fun ts => fieldText st k t :: ts)

end

/-- `json.dumps(v)`, with room for `depth` levels on the stack. -/
def dumps (v : Py) : Except DumpError (List Char) := encode F st depth 0 v

end Dumps

/-! ## How long a text is -/

def keySize : Py.Key → Nat
  | .str k => k.length + 2
  | .bytes b => b.length

mutual

/-- The characters that are needed for an object at least. -/
def size : Py → Nat
  | .str s => s.length + 2
  | .list items => sizeItems items + 1
  | .dict fields => sizeFields fields + 1
  | _ => 1

def sizeItems : List Py → Nat
  | [] => 0
  | v :: rest => size v + 1 + sizeItems rest

def sizeFields : List (Py.Key × Py) → Nat
  | [] => 0
  | (k, v) :: rest => keySize k + size v + 2 + sizeFields rest

end

theorem sizeItems_eq (items : List Py) : sizeItems items = (items.map (fun v => size v + 1)).sum := by
  induction items with
  | nil => rfl
  | cons v rest ih => simp [sizeItems, ih]

theorem sizeFields_eq (fields : List (Py.Key × Py)) :
    sizeFields fields = (fields.map (fun f => keySize f.1 + size f.2 + 2)).sum := by
  induction fields with
  | nil => rfl
  | cons f rest ih => simp [sizeFields, ih]

theorem length_skipWs (x : List Char) : (skipWs x).length ≤ x.length :=
  (List.dropWhile_suffix isWs).length_le

theorem length_join (units : List Nat) : (join units).length ≤ units.length := by
  induction units using join.induct with
  | case1 hi lo rest hpair ih =>
    simp only [join, if_pos hpair, List.length_cons]
    omega
  | case2 hi lo rest hpair ih =>
    simp only [join, if_neg hpair, List.length_cons] at ih ⊢
    omega
  | case3 units hshort => rw [join.eq_2 _ hshort]

/-- What is left after `collect`, if each step uses up what it returns. -/
theorem length_collect {α : Type} {step : Scanner (Option α)} {w : α → Nat}
    (hsome : ∀ {x a rest}, step x = .ok (some a, rest) → w a + rest.length ≤ x.length)
    (hnone : ∀ {x rest}, step x = .ok (none, rest) → rest.length < x.length) {n : Nat} :
    ∀ {x : List Char} {as : List α} {rest : List Char}, collect step n x = .ok (as, rest) →
      (as.map w).sum + rest.length < x.length := by
  induction n with
  | zero =>
    intro x as rest h
    cases h
  | succ n ih =>
    intro x as rest h
    simp only [collect] at h
    split at h
    · cases h
    · rename_i mid hstep
      cases h
      simpa using hnone hstep
    · rename_i a mid hstep
      split at h
      · cases h
      · rename_i as' rest' hrest
        cases h
        have hthis := hsome hstep
        have hlater := ih hrest
        simp only [List.map_cons, List.sum_cons]
        omega

theorem length_hex4 {x rest : List Char} {u : Nat} (h : hex4 x = some (u, rest)) :
    rest.length < x.length := by
  unfold hex4 at h
  split at h
  · split at h
    · cases h
      simp only [List.length_cons]
      omega
    · cases h
  · cases h

theorem length_scanEscape {x rest : List Char} {r : Option Nat} (h : scanEscape x = .ok (r, rest)) :
    rest.length < x.length := by
  unfold scanEscape at h
  split at h
  · cases h
  · split at h
    · split at h
      · rename_i hu
        cases h
        have := length_hex4 hu
        simp only [List.length_cons]
        omega
      · cases h
    · split at h
      · cases h
        simp
      · cases h

theorem length_scanUnit {x rest : List Char} {r : Option Nat} (h : scanUnit x = .ok (r, rest)) :
    rest.length < x.length := by
  unfold scanUnit at h
  split at h
  · cases h
  · split at h
    · cases h
      simp
    · split at h
      · have := length_scanEscape h
        simp only [List.length_cons]
        omega
      · split at h
        · cases h
        · cases h
          simp

theorem length_scanString {x rest : List Char} {s : Text} (h : scanString x = .ok (s, rest)) :
    s.length + 1 + rest.length ≤ x.length := by
  unfold scanString at h
  split at h
  · cases h
  · rename_i units rest' hunits
    cases h
    have hlen := length_collect (w := fun _ => 1)
      (fun hstep => by have := length_scanUnit hstep; omega) (fun hstep => length_scanUnit hstep)
      hunits
    have hjoin := length_join units
    rw [List.map_const', List.sum_replicate_nat] at hlen
    omega

theorem length_span {p : Char → Bool} {x a b : List Char} (h : x.span p = (a, b)) :
    a.length + b.length = x.length := by
  rw [List.span_eq_takeWhile_dropWhile] at h
  cases h
  rw [← List.length_append, List.takeWhile_append_dropWhile]

theorem length_scanWhole {x whole rest : List Char} (h : scanWhole x = some (whole, rest)) :
    rest.length < x.length := by
  unfold scanWhole at h
  split at h
  · cases h
  · rename_i c tail
    split at h
    · cases h
      simp
    · split at h
      · rename_i hc
        have hspan := Option.some.inj h
        have hne : whole ≠ [] := by
          rw [List.span_eq_takeWhile_dropWhile] at hspan
          cases hspan
          simp [hc]
        have hlen := length_span hspan
        have hpos := List.length_pos_iff.mpr hne
        omega
      · cases h

theorem length_scanFrac (x : List Char) : (scanFrac x).2.length ≤ x.length := by
  unfold scanFrac
  split
  · simp
  · rename_i c rest
    split
    · have := length_span (Prod.eta (rest.span Char.isDigit)).symm
      simp only [List.length_cons]
      omega
    · exact le_refl _

theorem length_scanSigned {x e rest : List Char} (h : scanSigned x = some (e, rest)) :
    rest.length ≤ x.length := by
  unfold scanSigned at h
  split at h
  · cases h
  · rename_i c tail
    split at h
    · split at h
      · cases h
        have := length_span (Prod.eta (tail.span Char.isDigit)).symm
        simp only [List.length_cons]
        omega
      · cases h
    · split at h
      · have := length_span (Option.some.inj h)
        omega
      · cases h

theorem length_scanExponent (x : List Char) : (scanExponent x).2.length ≤ x.length := by
  unfold scanExponent
  split
  · simp
  · split
    · split
      · rename_i hs
        have := length_scanSigned hs
        simp only [List.length_cons]
        omega
      · exact le_refl _
    · exact le_refl _

theorem length_scanSign (x : List Char) : (scanSign x).2.length ≤ x.length := by
  unfold scanSign
  split
  · simp
  · split <;> simp

theorem length_scanDecimal {x rest : List Char} {d : Decimal} (h : scanDecimal x = some (d, rest)) :
    rest.length < x.length := by
  simp only [scanDecimal] at h
  have hsign := length_scanSign x
  split at h
  · cases h
  · rename_i whole mid hwhole
    cases h
    have hmid := length_scanWhole hwhole
    have hfrac := length_scanFrac mid
    have hexp := length_scanExponent (scanFrac mid).2
    omega

theorem length_after {word x rest : List Char} (h : after word x = some rest) (hne : word ≠ []) :
    rest.length < x.length := by
  unfold after at h
  split at h
  · rename_i hword
    cases h
    have hle := (List.isPrefixOf_iff_prefix.mp hword).length_le
    have hpos := List.length_pos_iff.mpr hne
    simp only [List.length_drop]
    omega
  · cases h

theorem words_ne_nil {w : List Char × Py} (hw : w ∈ words) : w.1 ≠ [] ∧ size w.2 = 1 := by
  simp only [words, List.mem_cons, List.not_mem_nil, or_false] at hw
  rcases hw with rfl | rfl | rfl | rfl | rfl | rfl <;> exact ⟨by decide, rfl⟩

/-- A scanner that uses up at least the size of what it returns. -/
def Bounded (p : Scanner Py) : Prop :=
  ∀ {x : List Char} {v : Py} {rest : List Char}, p x = .ok (v, rest) → size v + rest.length ≤ x.length

theorem bounded_number (F : FloatFormat) : Bounded (number F) := by
  intro x v rest h
  unfold number at h
  split at h
  · cases h
  · rename_i d rest' hd
    have hlen := length_scanDecimal hd
    split at h
    · split at h
      · cases h
      · cases h
        simp only [size]
        omega
    · cases h
      simp only [size]
      omega

theorem length_scanWord {x rest : List Char} {v : Py} (h : scanWord x = some (v, rest)) :
    size v + rest.length ≤ x.length := by
  obtain ⟨w, hw, hafter⟩ := List.exists_of_findSome?_eq_some h
  obtain ⟨rest', hrest, heq⟩ := Option.map_eq_some_iff.mp hafter
  cases heq
  obtain ⟨hne, hsize⟩ := words_ne_nil hw
  have := length_after hrest hne
  omega

/-- A scanned value that is mapped. -/
theorem map_eq_ok {α β : Type} {r : Except Error α} {f : α → β} {b : β} (h : r.map f = .ok b) :
    ∃ a, r = .ok a ∧ f a = b := by
  cases r with
  | error e => cases h
  | ok a => exact ⟨a, rfl, Except.ok.inj h⟩

section Parts

variable {α : Type} {part : Scanner α} {w : α → Nat} {close : Char}
  (hpart : ∀ {x a rest}, part x = .ok (a, rest) → w a + rest.length ≤ x.length)

include hpart

theorem length_scanNext {x rest : List Char} {r : Option α}
    (h : scanNext close part x = .ok (r, rest)) : r.elim 0 w + 1 + rest.length ≤ x.length := by
  have hws := length_skipWs x
  unfold scanNext at h
  split at h
  · cases h
  · rename_i c tail heq
    rw [heq, List.length_cons] at hws
    split at h
    · cases h
      simp only [Option.elim]
      omega
    · split at h
      · obtain ⟨⟨a, rest'⟩, ha, hr⟩ := map_eq_ok h
        cases hr
        have hbound := hpart ha
        have hskip := length_skipWs tail
        simp only [Option.elim]
        omega
      · cases h

theorem length_scanParts {x rest : List Char} {as : List α}
    (h : scanParts close part x = .ok (as, rest)) :
    (as.map (fun a => w a + 1)).sum + rest.length ≤ x.length := by
  have hws := length_skipWs x
  unfold scanParts at h
  split at h
  · cases h
  · rename_i c tail heq
    rw [heq] at hws
    split at h
    · cases h
      simp only [List.map_nil, List.sum_nil, List.length_cons] at hws ⊢
      omega
    · split at h
      · cases h
      · rename_i first mid hfirst
        obtain ⟨⟨more, rest'⟩, hmore, hr⟩ := map_eq_ok h
        cases hr
        have hbound := hpart hfirst
        have hlen := length_collect (w := fun a => w a + 1) (fun hstep => length_scanNext hpart hstep)
          (fun hstep => by have := length_scanNext hpart hstep; simp only [Option.elim] at this; omega)
          hmore
        simp only [List.map_cons, List.sum_cons]
        omega

end Parts

section Nested

variable {value : Scanner Py} (hvalue : Bounded value)

include hvalue

theorem length_scanField {x rest : List Char} {f : Py.Key × Py}
    (h : scanField value x = .ok (f, rest)) :
    keySize f.1 + size f.2 + 1 + rest.length ≤ x.length := by
  unfold scanField at h
  split at h
  · cases h
  · split at h
    · split at h
      · cases h
      · rename_i k mid hk
        have hstring := length_scanString hk
        have hws := length_skipWs mid
        split at h
        · cases h
        · rename_i c tail heq
          rw [heq, List.length_cons] at hws
          split at h
          · obtain ⟨⟨v, rest'⟩, hv, hr⟩ := map_eq_ok h
            cases hr
            have hbound := hvalue hv
            have hskip := length_skipWs tail
            simp only [keySize, List.length_cons]
            omega
          · cases h
    · cases h

theorem length_scanList {x rest : List Char} {v : Py} (h : scanList value x = .ok (v, rest)) :
    size v + rest.length ≤ x.length + 1 := by
  obtain ⟨⟨items, rest'⟩, hitems, hr⟩ := map_eq_ok h
  cases hr
  have hlen := length_scanParts hvalue hitems
  simp only [size, sizeItems_eq]
  omega

theorem length_scanObject {x rest : List Char} {v : Py} (h : scanObject value x = .ok (v, rest)) :
    size v + rest.length ≤ x.length + 1 := by
  obtain ⟨⟨fields, rest'⟩, hfields, hr⟩ := map_eq_ok h
  cases hr
  have hlen : (fields.map (fun f => keySize f.1 + size f.2 + 2)).sum + rest'.length ≤ x.length :=
    length_scanParts (length_scanField hvalue) hfields
  have hmerge := Py.sum_merge_le (fun f => keySize f.1 + size f.2 + 2) fields
  simp only [size, sizeFields_eq]
  omega

end Nested

theorem bounded_scanValue (F : FloatFormat) {nested : Option (Scanner Py)}
    (h : ∀ value, nested = some value → Bounded value) : Bounded (scanValue F nested) := by
  intro x v rest hv
  unfold scanValue at hv
  split at hv
  · cases hv
  · rename_i c tail
    split at hv
    · obtain ⟨⟨s, rest'⟩, hs, hr⟩ := map_eq_ok hv
      cases hr
      have := length_scanString hs
      simp only [size, List.length_cons]
      omega
    · split at hv
      · split at hv
        · cases hv
        · rename_i value
          have := length_scanList (h value rfl) hv
          simp only [List.length_cons]
          omega
      · split at hv
        · split at hv
          · cases hv
          · rename_i value
            have := length_scanObject (h value rfl) hv
            simp only [List.length_cons]
            omega
        · split at hv
          · rename_i hword
            cases hv
            exact length_scanWord hword
          · exact bounded_number F hv

theorem bounded_decode (F : FloatFormat) (depth : Nat) : Bounded (decode F depth) := by
  induction depth with
  | zero => exact bounded_scanValue F (fun _ h => by cases h)
  | succ depth ih =>
    refine bounded_scanValue F ?_
    intro value h
    cases h
    exact ih

/-- **A text is at least as long as what it says.** -/
theorem size_le_of_loads {F : FloatFormat} {depth : Nat} {x : List Char} {v : Py}
    (h : loads F depth x = .ok v) : size v ≤ x.length := by
  unfold loads at h
  split at h
  · cases h
  · rename_i v' rest hv
    split at h
    · cases h
      have hbound := bounded_decode F depth hv
      have hws := length_skipWs x
      omega
    · cases h

/-! ## What a text cannot say -/

theorem forall_collect {α : Type} {P : α → Prop} {step : Scanner (Option α)}
    (hstep : ∀ {x a rest}, step x = .ok (some a, rest) → P a) {n : Nat} :
    ∀ {x : List Char} {as : List α} {rest : List Char}, collect step n x = .ok (as, rest) →
      ∀ a ∈ as, P a := by
  induction n with
  | zero =>
    intro x as rest h
    cases h
  | succ n ih =>
    intro x as rest h
    simp only [collect] at h
    split at h
    · cases h
    · cases h
      simp
    · rename_i a mid ha
      split at h
      · cases h
      · rename_i as' rest' hrest
        cases h
        exact List.forall_mem_cons.mpr ⟨hstep ha, ih hrest⟩

theorem forall_scanParts {α : Type} {P : α → Prop} {part : Scanner α} {close : Char}
    (hpart : ∀ {x a rest}, part x = .ok (a, rest) → P a) {x rest : List Char} {as : List α}
    (h : scanParts close part x = .ok (as, rest)) : ∀ a ∈ as, P a := by
  have hnext : ∀ {x a rest}, scanNext close part x = .ok (some a, rest) → P a := by
    intro x a rest hx
    unfold scanNext at hx
    split at hx
    · cases hx
    · split at hx
      · cases hx
      · split at hx
        · obtain ⟨⟨a', rest'⟩, ha, hr⟩ := map_eq_ok hx
          cases hr
          exact hpart ha
        · cases hx
  unfold scanParts at h
  split at h
  · cases h
  · split at h
    · cases h
      simp
    · split at h
      · cases h
      · rename_i first mid hfirst
        obtain ⟨⟨more, rest'⟩, hmore, hr⟩ := map_eq_ok h
        cases hr
        exact List.forall_mem_cons.mpr ⟨hpart hfirst, forall_collect hnext hmore⟩

/-- A field is a string that was scanned and a value that was. -/
theorem scanField_parts {value : Scanner Py} {x rest : List Char} {f : Py.Key × Py}
    (h : scanField value x = .ok (f, rest)) :
    (∃ k x' rest', f.1 = .str k ∧ scanString x' = .ok (k, rest')) ∧
      ∃ x' rest', value x' = .ok (f.2, rest') := by
  unfold scanField at h
  split at h
  · cases h
  · split at h
    · split at h
      · cases h
      · rename_i k mid hk
        split at h
        · cases h
        · split at h
          · obtain ⟨⟨v, rest'⟩, hv, hr⟩ := map_eq_ok h
            cases hr
            exact ⟨⟨k, _, mid, rfl, hk⟩, _, _, hv⟩
          · cases h
    · cases h

/-- Neither a byte string nor an object. -/
def Simple (v : Py) : Prop := (∀ b, v ≠ .bytes b) ∧ ∀ fields, v ≠ .dict fields

/-- A number or a word: no string, either. -/
def Scalar (v : Py) : Prop := Simple v ∧ ∀ s, v ≠ .str s

theorem scalar_number {F : FloatFormat} {x rest : List Char} {v : Py}
    (h : number F x = .ok (v, rest)) : Scalar v := by
  unfold number at h
  split at h
  · cases h
  · split at h
    · split at h
      · cases h
      · cases h
        exact ⟨⟨by simp, by simp⟩, by simp⟩
    · cases h
      exact ⟨⟨by simp, by simp⟩, by simp⟩

theorem scalar_scanWord {x rest : List Char} {v : Py} (h : scanWord x = some (v, rest)) :
    Scalar v := by
  obtain ⟨w, hw, hafter⟩ := List.exists_of_findSome?_eq_some h
  obtain ⟨rest', -, heq⟩ := Option.map_eq_some_iff.mp hafter
  cases heq
  simp only [words, List.mem_cons, List.not_mem_nil, or_false] at hw
  rcases hw with rfl | rfl | rfl | rfl | rfl | rfl <;> exact ⟨⟨by simp, by simp⟩, by simp⟩

/-- A value is simple or was scanned as an object. -/
theorem scanValue_cases {F : FloatFormat} {nested : Option (Scanner Py)} {x rest : List Char}
    {v : Py} (h : scanValue F nested x = .ok (v, rest)) :
    Simple v ∨ ∃ value x', nested = some value ∧ scanObject value x' = .ok (v, rest) := by
  unfold scanValue at h
  split at h
  · cases h
  · split at h
    · obtain ⟨r, -, hr⟩ := map_eq_ok h
      cases hr
      exact Or.inl ⟨by simp, by simp⟩
    · split at h
      · split at h
        · cases h
        · obtain ⟨r, -, hr⟩ := map_eq_ok h
          cases hr
          exact Or.inl ⟨by simp, by simp⟩
      · split at h
        · split at h
          · cases h
          · exact Or.inr ⟨_, _, rfl, h⟩
        · split at h
          · rename_i hword
            cases h
            exact Or.inl (scalar_scanWord hword).1
          · exact Or.inl (scalar_number h).1

theorem decode_ne_bytes {F : FloatFormat} {depth : Nat} {x rest : List Char} {v : Py}
    (h : decode F depth x = .ok (v, rest)) (b : List UInt8) : v ≠ .bytes b := by
  have hcases : ∀ nested, scanValue F nested x = .ok (v, rest) → v ≠ .bytes b := by
    intro nested hv
    rcases scanValue_cases hv with hsimple | ⟨value, x', -, hobject⟩
    · exact hsimple.1 b
    · obtain ⟨r, -, hr⟩ := map_eq_ok hobject
      cases hr
      simp
  cases depth with
  | zero => exact hcases _ h
  | succ depth => exact hcases _ h

/-- An object that was read has no key twice. -/
theorem decode_nodup {F : FloatFormat} {depth : Nat} {x rest : List Char}
    {fields : List (Py.Key × Py)} (h : decode F depth x = .ok (.dict fields, rest)) :
    (fields.map Prod.fst).Nodup := by
  have hcases : ∀ nested, scanValue F nested x = .ok (.dict fields, rest) →
      (fields.map Prod.fst).Nodup := by
    intro nested hv
    rcases scanValue_cases hv with hsimple | ⟨value, x', -, hobject⟩
    · exact absurd rfl (hsimple.2 fields)
    · obtain ⟨r, -, hr⟩ := map_eq_ok hobject
      cases hr
      exact Py.merge_nodup r.1
  cases depth with
  | zero => exact hcases _ h
  | succ depth => exact hcases _ h

/-- The fields of an object were scanned as such. -/
theorem loads_fields {F : FloatFormat} {depth : Nat} {x : List Char} {fields : List (Py.Key × Py)}
    (h : loads F depth x = .ok (.dict fields)) :
    ∀ f ∈ fields, ∃ d x' rest', scanField (decode F d) x' = .ok (f, rest') := by
  unfold loads at h
  split at h
  · cases h
  · rename_i v rest hv
    split at h
    · cases h
      cases depth with
      | zero =>
        rcases scanValue_cases hv with hsimple | ⟨value, x', hnested, -⟩
        · exact absurd rfl (hsimple.2 fields)
        · cases hnested
      | succ depth =>
        rcases scanValue_cases hv with hsimple | ⟨value, x', hnested, hobject⟩
        · exact absurd rfl (hsimple.2 fields)
        · cases hnested
          obtain ⟨⟨parts, rest'⟩, hparts, hr⟩ := map_eq_ok hobject
          cases hr
          intro f hf
          refine ⟨depth, ?_⟩
          exact forall_scanParts
            (P := fun f => ∃ x' rest', scanField (decode F depth) x' = .ok (f, rest'))
            (fun hpart => ⟨_, _, hpart⟩) hparts f (Dict.mem_ofList f hf)
    · cases h

/-- The fields of an object are no byte strings. -/
theorem field_ne_bytes {F : FloatFormat} {depth : Nat} {x : List Char} {fields : List (Py.Key × Py)}
    (h : loads F depth x = .ok (.dict fields)) : ∀ f ∈ fields, ∀ b, f.2 ≠ .bytes b := by
  intro f hf b
  obtain ⟨d, x', rest', hfield⟩ := loads_fields h f hf
  obtain ⟨-, x'', rest'', hvalue⟩ := scanField_parts hfield
  exact decode_ne_bytes hvalue b

/-- Neither an object nor an object in one of its fields has a key twice. -/
theorem loads_nodup {F : FloatFormat} {depth : Nat} {x : List Char} {fields : List (Py.Key × Py)}
    (h : loads F depth x = .ok (.dict fields)) :
    (fields.map Prod.fst).Nodup ∧
      ∀ f ∈ fields, ∀ inner, f.2 = .dict inner → (inner.map Prod.fst).Nodup := by
  refine ⟨?_, ?_⟩
  · unfold loads at h
    split at h
    · cases h
    · rename_i v rest hv
      split at h
      · cases h
        exact decode_nodup hv
      · cases h
  · intro f hf inner hinner
    obtain ⟨d, x', rest', hfield⟩ := loads_fields h f hf
    obtain ⟨-, x'', rest'', hvalue⟩ := scanField_parts hfield
    rw [hinner] at hvalue
    exact decode_nodup hvalue

end Lib.Json
