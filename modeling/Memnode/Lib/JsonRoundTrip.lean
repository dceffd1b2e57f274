/-
Memnode.Lib.JsonRoundTrip — `json.loads(json.dumps(v))` is `v`.

`Encodable` says which objects `json.dumps` accepts, `Canonical` which
of them a text can tell from all others: no pair of surrogates that
would be read as one code point, no key twice, and no NaN, which is
not equal to itself. The round trip is an induction over the object in which every
part is read back whatever follows it, as long as a number cannot be
continued by it (`Reads`).
-/
import Memnode.Lib.Json

namespace Lib.Json

/-! ## Numbers -/

/-- A character that could continue a number. -/
def isNumeric (c : Char) : Bool := c.isDigit || c = '.' || c = 'e' || c = 'E'

def NoDigit (x : List Char) : Prop := ∀ c ∈ x.head?, c.isDigit = false

/-- What may follow a number. -/
def Follows (x : List Char) : Prop := ∀ c ∈ x.head?, isNumeric c = false

theorem follows_nil : Follows [] := by simp [Follows]

theorem follows_cons {c : Char} {x : List Char} (h : isNumeric c = false) : Follows (c :: x) := by
  simpa [Follows] using h

theorem Follows.noDigit {x : List Char} (h : Follows x) : NoDigit x := by
  intro c hc
  have hnum := h c hc
  simp only [isNumeric, Bool.or_eq_false_iff] at hnum
  exact hnum.1.1.1

theorem Follows.head_ne {x : List Char} (h : Follows x) {c : Char} (hc : isNumeric c = true) :
    x.head? ≠ some c := by
  intro hx
  rw [h c hx] at hc
  cases hc

theorem isNumeric_of_isWs {c : Char} (h : isWs c = true) : isNumeric c = false := by
  simp only [isWs, decide_eq_true_eq] at h
  rcases h with rfl | rfl | rfl | rfl <;> rfl

/-- Whitespace ends a number. -/
theorem follows_append {w x : List Char} (hw : ∀ c ∈ w, isWs c = true) (hx : Follows x) :
    Follows (w ++ x) := by
  cases w with
  | nil => exact hx
  | cons c w => exact follows_cons (isNumeric_of_isWs (hw c (by simp)))

theorem span_digits {digits x : List Char} (hd : ∀ c ∈ digits, c.isDigit = true) (hx : NoDigit x) :
    (digits ++ x).span Char.isDigit = (digits, x) := by
  have hstop : x.takeWhile Char.isDigit = [] ∧ x.dropWhile Char.isDigit = x := by
    cases x with
    | nil => exact ⟨rfl, rfl⟩
    | cons c x => simp [hx c rfl]
  rw [List.span_eq_takeWhile_dropWhile, List.takeWhile_append_of_pos hd,
    List.dropWhile_append_of_pos hd, hstop.1, hstop.2, List.append_nil]

theorem scanWhole_append {w x : List Char} (hw : WholeDigits w) (hx : NoDigit x) :
    scanWhole (w ++ x) = some (w, x) := by
  rcases hw with rfl | ⟨hne, hdigits, hhead⟩
  · rfl
  · obtain ⟨c, tail, rfl⟩ := List.exists_cons_of_ne_nil hne
    have hzero : c ≠ '0' := fun h => hhead (by rw [h]; rfl)
    have hc := hdigits c (by simp)
    simp only [List.cons_append, scanWhole, if_neg hzero, if_pos hc]
    rw [← List.cons_append, span_digits hdigits hx]

theorem scanFrac_append {digits x : List Char} (hne : digits ≠ [])
    (hd : ∀ c ∈ digits, c.isDigit = true) (hx : NoDigit x) :
    scanFrac ('.' :: (digits ++ x)) = (digits, x) := by
  obtain ⟨c, tail, rfl⟩ := List.exists_cons_of_ne_nil hne
  have hc := hd c (by simp)
  simp only [scanFrac, List.cons_append, List.head?_cons, Option.any_some, hc, and_self, if_true]
  rw [← List.cons_append, span_digits hd hx]

theorem scanFrac_none {x : List Char} (h : x.head? ≠ some '.') : scanFrac x = ([], x) := by
  cases x with
  | nil => rfl
  | cons c x =>
    have hc : c ≠ '.' := fun hc => h (by rw [hc]; rfl)
    simp [scanFrac, hc]

theorem isDigit_not_sign {c : Char} (h : c.isDigit = true) : ¬(c = '+' ∨ c = '-') := by
  rintro (rfl | rfl) <;> cases h

theorem scanSigned_append {e x : List Char} (he : SignedDigits e) (hx : NoDigit x) :
    scanSigned (e ++ x) = some (e, x) := by
  obtain ⟨sign, digits, rfl, hsign, hne, hd⟩ := he
  obtain ⟨c, tail, rfl⟩ := List.exists_cons_of_ne_nil hne
  have hc := hd c (by simp)
  have hspan := span_digits hd hx
  rw [List.cons_append] at hspan
  rcases hsign with rfl | rfl | rfl
  · simp only [List.nil_append, List.cons_append, scanSigned, if_neg (isDigit_not_sign hc),
      if_pos hc, hspan]
  · simp only [List.cons_append, List.nil_append, scanSigned, true_or, if_true, List.head?_cons,
      Option.any_some, hc, hspan]
  · simp only [List.cons_append, List.nil_append, scanSigned, or_true, if_true, List.head?_cons,
      Option.any_some, hc, hspan]

theorem scanExponent_append {e x : List Char} (he : SignedDigits e) (hx : NoDigit x) :
    scanExponent ('e' :: (e ++ x)) = (some e, x) := by
  simp [scanExponent, scanSigned_append he hx]

theorem scanExponent_none {x : List Char} (he : x.head? ≠ some 'e') (hE : x.head? ≠ some 'E') :
    scanExponent x = (none, x) := by
  cases x with
  | nil => rfl
  | cons c x =>
    have hc : ¬(c = 'e' ∨ c = 'E') := by
      rintro (rfl | rfl)
      · exact he rfl
      · exact hE rfl
    simp [scanExponent, hc]

theorem WholeDigits.starts {w : List Char} (hw : WholeDigits w) :
    ∃ c tail, w = c :: tail ∧ c.isDigit = true := by
  rcases hw with rfl | ⟨hne, hdigits, -⟩
  · exact ⟨'0', [], rfl, rfl⟩
  · obtain ⟨c, tail, rfl⟩ := List.exists_cons_of_ne_nil hne
    exact ⟨c, tail, rfl, hdigits c (by simp)⟩

theorem scanSign_append {w x : List Char} (negative : Bool) (hw : WholeDigits w) :
    scanSign ((if negative then ['-'] else []) ++ (w ++ x)) = (negative, w ++ x) := by
  obtain ⟨c, tail, rfl, hc⟩ := hw.starts
  have hne : c ≠ '-' := fun h => isDigit_not_sign hc (.inr h)
  cases negative
  · simp [scanSign, hne]
  · simp [scanSign]

/-- The text of the digits after the point, with the point. -/
def fracText (frac : List Char) : List Char := if frac = [] then [] else '.' :: frac

def exponentText : Option (List Char) → List Char
  | none => []
  | some e => 'e' :: e

theorem Decimal.text_eq (d : Decimal) :
    d.text = (if d.negative then ['-'] else [])
      ++ (d.whole ++ (fracText d.frac ++ exponentText d.exponent)) := by
  obtain ⟨negative, whole, frac, exponent⟩ := d
  cases exponent <;> simp [Decimal.text, fracText, exponentText]

theorem scanExponent_text {e : Option (List Char)} {x : List Char}
    (he : ∀ e', e = some e' → SignedDigits e') (hx : Follows x) :
    scanExponent (exponentText e ++ x) = (e, x) := by
  cases e with
  | none => exact scanExponent_none (hx.head_ne rfl) (hx.head_ne rfl)
  | some e => exact scanExponent_append (he e rfl) hx.noDigit

/-- A point is not mistaken for what follows the digits. -/
theorem exponentText_head {e : Option (List Char)} {x : List Char} (hx : Follows x) {c : Char}
    (hc : c ∈ (exponentText e ++ x).head?) : c = 'e' ∨ isNumeric c = false := by
  cases e with
  | none => exact .inr (hx c hc)
  | some e => exact .inl (Option.some.inj hc).symm

theorem scanFrac_text {frac : List Char} {e : Option (List Char)} {x : List Char}
    (hfrac : ∀ c ∈ frac, c.isDigit = true) (hx : Follows x) :
    scanFrac (fracText frac ++ (exponentText e ++ x)) = (frac, exponentText e ++ x) := by
  by_cases hnil : frac = []
  · subst hnil
    refine scanFrac_none ?_
    intro hhead
    rcases exponentText_head hx hhead with h | h <;> cases h
  · simp only [fracText, if_neg hnil, List.cons_append]
    refine scanFrac_append hnil hfrac ?_
    intro c hc
    rcases exponentText_head hx hc with rfl | h
    · rfl
    · simp only [isNumeric, Bool.or_eq_false_iff] at h
      exact h.1.1.1

theorem noDigit_fracText {frac : List Char} {e : Option (List Char)} {x : List Char}
    (hx : Follows x) : NoDigit (fracText frac ++ (exponentText e ++ x)) := by
  intro c hc
  by_cases hnil : frac = []
  · subst hnil
    rcases exponentText_head hx hc with rfl | h
    · rfl
    · simp only [isNumeric, Bool.or_eq_false_iff] at h
      exact h.1.1.1
  · simp only [fracText, if_neg hnil, List.cons_append, List.head?_cons, Option.mem_def,
      Option.some.injEq] at hc
    subst hc
    rfl

/-- A number is read back as it is written. -/
theorem scanDecimal_text {d : Decimal} {x : List Char} (hd : d.WellFormed) (hx : Follows x) :
    scanDecimal (d.text ++ x) = some (d, x) := by
  simp only [d.text_eq, List.append_assoc, scanDecimal, scanSign_append d.negative hd.whole,
    scanWhole_append hd.whole (noDigit_fracText hx), scanFrac_text hd.frac hx,
    scanExponent_text hd.exponent hx]

/-! ## Integers and floats -/

theorem toDigits_head {n : Nat} (hn : 0 < n) : (Nat.toDigits 10 n).head? ≠ some '0' := by
  induction n using Nat.strongRecOn with
  | ind n ih =>
    rw [Nat.toDigits_eq_if (by omega)]
    split
    · intro h
      simp only [List.head?_cons, Option.some.injEq] at h
      have hval := congrArg Char.toNat h
      rw [Nat.toNat_digitChar_of_lt_ten (by omega)] at hval
      exact absurd hval (by simp; omega)
    · rw [List.head?_append_of_ne_nil _ Nat.toDigits_ne_nil]
      exact ih (n / 10) (by omega) (by omega)

theorem wholeDigits_toDigits (n : Nat) : WholeDigits (Nat.toDigits 10 n) := by
  rcases Nat.eq_zero_or_pos n with rfl | hn
  · exact .inl rfl
  · exact .inr ⟨Nat.toDigits_ne_nil,
      fun c hc => Nat.isDigit_of_mem_toDigits (by omega) (by omega) hc, toDigits_head hn⟩

/-- A format that spells a finite number by its bits. -/
def FloatFormat.spelled : FloatFormat where
  repr := fun x => ⟨false, Nat.toDigits 10 x.toNat, ['0'], none⟩
  read := fun d =>
    let x := UInt64.ofNat (Nat.ofDigitChars 10 d.whole 0)
    if Py.isFinite x then x else 0
  repr_isFloat := fun x _ =>
    { whole := wholeDigits_toDigits x.toNat
      frac := by simp
      exponent := by simp
      float := .inl (by simp) }
  read_repr := by
    intro x hx
    simp only [Nat.ofDigitChars_ten_toDigits, UInt64.ofNat_toNat, hx, if_true]
  read_notNaN := by
    intro d
    dsimp only
    split
    · rename_i hx
      exact Py.isNaN_eq_false hx
    · rfl

/-- An integer as it is written. -/
def ofInt (i : Int) : Decimal := ⟨decide (i < 0), Nat.toDigits 10 i.natAbs, [], none⟩

theorem ofInt_wellFormed (i : Int) : (ofInt i).WellFormed where
  whole := wholeDigits_toDigits _
  frac := by simp [ofInt]
  exponent := by simp [ofInt]

theorem ofInt_text (i : Int) : (ofInt i).text = intText i := by
  simp [ofInt, Decimal.text, intText]

theorem ofInt_toInt (i : Int) : (ofInt i).toInt = i := by
  simp only [ofInt, Decimal.toInt, Nat.ofDigitChars_ten_toDigits, decide_eq_true_eq]
  split <;> omega

/-- The text of a number is not a word, nor the beginning of anything else. -/
theorem scanValue_text (F : FloatFormat) (nested : Option (Scanner Py)) {d : Decimal}
    (hd : d.WellFormed) (x : List Char) :
    scanValue F nested (d.text ++ x) = number F (d.text ++ x) := by
  obtain ⟨c, tail, hw, hc⟩ := hd.whole.starts
  have hdigit : ∀ c' : Char, c'.isDigit = false → c ≠ c' := by
    rintro c' h rfl
    rw [h] at hc
    cases hc
  rw [d.text_eq, hw]
  cases d.negative
  · simp [scanValue, scanWord, words, after, hdigit '"' rfl, hdigit '[' rfl, hdigit '\x7b' rfl,
      (hdigit 'n' rfl).symm, (hdigit 't' rfl).symm, (hdigit 'f' rfl).symm, (hdigit 'N' rfl).symm,
      (hdigit 'I' rfl).symm, (hdigit '-' rfl).symm]
  · simp [scanValue, scanWord, words, after, (hdigit 'I' rfl).symm]

/-! ## Strings -/

/-- The parts that `step` finds from `x` on, and what is left then. -/
inductive Steps {α : Type} (step : Scanner (Option α)) : List Char → List α → List Char → Prop
  | done {x rest : List Char} : step x = .ok (none, rest) → Steps step x [] rest
  | next {x mid rest : List Char} {a : α} {as : List α} : step x = .ok (some a, mid) →
      mid.length < x.length → Steps step mid as rest → Steps step x (a :: as) rest

theorem Steps.collect {α : Type} {step : Scanner (Option α)} {x rest : List Char} {as : List α}
    (h : Steps step x as rest) : ∀ {n : Nat}, x.length < n → collect step n x = .ok (as, rest) := by
  induction h with
  | done hstep =>
    rintro (_ | n) hn
    · cases hn
    · simp [Json.collect, hstep]
  | next hstep hlen _ ih =>
    rintro (_ | n) hn
    · cases hn
    · simp [Json.collect, hstep, ih (by omega : _ < n)]

theorem hex4_hexText {u : Nat} (hu : u < 0x10000) (x : List Char) :
    hex4 (hexText u ++ x) = some (u, x) := by
  have hdigit : ∀ n, hexDigit (Nat.digitChar (n % 16)) = some (n % 16) :=
    fun n => hexDigit_digitChar (by omega)
  have hsum : 4096 * (u / 4096 % 16) + 256 * (u / 256 % 16) + 16 * (u / 16 % 16) + u % 16 = u := by
    omega
  simp only [hexText, List.cons_append, List.nil_append, hex4, hdigit, hsum]

theorem toNat_ofNat_of_lt {u : Nat} (hu : u < 0x7f) : (Char.ofNat u).toNat = u := by
  have hall : ∀ u : Fin 0x7f, (Char.ofNat u.val).toNat = u.val := by decide
  exact hall ⟨u, hu⟩

theorem scanUnit_unitText {u : Nat} (hu : u < 0x10000) (x : List Char) :
    scanUnit (unitText u ++ x) = .ok (some u, x) := by
  by_cases hplain : 0x20 ≤ u ∧ u < 0x7f ∧ u ≠ 0x22 ∧ u ≠ 0x5c
  · obtain ⟨hlo, hhi, hquote, hslash⟩ := hplain
    have hval := toNat_ofNat_of_lt hhi
    have hne : ∀ c : Char, u ≠ c.toNat → Char.ofNat u ≠ c := by
      rintro c hc rfl
      exact hc hval.symm
    have htext : unitText u = [Char.ofNat u] := by
      unfold unitText
      repeat rw [if_neg (by omega)]
      rw [if_pos ⟨hlo, hhi⟩]
    rw [htext, List.singleton_append, scanUnit, if_neg (hne '"' hquote),
      if_neg (hne '\\' hslash), hval, if_neg (by omega)]
  · unfold unitText
    -- the escapes of one character, then `\u`
    repeat
      split
      · subst_vars
        rfl
    rw [if_neg (by omega)]
    simp only [List.cons_append, scanUnit, scanEscape, hex4_hexText hu]
    rfl

theorem steps_units {units : List Nat} (hu : ∀ u ∈ units, u < 0x10000) (x : List Char) :
    Steps scanUnit (units.flatMap unitText ++ ('"' :: x)) units x := by
  induction units with
  | nil => exact .done rfl
  | cons u units ih =>
    have hstep := scanUnit_unitText (hu u (by simp)) (units.flatMap unitText ++ ('"' :: x))
    rw [List.flatMap_cons, List.append_assoc]
    exact .next hstep (length_scanUnit hstep) (ih (fun u' hu' => hu u' (List.mem_cons_of_mem u hu')))

/-- Code points, without a pair of surrogates that stands for one. -/
def Joined (s : Text) : Prop :=
  (∀ u ∈ s, u < 0x110000) ∧ s.IsChain (fun hi lo => ¬(isHigh hi = true ∧ isLow lo = true))

/-- Characters that stand for themselves in a literal. -/
def isVerbatim (c : Char) : Bool := 0x20 ≤ c.toNat ∧ c.toNat < 0x7f ∧ c ≠ '"' ∧ c ≠ '\\'

theorem unitText_verbatim {c : Char} (h : isVerbatim c = true) : unitText c.toNat = [c] := by
  obtain ⟨hlow, hhigh, hquote, hslash⟩ := of_decide_eq_true h
  have hne : ∀ d : Char, c ≠ d → c.toNat ≠ d.toNat := fun d hcd heq => hcd (Char.toNat_inj.mp heq)
  have hquote' : c.toNat ≠ 0x22 := hne '"' hquote
  have hslash' : c.toNat ≠ 0x5c := hne '\\' hslash
  rw [unitText, if_neg hquote', if_neg hslash', if_neg (by omega), if_neg (by omega),
    if_neg (by omega), if_neg (by omega), if_neg (by omega), if_pos ⟨hlow, hhigh⟩, Char.ofNat_toNat]

theorem quote_verbatim {s : String} (h : ∀ c ∈ s.toList, isVerbatim c = true) :
    quote (Py.text s) = '"' :: (s.toList ++ ['"']) := by
  rw [quote, Py.text]
  congr 2
  generalize s.toList = cs at h ⊢
  induction cs with
  | nil => rfl
  | cons c cs ih =>
    obtain ⟨hc, hcs⟩ := List.forall_mem_cons.mp h
    have hlt : c.toNat < 0x10000 := by
      have := (of_decide_eq_true hc).2.1
      omega
    rw [List.map_cons, List.flatMap_cons, split, if_pos hlt, List.cons_append, List.nil_append,
      List.flatMap_cons, unitText_verbatim hc, ih hcs]
    rfl

/-- A literal has no surrogates. -/
theorem joined_text (s : String) : Joined (Py.text s) := by
  have hvalid : ∀ u ∈ Py.text s, u < 0x110000 ∧ isHigh u = false := by
    intro u hu
    obtain ⟨c, -, rfl⟩ := List.mem_map.mp hu
    have hc : c.toNat < 0xd800 ∨ (0xdfff < c.toNat ∧ c.toNat < 0x110000) := c.valid
    simp only [isHigh, decide_eq_false_iff_not]
    omega
  refine ⟨fun u hu => (hvalid u hu).1, ?_⟩
  revert hvalid
  generalize Py.text s = units
  intro hvalid
  induction units with
  | nil => exact .nil
  | cons u units ih =>
    have hrest := ih (fun v hv => hvalid v (List.mem_cons_of_mem u hv))
    cases units with
    | nil => exact .singleton u
    | cons v units =>
      refine .cons_cons ?_ hrest
      rw [(hvalid u (by simp)).2]
      simp

theorem split_lt {u : Nat} (hu : u < 0x110000) : ∀ v ∈ split u, v < 0x10000 := by
  intro v hv
  unfold split at hv
  split at hv
  · simp only [List.mem_singleton] at hv
    omega
  · simp only [List.mem_cons, List.not_mem_nil, or_false] at hv
    omega

/-- What begins with the units of a code point begins with a low surrogate
only if it is one. -/
theorem isLow_head_split {u v : Nat} {rest : List Nat} (hu : u < 0x110000)
    (hv : v ∈ (split u ++ rest).head?) (hlow : isLow v = true) : isLow u = true := by
  unfold split at hv
  split at hv
  · cases hv
    exact hlow
  · cases hv
    simp only [isLow, decide_eq_true_eq] at hlow
    omega

theorem join_cons {u : Nat} {rest : List Nat}
    (h : ∀ v ∈ rest.head?, ¬(isHigh u = true ∧ isLow v = true)) :
    join (u :: rest) = u :: join rest := by
  cases rest with
  | nil => rfl
  | cons v rest => rw [join, if_neg (h v rfl)]

theorem join_split {u : Nat} (hu : u < 0x110000) {rest : List Nat}
    (h : ∀ v ∈ rest.head?, ¬(isHigh u = true ∧ isLow v = true)) :
    join (split u ++ rest) = u :: join rest := by
  unfold split
  split
  · exact join_cons h
  · have hpair : isHigh (0xd800 + (u - 0x10000) / 0x400) = true ∧
        isLow (0xdc00 + (u - 0x10000) % 0x400) = true := by
      simp only [isHigh, isLow, decide_eq_true_eq]
      omega
    have hval : 0x10000 + (0xd800 + (u - 0x10000) / 0x400 - 0xd800) * 0x400
        + (0xdc00 + (u - 0x10000) % 0x400 - 0xdc00) = u := by omega
    rw [List.cons_append, List.cons_append, List.nil_append, join, if_pos hpair, hval]

theorem join_flatMap_split {s : Text} (hs : Joined s) : join (s.flatMap split) = s := by
  induction s with
  | nil => rfl
  | cons u s ih =>
    have htail : Joined s := ⟨fun v hv => hs.1 v (List.mem_cons_of_mem u hv), hs.2.of_cons⟩
    rw [List.flatMap_cons, join_split (hs.1 u (by simp)), ih htail]
    intro v hv hpair
    cases s with
    | nil => cases hv
    | cons w s =>
      rw [List.flatMap_cons] at hv
      exact (List.isChain_cons_cons.mp hs.2).1 ⟨hpair.1, isLow_head_split (htail.1 w (by simp)) hv hpair.2⟩

/-- A string is read back as it is written. -/
theorem scanString_quote {s : Text} (hs : Joined s) (x : List Char) :
    scanString ((s.flatMap split).flatMap unitText ++ ('"' :: x)) = .ok (s, x) := by
  have hunits : ∀ u ∈ s.flatMap split, u < 0x10000 := by
    intro u hu
    obtain ⟨v, hv, hmem⟩ := List.mem_flatMap.mp hu
    exact split_lt (hs.1 v hv) u hmem
  have hcollect := (steps_units hunits x).collect (Nat.lt_succ_self _)
  simp only [scanString, hcollect, join_flatMap_split hs]

/-! ## Objects that have a text -/

mutual

/-- What `json.dumps` accepts, with `room` for levels on the stack. -/
def Encodable (room : Nat) : Py → Prop
  | .int i => (Nat.toDigits 10 i.natAbs).length ≤ maxDigits
  | .bytes _ => False
  | .ext _ _ => False
  | .list items => 0 < room ∧ EncodableItems (room - 1) items
  | .dict fields => 0 < room ∧ EncodableFields (room - 1) fields
  | _ => True

def EncodableItems (room : Nat) : List Py → Prop
  | [] => True
  | v :: rest => Encodable room v ∧ EncodableItems room rest

def EncodableFields (room : Nat) : List (Py.Key × Py) → Prop
  | [] => True
  | (k, v) :: rest => (∃ s, k = .str s) ∧ Encodable room v ∧ EncodableFields room rest

end

theorem encodableItems_iff {room : Nat} {items : List Py} :
    EncodableItems room items ↔ ∀ v ∈ items, Encodable room v := by
  induction items with
  | nil => simp [EncodableItems]
  | cons v rest ih => simp [EncodableItems, ih]

theorem encodableFields_iff {room : Nat} {fields : List (Py.Key × Py)} :
    EncodableFields room fields ↔ ∀ f ∈ fields, (∃ s, f.1 = .str s) ∧ Encodable room f.2 := by
  induction fields with
  | nil => simp [EncodableFields]
  | cons f rest ih => simp [EncodableFields, ih, and_assoc]

mutual

theorem encodable_mono {room room' : Nat} (hle : room ≤ room') :
    ∀ v : Py, Encodable room v → Encodable room' v
  | .none, _ => trivial
  | .bool _, _ => trivial
  | .int _, h => h
  | .float _, _ => trivial
  | .str _, _ => trivial
  | .list items, h =>
      ⟨Nat.lt_of_lt_of_le h.1 hle, encodableItems_mono (Nat.sub_le_sub_right hle 1) items h.2⟩
  | .dict fields, h =>
      ⟨Nat.lt_of_lt_of_le h.1 hle, encodableFields_mono (Nat.sub_le_sub_right hle 1) fields h.2⟩

theorem encodableItems_mono {room room' : Nat} (hle : room ≤ room') :
    ∀ items : List Py, EncodableItems room items → EncodableItems room' items
  | [], _ => trivial
  | v :: rest, h => ⟨encodable_mono hle v h.1, encodableItems_mono hle rest h.2⟩

theorem encodableFields_mono {room room' : Nat} (hle : room ≤ room') :
    ∀ fields : List (Py.Key × Py), EncodableFields room fields → EncodableFields room' fields
  | [], _ => trivial
  | (_, v) :: rest, h => ⟨h.1, encodable_mono hle v h.2.1, encodableFields_mono hle rest h.2.2⟩

end

section Accepted

variable {F : FloatFormat} {st : Style} {depth level : Nat}

theorem map_ok_iff {ε α β : Type} {r : Except ε α} {f : α → β} {b : β} :
    r.map f = .ok b ↔ ∃ a, r = .ok a ∧ f a = b := by
  cases r with
  | error e => simp [Except.map]
  | ok a => simp [Except.map]

theorem encodeItems_cons {v : Py} {rest : List Py} {texts : List (List Char)} :
    encodeItems F st depth level (v :: rest) = .ok texts ↔
      ∃ t ts, encode F st depth level v = .ok t ∧ encodeItems F st depth level rest = .ok ts ∧
        texts = t :: ts := by
  simp only [encodeItems]
  cases encode F st depth level v with
  | error e => simp
  | ok t => simp [map_ok_iff, eq_comm (a := texts)]

theorem encodeFields_cons {k : Py.Key} {v : Py} {rest : List (Py.Key × Py)}
    {texts : List (List Char)} :
    encodeFields F st depth level ((k, v) :: rest) = .ok texts ↔
      ∃ s t ts, k = .str s ∧ encode F st depth level v = .ok t ∧
        encodeFields F st depth level rest = .ok ts ∧ texts = fieldText st s t :: ts := by
  cases k with
  | bytes b => simp [encodeFields]
  | str s =>
    simp only [encodeFields]
    cases encode F st depth level v with
    | error e => simp
    | ok t => simp [map_ok_iff, eq_comm (a := texts)]

theorem encode_list {items : List Py} {text : List Char} :
    encode F st depth level (.list items) = .ok text ↔ level < depth ∧
      ∃ ts, encodeItems F st depth (level + 1) items = .ok ts ∧
        '[' :: partsText st level ']' ts = text := by
  simp only [encode]
  split
  · simp only [reduceCtorEq, false_iff, not_and]
    omega
  · have hlevel : level < depth := by omega
    simp only [map_ok_iff, hlevel, true_and]

theorem encode_dict {fields : List (Py.Key × Py)} {text : List Char} :
    encode F st depth level (.dict fields) = .ok text ↔ level < depth ∧
      ∃ ts, encodeFields F st depth (level + 1) fields = .ok ts ∧
        '\x7b' :: partsText st level '\x7d' ts = text := by
  simp only [encode]
  split
  · simp only [reduceCtorEq, false_iff, not_and]
    omega
  · have hlevel : level < depth := by omega
    simp only [map_ok_iff, hlevel, true_and]

variable (F st depth)

mutual

/-- `json.dumps` accepts an object exactly if it is `Encodable`. -/
theorem encode_iff (level : Nat) (v : Py) :
    (∃ t, encode F st depth level v = .ok t) ↔ Encodable (depth - level) v := by
  match v with
  | .none => simp [encode, Encodable]
  | .bool true => simp [encode, Encodable]
  | .bool false => simp [encode, Encodable]
  | .int i =>
    simp only [encode, Encodable]
    split
    · simp only [reduceCtorEq, exists_false, false_iff, not_le]
      assumption
    · simp only [Except.ok.injEq, exists_eq', true_iff]
      omega
  | .float bits => simp [encode, Encodable]
  | .str s => simp [encode, Encodable]
  | .bytes b => simp [encode, Encodable]
  | .ext code data => simp [encode, Encodable]
  | .list items =>
    have hitems := encodeItems_iff (level + 1) items
    rw [Encodable, Nat.sub_sub, ← hitems]
    simp only [encode_list]
    constructor
    · rintro ⟨_, hlevel, ts, hts, rfl⟩
      exact ⟨by omega, ts, hts⟩
    · rintro ⟨hlevel, ts, hts⟩
      exact ⟨_, by omega, ts, hts, rfl⟩
  | .dict fields =>
    have hfields := encodeFields_iff (level + 1) fields
    rw [Encodable, Nat.sub_sub, ← hfields]
    simp only [encode_dict]
    constructor
    · rintro ⟨_, hlevel, ts, hts, rfl⟩
      exact ⟨by omega, ts, hts⟩
    · rintro ⟨hlevel, ts, hts⟩
      exact ⟨_, by omega, ts, hts, rfl⟩

theorem encodeItems_iff (level : Nat) (items : List Py) :
    (∃ ts, encodeItems F st depth level items = .ok ts) ↔ EncodableItems (depth - level) items := by
  match items with
  | [] => simp [encodeItems, EncodableItems]
  | v :: rest =>
    have hv := encode_iff level v
    have hrest := encodeItems_iff level rest
    rw [EncodableItems, ← hv, ← hrest]
    simp only [encodeItems_cons]
    constructor
    · rintro ⟨_, t, ts, ht, hts, rfl⟩
      exact ⟨⟨t, ht⟩, ⟨ts, hts⟩⟩
    · rintro ⟨⟨t, ht⟩, ⟨ts, hts⟩⟩
      exact ⟨_, t, ts, ht, hts, rfl⟩

theorem encodeFields_iff (level : Nat) (fields : List (Py.Key × Py)) :
    (∃ ts, encodeFields F st depth level fields = .ok ts) ↔
      EncodableFields (depth - level) fields := by
  match fields with
  | [] => simp [encodeFields, EncodableFields]
  | (k, v) :: rest =>
    have hv := encode_iff level v
    have hrest := encodeFields_iff level rest
    rw [EncodableFields, ← hv, ← hrest]
    simp only [encodeFields_cons]
    constructor
    · rintro ⟨_, s, t, ts, hk, ht, hts, rfl⟩
      exact ⟨⟨s, hk⟩, ⟨t, ht⟩, ⟨ts, hts⟩⟩
    · rintro ⟨⟨s, hk⟩, ⟨t, ht⟩, ⟨ts, hts⟩⟩
      exact ⟨_, s, t, ts, hk, ht, hts, rfl⟩

end

theorem dumps_iff (v : Py) : (∃ t, dumps F st depth v = .ok t) ↔ Encodable depth v :=
  encode_iff F st depth 0 v

end Accepted

/-! ## Objects that a text tells from all others -/

mutual

/-- What is not changed by writing and reading. -/
def Canonical : Py → Prop
  | .float bits => Py.isNaN bits = false
  | .str s => Joined s
  | .list items => CanonicalItems items
  | .dict fields => (fields.map Prod.fst).Nodup ∧ CanonicalFields fields
  | _ => True

def CanonicalItems : List Py → Prop
  | [] => True
  | v :: rest => Canonical v ∧ CanonicalItems rest

def CanonicalFields : List (Py.Key × Py) → Prop
  | [] => True
  | (k, v) :: rest => (∀ s, k = .str s → Joined s) ∧ Canonical v ∧ CanonicalFields rest

end

theorem canonicalItems_iff {items : List Py} :
    CanonicalItems items ↔ ∀ v ∈ items, Canonical v := by
  induction items with
  | nil => simp [CanonicalItems]
  | cons v rest ih => simp [CanonicalItems, ih]

theorem canonicalFields_iff {fields : List (Py.Key × Py)} :
    CanonicalFields fields ↔ ∀ f ∈ fields, (∀ s, f.1 = .str s → Joined s) ∧ Canonical f.2 := by
  induction fields with
  | nil => simp [CanonicalFields]
  | cons f rest ih => simp [CanonicalFields, ih, and_assoc]

/-- What a decoder returns: no key is in a dictionary twice, and no text
has a code point spelled as two surrogates. -/
structure Decoded (v : Py) : Prop where
  text : ∀ s, Py.Within (.str s) v → Joined s
  keys : ∀ fields, Py.Within (.dict fields) v →
    (fields.map Prod.fst).Nodup ∧ ∀ f ∈ fields, ∀ s, f.1 = .str s → Joined s

theorem Decoded.item {items : List Py} (h : Decoded (.list items)) {v : Py} (hv : v ∈ items) :
    Decoded v :=
  ⟨fun s hs => h.text s (.item hv hs), fun fields hf => h.keys fields (.item hv hf)⟩

theorem Decoded.field {fields : List (Py.Key × Py)} (h : Decoded (.dict fields)) {f : Py.Key × Py}
    (hf : f ∈ fields) : Decoded f.2 :=
  ⟨fun s hs => h.text s (.field hf hs), fun fields hd => h.keys fields (.field hf hd)⟩

theorem decoded_list {items : List Py} : Decoded (.list items) ↔ ∀ v ∈ items, Decoded v := by
  refine ⟨fun h v hv => h.item hv, fun h => ⟨fun s hs => ?_, fun fields hd => ?_⟩⟩
  · cases hs with
    | item hv hs => exact (h _ hv).text s hs
  · cases hd with
    | item hv hd => exact (h _ hv).keys fields hd

/-- The parts of a canonical object are canonical. -/
theorem Canonical.within {w v : Py} (h : Py.Within w v) : Canonical v → Canonical w := by
  induction h with
  | self => exact id
  | item hv _ ih => exact fun hc => ih (canonicalItems_iff.mp hc _ hv)
  | field hf _ ih => exact fun hc => ih (canonicalFields_iff.mp hc.2 _ hf).2

theorem Canonical.nanFree {v : Py} (h : Canonical v) : Py.NanFree v :=
  fun _ hwithin => h.within hwithin

mutual

/-- A decoded object without NaN is canonical. -/
theorem canonical_of : ∀ v : Py, Decoded v → Py.NanFree v → Canonical v
  | .none, _, _ => trivial
  | .bool _, _, _ => trivial
  | .int _, _, _ => trivial
  | .float bits, _, hn => hn bits .self
  | .str s, hd, _ => hd.text s .self
  | .bytes _, _, _ => trivial
  | .ext _ _, _, _ => trivial
  | .list items, hd, hn => canonicalItems_of items (fun _ hv => hd.item hv)
      (fun _ hv => fun bits h => hn bits (.item hv h))
  | .dict fields, hd, hn => ⟨(hd.keys fields .self).1, canonicalFields_of fields
      (fun f hf => ⟨(hd.keys fields .self).2 f hf, hd.field hf, fun bits h => hn bits (.field hf h)⟩)⟩

theorem canonicalItems_of : ∀ items : List Py, (∀ v ∈ items, Decoded v) →
    (∀ v ∈ items, Py.NanFree v) → CanonicalItems items
  | [], _, _ => trivial
  | v :: rest, hd, hn => ⟨canonical_of v (hd v (List.mem_cons_self ..)) (hn v (List.mem_cons_self ..)),
      canonicalItems_of rest (fun w hw => hd w (List.mem_cons_of_mem _ hw))
        (fun w hw => hn w (List.mem_cons_of_mem _ hw))⟩

theorem canonicalFields_of : ∀ fields : List (Py.Key × Py),
    (∀ f ∈ fields, (∀ s, f.1 = .str s → Joined s) ∧ Decoded f.2 ∧ Py.NanFree f.2) →
    CanonicalFields fields
  | [], _ => trivial
  | (k, v) :: rest, h =>
      have hfirst := h (k, v) (List.mem_cons_self ..)
      ⟨hfirst.1, canonical_of v hfirst.2.1 hfirst.2.2,
        canonicalFields_of rest (fun f hf => h f (List.mem_cons_of_mem _ hf))⟩

end

/-- The text is read as the value, whatever follows it. -/
def Reads {α : Type} (p : Scanner α) (t : List Char) (a : α) : Prop :=
  ∀ rest, Follows rest → p (t ++ rest) = .ok (a, rest)

/-- A text that does not begin with whitespace or a closing bracket. -/
def Starts (close : Char) (t : List Char) : Prop :=
  ∃ c tail, t = c :: tail ∧ isWs c = false ∧ c ≠ close

theorem skipWs_append {w x : List Char} (hw : ∀ c ∈ w, isWs c = true)
    (hx : ∀ c ∈ x.head?, isWs c = false) : skipWs (w ++ x) = x := by
  rw [skipWs, List.dropWhile_append_of_pos hw]
  cases x with
  | nil => rfl
  | cons c x => simp [hx c rfl]

theorem Starts.skipWs {close : Char} {w t x : List Char} (hw : ∀ c ∈ w, isWs c = true)
    (ht : Starts close t) : skipWs (w ++ (t ++ x)) = t ++ x := by
  obtain ⟨c, tail, rfl, hc, -⟩ := ht
  refine skipWs_append hw ?_
  intro c' hc'
  cases hc'
  exact hc

section Parts

variable {α : Type} {part : Scanner α} (st : Style) (level : Nat) {close : Char}
  (hws : isWs close = false) (hcomma : close ≠ ',') (hnumeric : isNumeric close = false)

include hnumeric in
/-- No number is continued by what follows a part. -/
theorem follows_parts (ts : List (List Char)) (rest : List Char) :
    Follows (ts.flatMap (fun t => ',' :: (st.comma level ++ t))
      ++ (st.closing level ++ (close :: rest))) := by
  cases ts with
  | nil =>
    rw [List.flatMap_nil, List.nil_append]
    exact follows_append (st.closing_ws level) (follows_cons hnumeric)
  | cons t ts => exact follows_cons rfl

include hws hcomma hnumeric in
theorem steps_parts {ts : List (List Char)} {as : List α} (h : List.Forall₂ (Reads part) ts as)
    (hstarts : ∀ t ∈ ts, Starts close t) (rest : List Char) :
    Steps (scanNext close part) (ts.flatMap (fun t => ',' :: (st.comma level ++ t))
      ++ (st.closing level ++ (close :: rest))) as rest := by
  induction h with
  | nil =>
    refine .done ?_
    have hskip : skipWs (st.closing level ++ (close :: rest)) = close :: rest := by
      refine skipWs_append (st.closing_ws level) ?_
      intro c hc
      cases hc
      exact hws
    simp only [List.flatMap_nil, List.nil_append, scanNext, hskip, if_true]
  | @cons t a ts as ht _ ih =>
    have hread := ht _ (follows_parts st level hnumeric ts rest)
    have hskip := (hstarts t (by simp)).skipWs (st.comma_ws level)
      (x := ts.flatMap (fun t => ',' :: (st.comma level ++ t)) ++ (st.closing level ++ (close :: rest)))
    simp only [List.flatMap_cons, List.cons_append, List.append_assoc]
    refine .next ?_ ?_ (ih (fun t' ht' => hstarts t' (List.mem_cons_of_mem t ht')))
    · have hcons : ∀ x, skipWs (',' :: x) = ',' :: x := fun x => by simp [Json.skipWs, isWs]
      simp only [scanNext, hcons, if_neg hcomma.symm, if_true, hskip, hread, Except.map]
    · simp only [List.length_cons, List.length_append]
      omega

include hws hcomma hnumeric in
/-- The parts of a list or an object are read back. -/
theorem scanParts_partsText {ts : List (List Char)} {as : List α}
    (h : List.Forall₂ (Reads part) ts as) (hstarts : ∀ t ∈ ts, Starts close t) (rest : List Char) :
    scanParts close part (partsText st level close ts ++ rest) = .ok (as, rest) := by
  cases h with
  | nil => simp [partsText, scanParts, Json.skipWs, hws]
  | @cons t a ts as ht h =>
    have hfollows := follows_parts st level hnumeric ts rest
    have hread := ht _ hfollows
    have hsteps := steps_parts st level hws hcomma hnumeric h
      (fun t' ht' => hstarts t' (List.mem_cons_of_mem t ht')) rest
    have hfirst := hstarts t (by simp)
    have hskip := hfirst.skipWs (st.opening_ws level)
      (x := ts.flatMap (fun t => ',' :: (st.comma level ++ t)) ++ (st.closing level ++ (close :: rest)))
    obtain ⟨c, tail, rfl, -, hc⟩ := hfirst
    simp only [partsText, List.append_assoc, List.cons_append, List.nil_append] at hskip hread ⊢
    simp only [scanParts, hskip, if_neg hc, hread, hsteps.collect (Nat.lt_succ_self _), Except.map]

end Parts

/-! ## The round trip -/

section RoundTrip

variable (F : FloatFormat) (nested : Option (Scanner Py))

theorem reads_int {i : Int} (hi : (Nat.toDigits 10 i.natAbs).length ≤ maxDigits) :
    Reads (scanValue F nested) (intText i) (.int i) := by
  intro rest hrest
  have hdecimal := scanDecimal_text (ofInt_wellFormed i) hrest
  have hint : (ofInt i).frac = [] ∧ (ofInt i).exponent = none := ⟨rfl, rfl⟩
  have hlen : ¬maxDigits < (ofInt i).whole.length := Nat.not_lt.mpr hi
  rw [← ofInt_text, scanValue_text F nested (ofInt_wellFormed i), number, hdecimal]
  simp only [if_pos hint, if_neg hlen, ofInt_toInt]

theorem reads_finite {bits : UInt64} (hfinite : Py.isFinite bits = true) :
    Reads (scanValue F nested) (F.repr bits).text (.float bits) := by
  intro rest hrest
  have hfloat := F.repr_isFloat bits hfinite
  have hdecimal := scanDecimal_text hfloat.toWellFormed hrest
  have hnot : ¬((F.repr bits).frac = [] ∧ (F.repr bits).exponent = none) := by
    rintro ⟨hfrac, hexponent⟩
    rcases hfloat.float with h | h
    · exact h hfrac
    · exact h hexponent
  rw [scanValue_text F nested hfloat.toWellFormed, number, hdecimal]
  simp only [if_neg hnot, F.read_repr bits hfinite]

theorem reads_word {w : List Char × Py} (hw : w ∈ words) : Reads (scanValue F nested) w.1 w.2 := by
  intro rest _
  simp only [words, List.mem_cons, List.not_mem_nil, or_false] at hw
  rcases hw with rfl | rfl | rfl | rfl | rfl | rfl <;>
    simp [scanValue, scanWord, words, after]

/-- The two infinities. -/
theorem infinite_cases {bits : UInt64} (hfinite : Py.isFinite bits = false)
    (hnan : Py.isNaN bits = false) :
    (bits.toNat < 2 ^ 63 ∧ bits = infinity) ∨ (¬bits.toNat < 2 ^ 63 ∧ bits = negInfinity) := by
  have hlt := bits.toNat_lt
  have hexponent := of_decide_eq_false hfinite
  have hfraction := of_decide_eq_false hnan
  simp only [Py.exponent, Py.fraction] at hexponent hfraction
  rcases Nat.lt_or_ge bits.toNat (2 ^ 63) with h | h
  · refine .inl ⟨h, UInt64.toNat_inj.mp ?_⟩
    rw [show infinity.toNat = 0x7ff0000000000000 from rfl]
    omega
  · refine .inr ⟨by omega, UInt64.toNat_inj.mp ?_⟩
    rw [show negInfinity.toNat = 0xfff0000000000000 from rfl]
    omega

theorem reads_float {bits : UInt64} (hc : Py.isNaN bits = false) :
    Reads (scanValue F nested) (floatText F bits) (.float bits) := by
  unfold floatText
  by_cases hfinite : Py.isFinite bits = true
  · rw [if_pos hfinite]
    exact reads_finite F nested hfinite
  · rw [if_neg hfinite, if_neg (by simp [hc])]
    rcases infinite_cases (by simpa using hfinite) hc with ⟨h, rfl⟩ | ⟨h, rfl⟩
    · rw [if_pos h]
      exact reads_word F nested (w := (_, .float infinity)) (by simp [words])
    · rw [if_neg h]
      exact reads_word F nested (w := (_, .float negInfinity)) (by simp [words])

theorem reads_str {s : Text} (hs : Joined s) : Reads (scanValue F nested) (quote s) (.str s) := by
  intro rest _
  have hstring := scanString_quote hs rest
  simp only [quote, List.cons_append, List.append_assoc, List.nil_append, scanValue, if_true,
    hstring, Except.map]

/-- Where a value is read, there is neither whitespace nor a bracket to close. -/
theorem starts_of_scanValue {x : List Char} {r : Py × List Char}
    (h : scanValue F nested x = .ok r) : Starts ']' x := by
  cases x with
  | nil => cases h
  | cons c x =>
    refine ⟨c, x, rfl, ?_, ?_⟩
    · rw [Bool.eq_false_iff]
      intro hc
      simp only [isWs, decide_eq_true_eq] at hc
      rcases hc with rfl | rfl | rfl | rfl <;>
        simp [scanValue, scanWord, words, after, number, scanDecimal, scanSign, scanWhole,
          Char.isDigit] at h
    · rintro rfl
      simp [scanValue, scanWord, words, after, number, scanDecimal, scanSign, scanWhole,
        Char.isDigit] at h

theorem Reads.starts {t : List Char} {v : Py} (h : Reads (scanValue F nested) t v) :
    Starts ']' t := by
  have hread := h [] follows_nil
  rw [List.append_nil] at hread
  exact starts_of_scanValue F nested hread

/-- A field is read back if its value is. -/
theorem reads_field {st : Style} {k : Text} {t : List Char} {v : Py} (hk : Joined k)
    (h : Reads (scanValue F nested) t v) :
    Reads (scanField (scanValue F nested)) (fieldText st k t) (.str k, v) := by
  intro rest hrest
  have hstring := scanString_quote hk (':' :: (st.colon ++ (t ++ rest)))
  have hcolon : ∀ x, skipWs (':' :: x) = ':' :: x := fun x => by simp [skipWs, isWs]
  have hskip := (h.starts F nested).skipWs st.colon_ws (x := rest)
  simp only [fieldText, quote, List.cons_append, List.append_assoc, List.nil_append, scanField,
    if_true, hstring, hcolon, hskip, h rest hrest, Except.map]

theorem starts_fieldText (st : Style) (k : Text) (t : List Char) :
    Starts '\x7d' (fieldText st k t) := ⟨'"', _, rfl, rfl, by decide⟩

theorem decode_eq (d : Nat) : ∃ nested, decode F d = scanValue F nested := by
  cases d with
  | zero => exact ⟨_, rfl⟩
  | succ d => exact ⟨_, rfl⟩

theorem starts_of_reads {d : Nat} {ts : List (List Char)} {items : List Py}
    (h : List.Forall₂ (Reads (decode F d)) ts items) : ∀ t ∈ ts, Starts ']' t := by
  obtain ⟨nested, hd⟩ := decode_eq F d
  rw [hd] at h
  induction h with
  | nil => simp
  | cons hread _ ih =>
    intro t ht
    rcases List.mem_cons.mp ht with rfl | ht
    · exact hread.starts F nested
    · exact ih t ht

theorem reads_list {st : Style} {level d : Nat} {ts : List (List Char)} {items : List Py}
    (h : List.Forall₂ (Reads (decode F d)) ts items) :
    Reads (decode F (d + 1)) ('[' :: partsText st level ']' ts) (.list items) := by
  intro rest _
  have hparts := scanParts_partsText st level (by rfl) (by decide) (by rfl) h (starts_of_reads F h) rest
  simp only [List.cons_append, decode, scanValue, scanList, hparts]
  rfl

theorem reads_dict {st : Style} {level d : Nat} {ts : List (List Char)}
    {fields : List (Py.Key × Py)} (hnd : (fields.map Prod.fst).Nodup)
    (h : List.Forall₂ (Reads (scanField (decode F d))) ts fields)
    (hstarts : ∀ t ∈ ts, Starts '\x7d' t) :
    Reads (decode F (d + 1)) ('\x7b' :: partsText st level '\x7d' ts) (.dict fields) := by
  intro rest _
  have hparts := scanParts_partsText st level (by rfl) (by decide) (by rfl) h hstarts rest
  simp only [List.cons_append, decode, scanValue, scanObject, hparts, Except.map,
    Py.merge_of_nodup hnd]
  rfl

variable (st : Style) (depth : Nat)

mutual

/-- The text of an object is read as the object. -/
theorem reads_encode (level d : Nat) (v : Py) (hc : Canonical v) (he : Encodable d v)
    {t : List Char} (ht : encode F st depth level v = .ok t) : Reads (decode F d) t v := by
  match v with
  | .none =>
    obtain ⟨nested, hd⟩ := decode_eq F d
    cases ht
    rw [hd]
    exact reads_word F nested (w := (_, .none)) (by simp [words])
  | .bool b =>
    obtain ⟨nested, hd⟩ := decode_eq F d
    rw [hd]
    cases b with
    | true =>
      cases ht
      exact reads_word F nested (w := (_, .bool true)) (by simp [words])
    | false =>
      cases ht
      exact reads_word F nested (w := (_, .bool false)) (by simp [words])
  | .int i =>
    obtain ⟨nested, hd⟩ := decode_eq F d
    rw [Encodable] at he
    rw [encode, if_neg (Nat.not_lt.mpr he)] at ht
    cases ht
    rw [hd]
    exact reads_int F nested he
  | .float bits =>
    obtain ⟨nested, hd⟩ := decode_eq F d
    cases ht
    rw [hd]
    exact reads_float F nested hc
  | .str s =>
    obtain ⟨nested, hd⟩ := decode_eq F d
    cases ht
    rw [hd]
    exact reads_str F nested hc
  | .bytes _ => cases ht
  | .ext _ _ => cases ht
  | .list items =>
    obtain ⟨-, ts, hts, rfl⟩ := encode_list.mp ht
    obtain ⟨hroom, hitems⟩ := he
    obtain ⟨room, rfl⟩ : ∃ room, d = room + 1 := ⟨d - 1, by omega⟩
    exact reads_list F (reads_encodeItems (level + 1) room items hc hitems hts)
  | .dict fields =>
    obtain ⟨-, ts, hts, rfl⟩ := encode_dict.mp ht
    obtain ⟨hroom, hfields⟩ := he
    obtain ⟨room, rfl⟩ : ∃ room, d = room + 1 := ⟨d - 1, by omega⟩
    obtain ⟨hread, hstarts⟩ := reads_encodeFields (level + 1) room fields hc.2 hfields hts
    exact reads_dict F hc.1 hread hstarts

theorem reads_encodeItems (level d : Nat) (items : List Py) (hc : CanonicalItems items)
    (he : EncodableItems d items) {ts : List (List Char)}
    (hts : encodeItems F st depth level items = .ok ts) :
    List.Forall₂ (Reads (decode F d)) ts items := by
  match items with
  | [] =>
    cases hts
    exact .nil
  | v :: rest =>
    obtain ⟨t, ts, ht, hrest, rfl⟩ := encodeItems_cons.mp hts
    exact .cons (reads_encode level d v hc.1 he.1 ht)
      (reads_encodeItems level d rest hc.2 he.2 hrest)

theorem reads_encodeFields (level d : Nat) (fields : List (Py.Key × Py))
    (hc : CanonicalFields fields) (he : EncodableFields d fields) {ts : List (List Char)}
    (hts : encodeFields F st depth level fields = .ok ts) :
    List.Forall₂ (Reads (scanField (decode F d))) ts fields ∧ ∀ t ∈ ts, Starts '\x7d' t := by
  match fields with
  | [] =>
    cases hts
    exact ⟨.nil, by simp⟩
  | (k, v) :: rest =>
    obtain ⟨s, t, ts, rfl, ht, hrest, rfl⟩ := encodeFields_cons.mp hts
    obtain ⟨nested, hd⟩ := decode_eq F d
    obtain ⟨hread, hstarts⟩ := reads_encodeFields level d rest hc.2.2 he.2.2 hrest
    have hv := reads_encode level d v hc.2.1 he.2.1 ht
    refine ⟨.cons ?_ hread, ?_⟩
    · rw [hd] at hv ⊢
      exact reads_field F nested (hc.1 s rfl) hv
    · intro t' ht'
      rcases List.mem_cons.mp ht' with rfl | ht'
      · exact starts_fieldText st s t
      · exact hstarts t' ht'

end

/-- **`json.loads(json.dumps(v))` is `v`**, whatever the style. -/
theorem loads_dumps {d : Nat} {v : Py} {t : List Char} (hc : Canonical v) (he : Encodable d v)
    (ht : dumps F st depth v = .ok t) : loads F d t = .ok v := by
  have hread := reads_encode F st depth 0 d v hc he ht [] follows_nil
  rw [List.append_nil] at hread
  obtain ⟨nested, hd⟩ := decode_eq F d
  obtain ⟨c, tail, rfl, hws, -⟩ := starts_of_scanValue F nested (hd ▸ hread)
  have hskip : skipWs (c :: tail) = c :: tail := by simp [skipWs, hws]
  rw [loads, hskip, hread]
  rfl

end RoundTrip

/-! ## Every text that is read is joined -/

theorem isLow_head_join {u v : Nat} {rest : List Nat} (hv : v ∈ (join (u :: rest)).head?)
    (hlow : isLow v = true) : isLow u = true := by
  cases rest with
  | nil =>
    cases hv
    exact hlow
  | cons lo rest =>
    rw [join] at hv
    split at hv
    · rw [List.head?_cons, Option.mem_some_iff] at hv
      simp only [isLow, decide_eq_true_eq] at hlow
      omega
    · rw [List.head?_cons, Option.mem_some_iff] at hv
      rw [hv]
      exact hlow

theorem joined_cons {u : Nat} {s : Text} (hu : u < 0x110000)
    (hpair : ∀ v ∈ s.head?, ¬(isHigh u = true ∧ isLow v = true)) (hs : Joined s) :
    Joined (u :: s) := by
  refine ⟨List.forall_mem_cons.mpr ⟨hu, hs.1⟩, ?_⟩
  cases s with
  | nil => exact .singleton u
  | cons v s => exact .cons_cons (hpair v rfl) hs.2

theorem joined_join {units : List Nat} (h : ∀ u ∈ units, u < 0x110000) : Joined (join units) := by
  fun_induction join units with
  | case1 hi lo rest hpair ih =>
    have hrest := ih (fun u hu => h u (by simp [hu]))
    obtain ⟨hhi, hlo⟩ := hpair
    simp only [isHigh, isLow, decide_eq_true_eq] at hhi hlo
    refine joined_cons (by omega) ?_ hrest
    rintro v - ⟨hhigh, -⟩
    simp only [isHigh, decide_eq_true_eq] at hhigh
    omega
  | case2 hi lo rest hpair ih =>
    refine joined_cons (h hi (by simp)) ?_ (ih (fun u hu => h u (List.mem_cons_of_mem hi hu)))
    rintro v hv ⟨hhigh, hlow⟩
    exact hpair ⟨hhigh, isLow_head_join hv hlow⟩
  | case3 units hshort =>
    refine ⟨h, ?_⟩
    match units, hshort with
    | [], _ => exact .nil
    | [u], _ => exact .singleton u
    | hi :: lo :: rest, hshort => exact absurd rfl (hshort hi lo rest)

theorem hex4_lt {x rest : List Char} {u : Nat} (h : hex4 x = some (u, rest)) : u < 0x10000 := by
  unfold hex4 at h
  split at h
  · split at h
    · rename_i ha hb hc hd
      cases h
      have := hexDigit_lt ha
      have := hexDigit_lt hb
      have := hexDigit_lt hc
      have := hexDigit_lt hd
      omega
    · cases h
  · cases h

theorem scanUnit_lt {x rest : List Char} {u : Nat} (h : scanUnit x = .ok (some u, rest)) :
    u < 0x110000 := by
  unfold scanUnit at h
  split at h
  · cases h
  · rename_i c tail
    split at h
    · cases h
    · split at h
      · unfold scanEscape at h
        split at h
        · cases h
        · rename_i e _
          split at h
          · split at h
            · rename_i hhex
              cases h
              exact Nat.lt_trans (hex4_lt hhex) (by decide)
            · cases h
          · split at h
            · rename_i hescape
              cases h
              obtain ⟨before, after, hsplit, -⟩ := List.lookup_eq_some_iff.mp hescape
              have hsmall : ∀ p ∈ escapes, p.2 < 0x110000 := by decide
              exact hsmall (e, u) (by rw [hsplit]; simp)
            · cases h
      · split at h
        · cases h
        · cases h
          have hc : c.toNat < 0xd800 ∨ (0xdfff < c.toNat ∧ c.toNat < 0x110000) := c.valid
          omega

theorem joined_scanString {x rest : List Char} {s : Text} (h : scanString x = .ok (s, rest)) :
    Joined s := by
  unfold scanString at h
  split at h
  · cases h
  · rename_i units _ hunits
    cases h
    exact joined_join (forall_collect scanUnit_lt hunits)

theorem joined_scanValue {F : FloatFormat} {nested : Option (Scanner Py)} {x rest : List Char}
    {s : Text} (h : scanValue F nested x = .ok (.str s, rest)) : Joined s := by
  unfold scanValue at h
  split at h
  · cases h
  · split at h
    · obtain ⟨⟨s', rest'⟩, hs, hr⟩ := map_eq_ok h
      cases hr
      exact joined_scanString hs
    · split at h
      · split at h
        · cases h
        · obtain ⟨r, -, hr⟩ := map_eq_ok h
          cases hr
      · split at h
        · split at h
          · cases h
          · obtain ⟨r, -, hr⟩ := map_eq_ok h
            cases hr
        · split at h
          · rename_i hword
            cases h
            exact absurd rfl ((scalar_scanWord hword).2 s)
          · exact absurd rfl ((scalar_number h).2 s)

/-- The strings of an object that was read, its keys and its values. -/
theorem joined_loads {F : FloatFormat} {depth : Nat} {x : List Char} {fields : List (Py.Key × Py)}
    (h : loads F depth x = .ok (.dict fields)) :
    ∀ f ∈ fields, (∀ k, f.1 = .str k → Joined k) ∧ ∀ s, f.2 = .str s → Joined s := by
  intro f hf
  obtain ⟨d, x', rest', hfield⟩ := loads_fields h f hf
  obtain ⟨⟨k, _, _, hk, hstring⟩, x'', rest'', hvalue⟩ := scanField_parts hfield
  refine ⟨?_, ?_⟩
  · intro k' hk'
    cases hk.symm.trans hk'
    exact joined_scanString hstring
  · intro s hs
    rw [hs] at hvalue
    obtain ⟨nested, hd⟩ := decode_eq F d
    exact joined_scanValue (hd ▸ hvalue)

end Lib.Json
