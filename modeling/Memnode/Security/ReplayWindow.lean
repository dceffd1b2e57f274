/-
Memnode.Security.ReplayWindow — the anti-replay window of
`security.ReplayWindow`.

`checkAndUpdate` is the source's bit manipulation. `Tracks w acc` says
what the three fields mean, for a set `acc` of accepted numbers: the
highest of them, and a bitmap whose bit `i` tells whether `highest - i`
is among them. `Tracks.checkAndUpdate` is the specification of one call
and `accepted_nodup` of a run: whatever is offered, nothing is accepted
twice. `window_meets_spec` says of any run which numbers it accepts next.
-/
import Mathlib.Data.Nat.Bitwise
import Mathlib.Data.Set.Insert

namespace Memnode.Security

/-- `ReplayWindow`. -/
structure ReplayWindow (size : Nat) where
  highest : Int
  bitmap : Nat
  seenAny : Bool
  deriving DecidableEq, Repr

namespace ReplayWindow

variable {size : Nat}

/-- `__init__`. -/
def init (size : Nat) : ReplayWindow size := ⟨0, 0, false⟩

/-- `check_and_update`. -/
def checkAndUpdate (w : ReplayWindow size) (seq : Int) : ReplayWindow size × Bool :=
  if seq < 0 ∨ seq > 0xFFFFFFFFFFFFFFFF then (w, false)
  else if w.seenAny = false then (⟨seq, 1, true⟩, true)
  else if seq > w.highest then
    let shift := (seq - w.highest).toNat
    let bitmap :=
      if shift ≥ size then 1 else (w.bitmap <<< shift ||| 1) &&& (1 <<< size - 1)
    (⟨seq, bitmap, true⟩, true)
  else
    let offset := (w.highest - seq).toNat
    if offset ≥ size then (w, false)
    else if w.bitmap &&& 1 <<< offset ≠ 0 then (w, false)
    else ({ w with bitmap := w.bitmap ||| 1 <<< offset }, true)

/-! ## What the fields mean -/

/-- The window records the accepted numbers `acc`. -/
structure Tracks (w : ReplayWindow size) (acc : Set Int) : Prop where
  none_seen : w.seenAny = false → acc = ∅
  highest_mem : w.seenAny = true → w.highest ∈ acc
  le_highest : ∀ s ∈ acc, s ≤ w.highest
  bits : w.seenAny = true → ∀ i < size, (w.bitmap.testBit i = true ↔ w.highest - i ∈ acc)

theorem tracks_init (size : Nat) : (init size).Tracks ∅ :=
  ⟨fun _ => rfl, by simp [init], by simp, by simp [init]⟩

theorem and_shiftLeft_ne_zero (b i : Nat) : b &&& 1 <<< i ≠ 0 ↔ b.testBit i = true := by
  rw [Nat.shiftLeft_eq, Nat.one_mul, Nat.and_two_pow]
  cases b.testBit i <;> simp

theorem testBit_one (i : Nat) : Nat.testBit 1 i = decide (i = 0) := by
  rw [Bool.eq_iff_iff, Nat.testBit_one_eq_true_iff_self_eq_zero, decide_eq_true_iff]

/-- Bit `i` after the window moved up by `shift` places. -/
theorem testBit_slide (b shift i : Nat) (hi : i < size) :
    ((b <<< shift ||| 1) &&& (1 <<< size - 1)).testBit i
      = (decide (i = 0) || decide (shift ≤ i) && b.testBit (i - shift)) := by
  rw [Nat.testBit_and, Nat.testBit_or, Nat.testBit_shiftLeft, Nat.shiftLeft_eq, Nat.one_mul,
    Nat.testBit_two_pow_sub_one, testBit_one]
  simp only [hi, decide_true, Bool.and_true, ge_iff_le]
  rw [Bool.or_comm]

/-- The four ways a call ends. -/
theorem checkAndUpdate_cases (w : ReplayWindow size) (seq : Int) :
    (w.checkAndUpdate seq = (w, false) ∧
      ((seq < 0 ∨ seq > 0xFFFFFFFFFFFFFFFF) ∨
        (w.seenAny = true ∧ seq ≤ w.highest ∧
          ((w.highest - seq).toNat ≥ size ∨ w.bitmap.testBit (w.highest - seq).toNat = true)))) ∨
    ((0 ≤ seq ∧ seq ≤ 0xFFFFFFFFFFFFFFFF) ∧ ∃ w', w.checkAndUpdate seq = (w', true) ∧
      w'.seenAny = true ∧
      ((w.seenAny = false ∧ w'.highest = seq ∧ w'.bitmap = 1) ∨
        (w.seenAny = true ∧ w.highest < seq ∧ w'.highest = seq ∧
          ∀ i < size, w'.bitmap.testBit i = (decide (i = 0) ||
            decide ((seq - w.highest).toNat ≤ i) && w.bitmap.testBit (i - (seq - w.highest).toNat))) ∨
        (w.seenAny = true ∧ seq ≤ w.highest ∧ w'.highest = w.highest ∧
          (w.highest - seq).toNat < size ∧ w.bitmap.testBit (w.highest - seq).toNat = false ∧
          ∀ i, w'.bitmap.testBit i
            = (w.bitmap.testBit i || decide ((w.highest - seq).toNat = i))))) := by
  by_cases hrange : seq < 0 ∨ seq > 0xFFFFFFFFFFFFFFFF
  · exact Or.inl ⟨by rw [checkAndUpdate, if_pos hrange], Or.inl hrange⟩
  have hin : 0 ≤ seq ∧ seq ≤ 0xFFFFFFFFFFFFFFFF := by omega
  by_cases hseen : w.seenAny = false
  · exact Or.inr ⟨hin, ⟨seq, 1, true⟩, by rw [checkAndUpdate, if_neg hrange, if_pos hseen], rfl,
      Or.inl ⟨hseen, rfl, rfl⟩⟩
  have hseen' : w.seenAny = true := by simpa using hseen
  by_cases hgt : seq > w.highest
  · refine Or.inr ⟨hin, _, by rw [checkAndUpdate, if_neg hrange, if_neg hseen, if_pos hgt], rfl,
      Or.inr (Or.inl ⟨hseen', hgt, rfl, fun i hi => ?_⟩)⟩
    by_cases hsh : (seq - w.highest).toNat ≥ size
    · have hfar : ¬ (seq - w.highest).toNat ≤ i := by omega
      simp only [hsh, if_true, hfar, decide_false, Bool.false_and, Bool.or_false,
        testBit_one]
    · simp only [hsh, if_false]
      exact testBit_slide _ _ _ hi
  have hle : seq ≤ w.highest := by omega
  by_cases hold : (w.highest - seq).toNat ≥ size
  · exact Or.inl ⟨by simp only [checkAndUpdate, if_neg hrange, if_neg hseen, if_neg hgt, if_pos hold],
      Or.inr ⟨hseen', hle, Or.inl hold⟩⟩
  by_cases hbit : w.bitmap &&& 1 <<< (w.highest - seq).toNat ≠ 0
  · exact Or.inl ⟨by simp only [checkAndUpdate, if_neg hrange, if_neg hseen, if_neg hgt, if_neg hold,
      if_pos hbit], Or.inr ⟨hseen', hle, Or.inr ((and_shiftLeft_ne_zero _ _).mp hbit)⟩⟩
  · refine Or.inr ⟨hin, { w with bitmap := w.bitmap ||| 1 <<< (w.highest - seq).toNat },
      by simp only [checkAndUpdate, if_neg hrange, if_neg hseen, if_neg hgt, if_neg hold,
        if_neg hbit], hseen', Or.inr (Or.inr ⟨hseen', hle, rfl, by omega, ?_, fun i => ?_⟩)⟩
    · simpa using fun hset => hbit ((and_shiftLeft_ne_zero _ _).mpr hset)
    · show (w.bitmap ||| 1 <<< _).testBit i = _
      rw [Nat.testBit_or, Nat.shiftLeft_eq, Nat.one_mul, Nat.testBit_two_pow]

/-! ## One call -/

/-- A refused number leaves the window as it is. -/
theorem eq_of_checkAndUpdate_false {w w' : ReplayWindow size} {seq : Int}
    (h : w.checkAndUpdate seq = (w', false)) : w' = w := by
  rcases w.checkAndUpdate_cases seq with ⟨heq, _⟩ | ⟨_, w'', heq, _⟩
  · rw [heq] at h
    exact (Prod.mk.inj h).1.symm
  · rw [heq] at h
    cases h

/-- What was accepted is not accepted again. -/
theorem Tracks.reject {w : ReplayWindow size} {acc : Set Int} (h : w.Tracks acc) {seq : Int}
    (hseq : seq ∈ acc) : w.checkAndUpdate seq = (w, false) := by
  rcases w.checkAndUpdate_cases seq with ⟨heq, _⟩ | ⟨_, w', _, _, hcase⟩
  · exact heq
  · exfalso
    have hle := h.le_highest seq hseq
    rcases hcase with ⟨hno, _⟩ | ⟨_, hgt, _⟩ | ⟨hseen, _, _, hoff, hbit, _⟩
    · rw [h.none_seen hno] at hseq
      exact hseq
    · omega
    · have hiff := h.bits hseen _ hoff
      rw [Int.toNat_of_nonneg (by omega), sub_sub_cancel] at hiff
      rw [hiff.mpr hseq] at hbit
      cases hbit

/-- A number above all accepted ones is accepted. -/
theorem Tracks.accept {w : ReplayWindow size} {acc : Set Int} (h : w.Tracks acc) {seq : Int}
    (h0 : 0 ≤ seq) (hmax : seq < 2 ^ 64) (hnew : ∀ s ∈ acc, s < seq) :
    (w.checkAndUpdate seq).2 = true := by
  rcases w.checkAndUpdate_cases seq with ⟨_, hout | ⟨hseen, hle, _⟩⟩ | ⟨_, w', heq, _⟩
  · omega
  · have := hnew _ (h.highest_mem hseen)
    omega
  · rw [heq]

/-- An accepted number joins the set. -/
theorem Tracks.checkAndUpdate {w w' : ReplayWindow size} {acc : Set Int} (h : w.Tracks acc)
    {seq : Int} (heq : w.checkAndUpdate seq = (w', true)) : w'.Tracks (insert seq acc) := by
  rcases w.checkAndUpdate_cases seq with ⟨heq', _⟩ | ⟨_, w'', heq', hseen', hcase⟩
  · rw [heq'] at heq; cases heq
  obtain rfl : w'' = w' := by rw [heq'] at heq; exact (Prod.mk.inj heq).1
  rcases hcase with ⟨hno, htop, hbits⟩ | ⟨hseen, hgt, htop, hbits⟩ | ⟨hseen, hle, htop, hoff, _, hbits⟩
  · -- the first number ever
    rw [h.none_seen hno]
    refine ⟨by simp [hseen'], fun _ => by simp [htop],
      by simp [htop], fun _ i hi => ?_⟩
    rw [hbits, htop, testBit_one]
    simp only [decide_eq_true_eq, Set.mem_insert_iff, Set.mem_empty_iff_false, or_false]
    omega
  · -- the window moves up
    refine ⟨by simp [hseen'], fun _ => by simp [htop],
      fun s hs => ?_, fun _ i hi => ?_⟩
    · rcases hs with rfl | hs
      · omega
      · have := h.le_highest s hs
        omega
    · rw [hbits i hi, htop]
      simp only [Bool.or_eq_true, decide_eq_true_eq, Bool.and_eq_true, Set.mem_insert_iff]
      have hzero : seq - (i : Int) = seq ↔ i = 0 := by omega
      rw [hzero]
      apply or_congr_right
      constructor
      · rintro ⟨hsh, hbit⟩
        have := (h.bits hseen (i - (seq - w.highest).toNat) (by omega)).mp hbit
        rwa [show w.highest - ((i - (seq - w.highest).toNat : Nat) : Int) = seq - i by omega] at this
      · intro hmem
        have hle := h.le_highest _ hmem
        have hsh : (seq - w.highest).toNat ≤ i := by omega
        refine ⟨hsh, (h.bits hseen _ (by omega)).mpr ?_⟩
        rwa [show w.highest - ((i - (seq - w.highest).toNat : Nat) : Int) = seq - i by omega]
  · -- a hole inside the window is filled
    refine ⟨by simp [hseen'],
      fun _ => by rw [htop]; exact Set.mem_insert_of_mem _ (h.highest_mem hseen),
      fun s hs => ?_, fun _ i hi => ?_⟩
    · rcases hs with rfl | hs
      · omega
      · have := h.le_highest s hs
        omega
    · rw [hbits i, htop]
      simp only [Bool.or_eq_true, decide_eq_true_eq, Set.mem_insert_iff, h.bits hseen i hi]
      have hhole : (w.highest - seq).toNat = i ↔ w.highest - (i : Int) = seq := by omega
      rw [hhole, or_comm]

/-! ## Runs -/

/-- The numbers of a list that the window accepts, in order. -/
def accepted (w : ReplayWindow size) : List Int → List Int
  | [] => []
  | s :: rest =>
      match w.checkAndUpdate s with
      | (w', true) => s :: accepted w' rest
      | (w', false) => accepted w' rest

/-- No run accepts a number twice. -/
theorem accepted_nodup {w : ReplayWindow size} {acc : Set Int} (h : w.Tracks acc)
    (seqs : List Int) : (w.accepted seqs).Nodup ∧ ∀ s ∈ w.accepted seqs, s ∉ acc := by
  induction seqs generalizing w acc with
  | nil => simp [accepted]
  | cons s rest ih =>
    rcases hc : w.checkAndUpdate s with ⟨w', ok⟩
    cases ok with
    | false =>
      obtain rfl := eq_of_checkAndUpdate_false hc
      simpa only [accepted, hc] using ih h
    | true =>
      obtain ⟨hnd, hnew⟩ := ih (h.checkAndUpdate hc)
      have hs : s ∉ acc := fun hmem => by rw [h.reject hmem] at hc; cases hc
      simp only [accepted, hc, List.nodup_cons, List.mem_cons]
      refine ⟨⟨fun hmem => hnew s hmem (Set.mem_insert _ _), hnd⟩, ?_⟩
      rintro t (rfl | ht)
      · exact hs
      · exact fun hmem => hnew t ht (Set.mem_insert_of_mem _ hmem)

/-- The window after a list of calls. -/
def run (w : ReplayWindow size) (seqs : List Int) : ReplayWindow size :=
  seqs.foldl (fun w s => (w.checkAndUpdate s).1) w

/-- After a run the window records what it recorded before and what the
run accepted. -/
theorem Tracks.run {w : ReplayWindow size} {acc : Set Int} (h : w.Tracks acc) (seqs : List Int) :
    (w.run seqs).Tracks (acc ∪ {s | s ∈ w.accepted seqs}) := by
  induction seqs generalizing w acc with
  | nil => simpa [ReplayWindow.run, accepted] using h
  | cons s rest ih =>
    rcases hc : w.checkAndUpdate s with ⟨w', ok⟩
    have hrun : w.run (s :: rest) = w'.run rest := by
      simp only [ReplayWindow.run, List.foldl_cons, hc]
    rw [hrun]
    cases ok with
    | false =>
      obtain rfl := eq_of_checkAndUpdate_false hc
      simpa only [accepted, hc] using ih h
    | true =>
      have hset : acc ∪ {t | t ∈ w.accepted (s :: rest)}
          = insert s acc ∪ {t | t ∈ w'.accepted rest} := by
        ext t
        simp only [accepted, hc, Set.mem_union, Set.mem_ofPred_eq, List.mem_cons, Set.mem_insert_iff]
        tauto
      rw [hset]
      exact ih (h.checkAndUpdate hc)

/-! ## The specification -/

/-- The answer of one call: fresh, in range, and not too far behind. -/
theorem Tracks.accepts_iff {w : ReplayWindow size} {acc : Set Int} (h : w.Tracks acc) (seq : Int) :
    (w.checkAndUpdate seq).2 = true ↔
      0 ≤ seq ∧ seq < 2 ^ 64 ∧ seq ∉ acc ∧ (w.seenAny = true → w.highest - size < seq) := by
  rcases w.checkAndUpdate_cases seq with ⟨heq, hwhy⟩ | ⟨hrange, w', heq, _, hcase⟩
  · rw [heq]
    refine ⟨fun hok => (by cases hok), fun ⟨h0, hmax, hfresh, hnear⟩ => ?_⟩
    rcases hwhy with hout | ⟨hseen, hle, hfar | hbit⟩
    · omega
    · have := hnear hseen
      omega
    · -- the bit of `seq` is set, so it has been accepted
      have hoff : (w.highest - seq).toNat < size := by
        have := hnear hseen
        omega
      have hmem := (h.bits hseen _ hoff).mp hbit
      rw [Int.toNat_of_nonneg (by omega), sub_sub_cancel] at hmem
      exact absurd hmem hfresh
  · rw [heq]
    refine ⟨fun _ => ⟨hrange.1, by omega, fun hmem => ?_, fun hseen => ?_⟩, fun _ => rfl⟩
    · rw [h.reject hmem] at heq
      cases heq
    · rcases hcase with ⟨hno, _⟩ | ⟨_, hgt, _⟩ | ⟨_, hle, _, hoff, _⟩
      · rw [hseen] at hno
        cases hno
      · omega
      · omega

/-- The bitmap has no bit beyond the window. -/
theorem bitmap_lt_checkAndUpdate {w : ReplayWindow size} (hsize : 1 ≤ size)
    (h : w.bitmap < 2 ^ size) (seq : Int) : (w.checkAndUpdate seq).1.bitmap < 2 ^ size := by
  have hone : 1 < 2 ^ size := Nat.one_lt_two_pow (by omega)
  unfold checkAndUpdate
  split
  · exact h
  split
  · exact hone
  split
  · simp only
    split
    · exact hone
    · refine Nat.lt_of_le_of_lt Nat.and_le_right ?_
      rw [Nat.shiftLeft_eq, Nat.one_mul]
      omega
  simp only
  split
  · exact h
  split
  · exact h
  · rename_i hoff _
    refine Nat.or_lt_two_pow h ?_
    rw [Nat.shiftLeft_eq, Nat.one_mul]
    exact Nat.pow_lt_pow_right (by decide) (Nat.lt_of_not_ge hoff)

theorem bitmap_lt_run {w : ReplayWindow size} (hsize : 1 ≤ size) (h : w.bitmap < 2 ^ size)
    (seqs : List Int) : (w.run seqs).bitmap < 2 ^ size := by
  induction seqs generalizing w with
  | nil => exact h
  | cons s rest ih => exact ih (bitmap_lt_checkAndUpdate hsize h s)

/-- A run after which nothing has been seen accepted nothing. -/
theorem run_eq_self {w : ReplayWindow size} {seqs : List Int} (h : (w.run seqs).seenAny = false) :
    w.run seqs = w := by
  induction seqs generalizing w with
  | nil => rfl
  | cons s rest ih =>
    have hrest : (w.checkAndUpdate s).1.run rest = (w.checkAndUpdate s).1 := ih h
    replace h : ((w.checkAndUpdate s).1.run rest).seenAny = false := h
    show (w.checkAndUpdate s).1.run rest = w
    rcases w.checkAndUpdate_cases s with ⟨heq, _⟩ | ⟨_, w', heq, hseen, _⟩
    · rw [heq] at hrest ⊢
      exact hrest
    · -- an accepted number sets the flag, and nothing clears it
      rw [hrest, heq, hseen] at h
      cases h

/-- **The window meets its specification.** After any calls, of which
`acc` were accepted: the next one is accepted exactly when its number is
a 64-bit one, has not been accepted, and is less than `size` behind the
highest accepted, if there is one; the bitmap has `size` bits, and bit
`i` tells whether the `i`-th number below the highest has been accepted;
and no number has been accepted twice. -/
theorem window_meets_spec (size : Nat) (hsize : 1 ≤ size) (seqs : List Int) :
    let w := (init size).run seqs
    let acc := (init size).accepted seqs
    (∀ seq, (w.checkAndUpdate seq).2 = true ↔
      0 ≤ seq ∧ seq < 2 ^ 64 ∧ seq ∉ acc ∧ ∀ H ∈ acc.max?, seq > H - size) ∧
    w.bitmap < 2 ^ size ∧ (acc = [] → w.bitmap = 0) ∧
    (∀ H ∈ acc.max?, ∀ i < size, w.bitmap.testBit i = true ↔ H - i ∈ acc) ∧
    acc.Nodup := by
  intro w acc
  have htracks : w.Tracks {s | s ∈ acc} := by
    have h := (tracks_init size).run seqs
    rwa [Set.empty_union] at h
  -- the field `_highest` is the maximum once something has been accepted
  have hmax : ∀ H, H ∈ acc.max? ↔ w.seenAny = true ∧ w.highest = H := by
    intro H
    rw [Option.mem_def, List.max?_eq_some_iff]
    constructor
    · rintro ⟨hmem, htop⟩
      have hseen : w.seenAny = true := by
        by_contra hno
        have hnone : H ∈ ({s | s ∈ acc} : Set Int) := hmem
        rw [htracks.none_seen (by simpa using hno)] at hnone
        exact hnone
      exact ⟨hseen, le_antisymm (htop _ (htracks.highest_mem hseen)) (htracks.le_highest H hmem)⟩
    · rintro ⟨hseen, rfl⟩
      exact ⟨htracks.highest_mem hseen, htracks.le_highest⟩
  refine ⟨fun seq => ?_, bitmap_lt_run hsize (Nat.two_pow_pos size) seqs, fun hnil => ?_,
    fun H hH i hi => ?_, (accepted_nodup (tracks_init size) seqs).1⟩
  · rw [htracks.accepts_iff seq]
    simp only [hmax]
    constructor
    · rintro ⟨h0, hlt, hfresh, hnear⟩
      exact ⟨h0, hlt, hfresh, fun H ⟨hseen, htop⟩ => htop ▸ hnear hseen⟩
    · rintro ⟨h0, hlt, hfresh, hnear⟩
      exact ⟨h0, hlt, hfresh, fun hseen => hnear _ ⟨hseen, rfl⟩⟩
  · have hno : w.seenAny = false := by
      by_contra hseen
      have hmem : w.highest ∈ acc := htracks.highest_mem (by simpa using hseen)
      rw [hnil] at hmem
      cases hmem
    show (run (init size) seqs).bitmap = 0
    rw [run_eq_self hno]
    rfl
  · obtain ⟨hseen, rfl⟩ := (hmax H).mp hH
    exact htracks.bits hseen i hi

/-- A window of two: a jump, a hole filled, a replay and a number too old. -/
theorem window_meets_spec_two :
    (init 2).accepted [5, 7, 6, 6, 5, 4] = [5, 7, 6] ∧
      (((init 2).run [5, 7, 6, 6, 5, 4]).checkAndUpdate 8).2 = true := by
  have hspec := window_meets_spec 2 (by decide) [5, 7, 6, 6, 5, 4]
  exact ⟨by decide, (hspec.1 8).mpr ⟨by decide, by decide, by decide, by decide⟩⟩

end ReplayWindow

end Memnode.Security
