/-
# Decimal numerals as bytes: what `<<` prints and what `strtol` reads

`printInt` is the text `std::ostream` writes for an integer: an optional minus sign and the
decimal digits, with no leading zero.  `strtol` is the C function in base ten: it skips white
space, takes one optional sign, then as many digits as there are, and ignores whatever follows.
It has no value when there is no digit.  Both are over the unbounded integers here; a fixed
width is the caller's business.

Two facts connect them.  A text that is a number as a whole (`Numeral`) is read as that number,
so reading undoes printing (`strtol_printInt`).  And printing what was read never takes more
characters than there were (`length_printInt_le`), because the reader only ever drops something:
white space, a plus sign, leading zeros, the characters after the number.
-/
import Mathlib.Algebra.Order.Ring.Nat
import Mathlib.Data.List.Basic
import Mathlib.Data.List.Induction
import Mathlib.Data.List.TakeWhile
import Mathlib.Data.Nat.Notation

namespace Decimal

/-! ## 1. Characters -/

/-- `isspace` of the C locale: the blank, and the control characters from tab to carriage
return. -/
def isSpace (c : UInt8) : Bool := c == 32 || (9 ≤ c && c ≤ 13)

/-- `isdigit`. -/
def isDigit (c : UInt8) : Bool := 48 ≤ c && c ≤ 57

/-! ## 2. Printing and reading -/

/-- The decimal digits of a natural number. -/
def printNat (n : ℕ) : List UInt8 := (Nat.toDigits 10 n).map Char.toUInt8

/-- The text of an integer. -/
def printInt : ℤ → List UInt8
  | .ofNat n => printNat n
  | .negSucc n => '-'.toUInt8 :: printNat (n + 1)

/-- The value of a string of digits. -/
def digitsValue (ds : List UInt8) : ℕ := ds.foldl (fun v d => 10 * v + (d.toNat - 48)) 0

/-- An optional sign: whether it is a minus, and what follows it. -/
def readSign : List UInt8 → Bool × List UInt8
  | [] => (false, [])
  | c :: s =>
    if c = '-'.toUInt8 then (true, s) else if c = '+'.toUInt8 then (false, s) else (false, c :: s)

/-- The number after the white space and the sign, if there is a digit. -/
def readDigits (negative : Bool) (s : List UInt8) : Option ℤ :=
  let ds := s.takeWhile isDigit
  if ds = [] then none
  else if negative then some (-(digitsValue ds : ℤ)) else some (digitsValue ds : ℤ)

/-- `strtol(s, nullptr, 10)`, without the range of `long`. -/
def strtol (s : List UInt8) : Option ℤ :=
  let (negative, rest) := readSign (s.dropWhile isSpace)
  readDigits negative rest

/-! ## 3. The digits of a number -/

theorem isDigit_iff {c : UInt8} : isDigit c = true ↔ 48 ≤ c.toNat ∧ c.toNat ≤ 57 := by
  simp [isDigit, UInt8.le_iff_toNat_le]

theorem toNat_toUInt8 {c : Char} (h : c.isDigit = true) : c.toUInt8.toNat = c.toNat := by
  simp only [Char.isDigit, Bool.and_eq_true, decide_eq_true_eq, UInt32.le_iff_toNat_le] at h
  have hle : c.val.toNat ≤ 57 := h.2
  simp only [Char.toUInt8, UInt32.toNat_toUInt8, Char.toNat]
  omega

theorem isDigit_toUInt8 {c : Char} (h : c.isDigit = true) : isDigit c.toUInt8 = true := by
  rw [isDigit_iff, toNat_toUInt8 h]
  simpa [Char.isDigit, UInt32.le_iff_toNat_le] using h

theorem isDigit_of_mem_printNat {n : ℕ} {c : UInt8} (hc : c ∈ printNat n) : isDigit c = true := by
  obtain ⟨d, hd, rfl⟩ := List.mem_map.mp hc
  exact isDigit_toUInt8 (Nat.isDigit_of_mem_toDigits (by decide) (by decide) hd)

theorem printNat_ne_nil (n : ℕ) : printNat n ≠ [] := by
  simp [printNat, Nat.toDigits_ne_nil]

theorem digitsValue_printNat (n : ℕ) : digitsValue (printNat n) = n := by
  rw [digitsValue, printNat, List.foldl_map]
  refine Eq.trans ?_ (Nat.ofDigitChars_ten_toDigits (n := n))
  rw [Nat.ofDigitChars]
  refine List.foldl_ext _ _ _ ?_
  intro v c hc
  rw [toNat_toUInt8 (Nat.isDigit_of_mem_toDigits (by decide) (by decide) hc)]
  rfl

theorem digitsValue_append_singleton (ds : List UInt8) (d : UInt8) :
    digitsValue (ds ++ [d]) = 10 * digitsValue ds + (d.toNat - 48) := by
  simp [digitsValue, List.foldl_append]

/-- A string of digits is worth less than the power of ten of its length. -/
theorem digitsValue_lt {ds : List UInt8} (h : ∀ d ∈ ds, isDigit d = true) :
    digitsValue ds < 10 ^ ds.length := by
  induction ds using List.reverseRecOn with
  | nil => simp [digitsValue]
  | append_singleton ds d ih =>
    have hd : d.toNat ≤ 57 := (isDigit_iff.mp (h d (by simp))).2
    have ih' := ih fun c hc => h c (by simp [hc])
    rw [digitsValue_append_singleton, List.length_append, List.length_singleton, Nat.pow_succ]
    omega

theorem length_printNat_digitsValue_le {ds : List UInt8} (h : ∀ d ∈ ds, isDigit d = true)
    (hne : ds ≠ []) : (printNat (digitsValue ds)).length ≤ ds.length := by
  rw [printNat, List.length_map]
  exact (Nat.length_toDigits_le_iff (by decide) (List.length_pos_iff.mpr hne)).mpr
    (digitsValue_lt h)

/-! ## 4. Reading whole numbers -/

theorem readSign_of_isDigit {c : UInt8} {s : List UInt8} (hc : isDigit c = true) :
    readSign (c :: s) = (false, c :: s) := by
  have hminus : c ≠ '-'.toUInt8 := by rintro rfl; exact absurd hc (by decide)
  have hplus : c ≠ '+'.toUInt8 := by rintro rfl; exact absurd hc (by decide)
  rw [readSign, if_neg hminus, if_neg hplus]

theorem not_isSpace_of_isDigit {c : UInt8} (hc : isDigit c = true) : isSpace c = false := by
  have h48 : 48 ≤ c.toNat := (isDigit_iff.mp hc).1
  have h32 : c ≠ 32 := by rintro rfl; exact absurd h48 (by decide)
  have h13 : ¬ c ≤ 13 := fun h => by
    have : c.toNat ≤ 13 := UInt8.le_iff_toNat_le.mp h
    omega
  simp [isSpace, h32, h13]

/-- The text is, as a whole, an optionally signed decimal number. -/
inductive Numeral : List UInt8 → ℤ → Prop
  | unsigned {ds : List UInt8} (hne : ds ≠ []) (hds : ∀ d ∈ ds, isDigit d = true) :
      Numeral ds (digitsValue ds)
  | plus {ds : List UInt8} (hne : ds ≠ []) (hds : ∀ d ∈ ds, isDigit d = true) :
      Numeral ('+'.toUInt8 :: ds) (digitsValue ds)
  | minus {ds : List UInt8} (hne : ds ≠ []) (hds : ∀ d ∈ ds, isDigit d = true) :
      Numeral ('-'.toUInt8 :: ds) (-(digitsValue ds : ℤ))

theorem readDigits_of_digits {ds : List UInt8} (hne : ds ≠ []) (hds : ∀ d ∈ ds, isDigit d = true)
    (negative : Bool) :
    readDigits negative ds = some (if negative then -(digitsValue ds : ℤ) else digitsValue ds) := by
  have htake : ds.takeWhile isDigit = ds := List.takeWhile_eq_self_iff.mpr hds
  simp only [readDigits, htake, hne, if_false]
  split <;> rfl

/-- **A numeral is read as what it stands for.** -/
theorem strtol_of_numeral {s : List UInt8} {z : ℤ} (h : Numeral s z) : strtol s = some z := by
  cases h with
  | unsigned hne hds =>
    obtain ⟨c, ds, rfl⟩ := List.exists_cons_of_ne_nil hne
    have hc : isDigit c = true := hds c List.mem_cons_self
    have hread := readDigits_of_digits hne hds false
    simpa [strtol, not_isSpace_of_isDigit hc, readSign_of_isDigit hc] using hread
  | plus hne hds =>
    have hspace : isSpace '+'.toUInt8 = false := by decide
    have hminus : '+'.toUInt8 ≠ '-'.toUInt8 := by decide
    have hread := readDigits_of_digits hne hds false
    simpa [strtol, hspace, readSign, hminus] using hread
  | minus hne hds =>
    have hspace : isSpace '-'.toUInt8 = false := by decide
    have hread := readDigits_of_digits hne hds true
    simpa [strtol, hspace, readSign] using hread

theorem numeral_printInt (z : ℤ) : Numeral (printInt z) z := by
  cases z with
  | ofNat n =>
    have h := Numeral.unsigned (printNat_ne_nil n) fun d hd => isDigit_of_mem_printNat hd
    rwa [digitsValue_printNat] at h
  | negSucc n =>
    have h := Numeral.minus (printNat_ne_nil (n + 1)) fun d hd => isDigit_of_mem_printNat hd
    rwa [digitsValue_printNat] at h

/-- **Reading undoes printing**, over all the integers. -/
theorem strtol_printInt (z : ℤ) : strtol (printInt z) = some z :=
  strtol_of_numeral (numeral_printInt z)

theorem mem_printInt {z : ℤ} {c : UInt8} (hc : c ∈ printInt z) :
    c = '-'.toUInt8 ∨ isDigit c = true := by
  cases z with
  | ofNat n => exact Or.inr (isDigit_of_mem_printNat hc)
  | negSucc n =>
    rcases List.mem_cons.mp hc with rfl | hc
    · exact Or.inl rfl
    · exact Or.inr (isDigit_of_mem_printNat hc)

theorem printInt_ne_nil (z : ℤ) : printInt z ≠ [] := by
  cases z with
  | ofNat n => exact printNat_ne_nil n
  | negSucc n => exact List.cons_ne_nil _ _

/-! ## 5. Printing what was read is not longer -/

theorem length_printInt_neg_le (n : ℕ) :
    (printInt (-(n : ℤ))).length ≤ (printNat n).length + 1 := by
  cases n with
  | zero => exact Nat.le_succ _
  | succ n =>
    have hneg : (-((n + 1 : ℕ) : ℤ)) = Int.negSucc n := rfl
    rw [hneg, printInt, List.length_cons]

theorem length_readDigits_le {negative : Bool} {s : List UInt8} {z : ℤ}
    (h : readDigits negative s = some z) :
    (printInt z).length ≤ s.length + (if negative then 1 else 0) := by
  have hall : ∀ d ∈ s.takeWhile isDigit, isDigit d = true := fun d hd =>
    List.mem_takeWhile_imp hd
  have hlen : (s.takeWhile isDigit).length ≤ s.length :=
    (List.takeWhile_sublist isDigit).length_le
  simp only [readDigits] at h
  split at h
  · exact absurd h (by simp)
  · rename_i hne
    have hprint := length_printNat_digitsValue_le hall hne
    split at h <;> rename_i hneg <;> rw [Option.some.injEq] at h <;> subst h
    · have := length_printInt_neg_le (digitsValue (s.takeWhile isDigit))
      rw [if_pos hneg]
      omega
    · rw [if_neg hneg]
      exact hprint.trans hlen

/-- A sign that was read is a character that was there. -/
theorem length_readSign_le (s : List UInt8) :
    (readSign s).2.length + (if (readSign s).1 then 1 else 0) ≤ s.length := by
  cases s with
  | nil => simp [readSign]
  | cons c s =>
    rw [readSign]
    split
    · simp
    · split <;> simp

/-- **What was read prints in at most as many characters as there were.** -/
theorem length_printInt_le {s : List UInt8} {z : ℤ} (h : strtol s = some z) :
    (printInt z).length ≤ s.length := by
  have hdrop : (s.dropWhile isSpace).length ≤ s.length :=
    (List.dropWhile_sublist isSpace).length_le
  have hsign := length_readSign_le (s.dropWhile isSpace)
  have hdigits : (printInt z).length
      ≤ (readSign (s.dropWhile isSpace)).2.length
        + (if (readSign (s.dropWhile isSpace)).1 then 1 else 0) := length_readDigits_le h
  omega

end Decimal
