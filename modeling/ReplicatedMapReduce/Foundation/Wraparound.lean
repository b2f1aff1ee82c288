/-
# Loops over `int`, and the integers they compute with

`Int32.ofInt` takes an integer to the 32-bit two's complement number it is congruent to modulo
`2 ^ 32`, and an operation of `int` is the exact one followed by that.  For a loop that folds a
list into one number two things follow.

* With wraparound at every step, the loop still ends at the wrapped exact result
  (`foldl_ofInt`): the wraparounds on the way cannot be seen in it.
* Without any wraparound means: every exact result of every step, on the operands the step really
  has, is in the range of `int` (`steps`).  As long as that is so the accumulator is exact, so it
  says no more and no less than that the exact results of all initial parts of the list are in
  range (`inRange_steps_iff`).
-/
import Mathlib.Algebra.Order.Ring.Nat
import Mathlib.Data.Int.ModEq
import Mathlib.Data.List.Infix

namespace Wraparound

/-! ## 1. One number -/

/-- The range of a 32-bit signed integer. -/
def InRange (z : ℤ) : Prop := -2 ^ 31 ≤ z ∧ z < 2 ^ 31

instance : DecidablePred InRange := fun _ => inferInstanceAs (Decidable (_ ∧ _))

theorem inRange_toInt (w : Int32) : InRange w.toInt := ⟨w.le_toInt, w.toInt_lt⟩

theorem toInt_ofInt {z : ℤ} (h : InRange z) : (Int32.ofInt z).toInt = z :=
  Int32.toInt_ofInt_of_le h.1 h.2

/-- **The one 32-bit number that is congruent to an integer.** -/
theorem eq_ofInt_iff {w : Int32} {z : ℤ} : w = Int32.ofInt z ↔ w.toInt ≡ z [ZMOD 2 ^ 32] := by
  rw [eq_comm, Int32.ofInt_eq_iff_bmod_eq_toInt, Int.ModEq]
  constructor
  · intro h
    rw [← h]
    exact Int.bmod_emod
  · intro h
    calc z.bmod (2 ^ 32) = (z % 2 ^ 32).bmod (2 ^ 32) := (Int.emod_bmod z (2 ^ 32)).symm
      _ = (w.toInt % 2 ^ 32).bmod (2 ^ 32) := by rw [h]
      _ = w.toInt.bmod (2 ^ 32) := Int.emod_bmod w.toInt (2 ^ 32)
      _ = w.toInt := Int32.toInt_bmod w

/-! ## 2. A loop with wraparound -/

/-- **Wraparound on the way does not show in the result.** -/
theorem foldl_ofInt {g : Int32 → Int32 → Int32} {op : ℤ → ℤ → ℤ}
    (h : ∀ a b, g (Int32.ofInt a) (Int32.ofInt b) = Int32.ofInt (op a b)) (z : ℤ) (zs : List ℤ) :
    (zs.map Int32.ofInt).foldl g (Int32.ofInt z) = Int32.ofInt (zs.foldl op z) := by
  rw [List.foldl_map]
  exact List.foldl_hom Int32.ofInt fun a b => h a b

/-! ## 3. A loop without wraparound -/

/-- The exact results of the steps of a fold, each on the operands it really has. -/
def steps (g : Int32 → Int32 → Int32) (op : ℤ → ℤ → ℤ) : Int32 → List Int32 → List ℤ
  | _, [] => []
  | acc, w :: ws => op acc.toInt w.toInt :: steps g op (g acc w) ws

variable {g : Int32 → Int32 → Int32} {op : ℤ → ℤ → ℤ}

/-- **No step wraps around exactly when all initial parts of the list have exact results in
range.** -/
theorem inRange_steps_iff (h : ∀ a b, g a b = Int32.ofInt (op a.toInt b.toInt)) (acc : Int32)
    (ws : List Int32) :
    (∀ z ∈ steps g op acc ws, InRange z) ↔
      ∀ p ∈ (ws.map Int32.toInt).inits, InRange (p.foldl op acc.toInt) := by
  induction ws generalizing acc with
  | nil =>
    refine iff_of_true (fun z hz => absurd hz (by simp [steps])) ?_
    intro p hp
    obtain rfl : p = [] := by simpa using hp
    exact inRange_toInt acc
  | cons w ws ih =>
    rw [steps, List.forall_mem_cons, ih, List.map_cons, List.inits_cons, List.forall_mem_cons,
      List.forall_mem_map]
    have hacc : InRange (op acc.toInt w.toInt) → (g acc w).toInt = op acc.toInt w.toInt :=
      fun hrange => by rw [h, toInt_ofInt hrange]
    constructor
    · rintro ⟨hstep, hrest⟩
      refine ⟨inRange_toInt acc, fun p hp => ?_⟩
      have hp' := hrest p hp
      rw [hacc hstep] at hp'
      exact hp'
    · rintro ⟨-, hall⟩
      have hstep : InRange (op acc.toInt w.toInt) := hall [] (by simp)
      refine ⟨hstep, fun p hp => ?_⟩
      rw [hacc hstep]
      exact hall p hp

end Wraparound
