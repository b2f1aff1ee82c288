/-
# The `n` greatest elements of a finite set

An element is among the `n` greatest when fewer than `n` elements are greater.  Read like that,
the greatest elements can be kept up to date: whoever has thrown away an element that was not
among them will never miss it, because sets only grow (`greatest_eq_of_subset`,
`not_mem_greatest_of_subset`).
-/
import Mathlib.Data.Finset.Max

namespace Greatest

variable {α : Type*} [LinearOrder α] {n : ℕ} {D E : Finset α} {i j : α}

/-- The elements greater than `i`. -/
def above (D : Finset α) (i : α) : Finset α := D.filter (i < ·)

/-- The `n` greatest elements, all of them if there are fewer. -/
def greatest (n : ℕ) (D : Finset α) : Finset α := D.filter fun i => (above D i).card < n

theorem mem_above : j ∈ above D i ↔ j ∈ D ∧ i < j := Finset.mem_filter

theorem mem_greatest : i ∈ greatest n D ↔ i ∈ D ∧ (above D i).card < n := Finset.mem_filter

theorem card_above_mono (h : E ⊆ D) (i : α) : (above E i).card ≤ (above D i).card :=
  Finset.card_le_card (Finset.filter_subset_filter _ h)

/-! ## 1. There are `n`, and they are greater than the others -/

/-- **There are `n` of them**, as long as there are `n` elements. -/
theorem card_greatest (n : ℕ) (D : Finset α) : (greatest n D).card = min n D.card := by
  induction D using Finset.induction_on_min with
  | empty => simp [greatest]
  | insert a D hmin ih =>
    have ha : a ∉ D := fun h => lt_irrefl a (hmin a h)
    -- nothing is greater for the new least element
    have habove : ∀ x ∈ D, above (insert a D) x = above D x := by
      intro x hx
      rw [above, Finset.filter_insert, if_neg (lt_asymm (hmin x hx))]
      rfl
    have hself : above (insert a D) a = D := by
      rw [above, Finset.filter_insert, if_neg (lt_irrefl a)]
      exact Finset.filter_true_of_mem hmin
    have hrest : D.filter (fun x => (above (insert a D) x).card < n) = greatest n D := by
      refine Finset.filter_congr ?_
      intro x hx
      rw [habove x hx]
    rw [greatest, Finset.filter_insert, hself, hrest, Finset.card_insert_of_notMem ha]
    split
    · rename_i hlt
      have hnot : a ∉ greatest n D := fun h => ha (mem_greatest.mp h).1
      rw [Finset.card_insert_of_notMem hnot, ih]
      omega
    · rw [ih]
      omega

/-- **They are greater than all the others.** -/
theorem lt_of_mem_greatest (hi : i ∈ greatest n D) (hj : j ∈ D) (hnot : j ∉ greatest n D) :
    j < i := by
  by_contra hle
  have hsub : above D j ⊆ above D i := by
    intro x hx
    obtain ⟨hxD, hlt⟩ := mem_above.mp hx
    exact mem_above.mpr ⟨hxD, lt_of_le_of_lt (not_lt.mp hle) hlt⟩
  refine hnot (mem_greatest.mpr ⟨hj, ?_⟩)
  exact lt_of_le_of_lt (Finset.card_le_card hsub) (mem_greatest.mp hi).2

/-- The greatest element is among them. -/
theorem mem_greatest_of_forall_le (hn : 0 < n) (hi : i ∈ D) (hmax : ∀ j ∈ D, j ≤ i) :
    i ∈ greatest n D := by
  have hnone : above D i = ∅ := by
    refine Finset.filter_eq_empty_iff.mpr ?_
    intro j hj
    exact not_lt.mpr (hmax j hj)
  rw [mem_greatest, hnone]
  exact ⟨hi, hn⟩

/-! ## 2. Growing sets -/

/-- What is no longer among the greatest never will be. -/
theorem not_mem_greatest_of_subset (h : D ⊆ E) (hi : i ∈ D) (hnot : i ∉ greatest n D) :
    i ∉ greatest n E := by
  intro hE
  exact hnot (mem_greatest.mpr ⟨hi, lt_of_le_of_lt (card_above_mono h i) (mem_greatest.mp hE).2⟩)

/-- Of the elements above `i` the greatest are the greatest elements that are above `i`. -/
theorem above_greatest (n : ℕ) (D : Finset α) (i : α) :
    above (greatest n D) i = greatest n (above D i) := by
  have habove : ∀ x, i < x → above (above D i) x = above D x := by
    intro x hx
    refine Finset.ext ?_
    intro y
    simp only [mem_above, and_assoc]
    exact ⟨fun h => ⟨h.1, h.2.2⟩, fun h => ⟨h.1, hx.trans h.2, h.2⟩⟩
  refine Finset.ext ?_
  intro x
  rw [mem_above, mem_greatest, mem_greatest, mem_above]
  constructor
  · rintro ⟨⟨hx, hlt⟩, hix⟩
    exact ⟨⟨hx, hix⟩, (habove x hix).symm ▸ hlt⟩
  · rintro ⟨⟨hx, hix⟩, hlt⟩
    exact ⟨⟨hx, habove x hix ▸ hlt⟩, hix⟩

/-- **Elements that are not among the greatest can be thrown away.** -/
theorem greatest_eq_of_subset (hsub : E ⊆ D) (htop : greatest n D ⊆ E) :
    greatest n E = greatest n D := by
  refine Finset.ext ?_
  intro j
  constructor
  · intro hj
    obtain ⟨hjE, hlt⟩ := mem_greatest.mp hj
    refine mem_greatest.mpr ⟨hsub hjE, ?_⟩
    -- otherwise the `n` greatest above `j` would all have been kept
    by_contra hge
    have hkept : (above (greatest n D) j).card ≤ (above E j).card := card_above_mono htop j
    rw [above_greatest, card_greatest, min_eq_left (not_lt.mp hge)] at hkept
    omega
  · intro hj
    refine mem_greatest.mpr ⟨htop hj, ?_⟩
    exact lt_of_le_of_lt (card_above_mono hsub j) (mem_greatest.mp hj).2

/-- **The greatest elements can be kept up to date.** -/
theorem greatest_insert (n : ℕ) (i : α) (D : Finset α) :
    greatest n (insert i (greatest n D)) = greatest n (insert i D) := by
  refine greatest_eq_of_subset (Finset.insert_subset_insert i (Finset.filter_subset _ D)) ?_
  intro j hj
  rcases Finset.mem_insert.mp (mem_greatest.mp hj).1 with rfl | hjD
  · exact Finset.mem_insert_self _ _
  · refine Finset.mem_insert_of_mem ?_
    by_contra hnot
    exact not_mem_greatest_of_subset (Finset.subset_insert i D) hjD hnot hj

end Greatest
