/-
# A window of a log

A log that is compacted at its front and grows at its end is at every moment a window: the
entries from index `first` on, one after the other, up to but not including `next`.  Indices
never change, so an entry is asked for by its index and found exactly while the window is over
it.

There are four ways to move a window.  `append` adds an entry at its end, `overwrite i` replaces
everything from `i` on by one entry, `patch i` lays a list of entries over it from `i` on, and
`compact i` forgets everything up to `i`, and moves the window behind `i` even if there is nothing
to forget.  What each of them does is said once by what `get` answers afterwards.
-/
import Mathlib.Data.List.Basic
import Mathlib.Data.Nat.Notation

/-- The entries of a log that are still there, the first of them at index `first`. -/
structure Window (α : Type*) where
  first : ℕ
  entries : List α
  deriving DecidableEq

namespace Window

variable {α : Type*}

/-! ## 1. Definitions -/

/-- The index the next entry will have. -/
def next (w : Window α) : ℕ := w.first + w.entries.length

/-- The entry at an index. -/
def get (w : Window α) (i : ℕ) : Option α :=
  if i < w.first then none else w.entries[i - w.first]?

def append (w : Window α) (a : α) : Window α := ⟨w.first, w.entries ++ [a]⟩

def overwrite (w : Window α) (i : ℕ) (a : α) : Window α :=
  ⟨w.first, w.entries.take (i - w.first) ++ [a]⟩

/-- The entries `es` over the window, from `i` on.  Where the window is empty it moves there. -/
def patch (w : Window α) (i : ℕ) (es : List α) : Window α :=
  if w.entries = [] then ⟨i, es⟩
  else
    ⟨min w.first i,
      w.entries.take (i - w.first) ++ es ++ w.entries.drop (i + es.length - w.first)⟩

def compact (w : Window α) (i : ℕ) : Window α :=
  if i < w.first then w else ⟨i + 1, w.entries.drop (i + 1 - w.first)⟩

/-- The entries from `i` on, up to but not including `j`. -/
def slice (w : Window α) (i j : ℕ) : List α := (w.entries.drop (i - w.first)).take (j - i)

/-! ## 2. What is found in a window -/

theorem first_le_next (w : Window α) : w.first ≤ w.next := Nat.le_add_right _ _

theorem get_eq_none_iff {w : Window α} {i : ℕ} : w.get i = none ↔ i < w.first ∨ w.next ≤ i := by
  rw [get, next]
  split
  · exact iff_of_true rfl (Or.inl ‹_›)
  · rw [List.getElem?_eq_none_iff]
    omega

/-- An entry is found while the window is over its index. -/
theorem isSome_get_iff {w : Window α} {i : ℕ} :
    (w.get i).isSome ↔ w.first ≤ i ∧ i < w.next := by
  rw [Option.isSome_iff_ne_none, ne_eq, get_eq_none_iff]
  omega

/-! ## 3. What moving a window does -/

theorem next_append (w : Window α) (a : α) : (w.append a).next = w.next + 1 := by
  rw [next, next, append, List.length_append, List.length_singleton, Nat.add_assoc]

theorem get_append (w : Window α) (a : α) (i : ℕ) :
    (w.append a).get i = if i = w.next then some a else w.get i := by
  rw [get, get, append, next]
  dsimp only
  rcases Nat.lt_or_ge i w.first with hlt | hge
  · rw [if_pos hlt, if_pos hlt, if_neg (by omega)]
  · have hnot : ¬ i < w.first := Nat.not_lt.mpr hge
    rw [if_neg hnot, if_neg hnot]
    rcases Nat.lt_trichotomy i (w.first + w.entries.length) with hin | hend | hbeyond
    · rw [if_neg (by omega), List.getElem?_append_left (by omega)]
    · rw [if_pos hend, show i - w.first = w.entries.length by omega,
        List.getElem?_append_right (Nat.le_refl _), Nat.sub_self]
      rfl
    · have hsingle : [a].length ≤ i - w.first - w.entries.length := by
        rw [List.length_singleton]
        omega
      rw [if_neg (by omega), List.getElem?_append_right (by omega),
        List.getElem?_eq_none hsingle, List.getElem?_eq_none (by omega)]

theorem next_overwrite {w : Window α} {i : ℕ} (h1 : w.first ≤ i) (h2 : i ≤ w.next) (a : α) :
    (w.overwrite i a).next = i + 1 := by
  rw [next] at h2
  rw [next, overwrite, List.length_append, List.length_take, List.length_singleton]
  dsimp only
  omega

theorem get_overwrite {w : Window α} {i : ℕ} (h1 : w.first ≤ i) (h2 : i ≤ w.next) (a : α)
    (j : ℕ) :
    (w.overwrite i a).get j = if j = i then some a else if j < i then w.get j else none := by
  have htake : w.overwrite i a = (⟨w.first, w.entries.take (i - w.first)⟩ : Window α).append a :=
    rfl
  have hlen : (⟨w.first, w.entries.take (i - w.first)⟩ : Window α).next = i := by
    rw [next] at h2 ⊢
    rw [List.length_take]
    dsimp only
    omega
  rw [htake, get_append, hlen]
  split
  · rfl
  · rw [get, get]
    dsimp only
    rw [List.getElem?_take]
    split
    · split <;> rfl
    · split
      · rw [if_pos (by omega)]
      · rw [if_neg (by omega)]

theorem get_of_nil {w : Window α} (h : w.entries = []) (i : ℕ) : w.get i = none := by
  rw [get_eq_none_iff, next, h, List.length_nil]
  omega

/-- There is no gap between the window and the entries laid over it. -/
def Touches (w : Window α) (i n : ℕ) : Prop := w.entries = [] ∨ i ≤ w.next ∧ w.first ≤ i + n

theorem first_patch {w : Window α} {i : ℕ} {es : List α} :
    (w.patch i es).first = if w.entries = [] then i else min w.first i := by
  rw [patch]
  split <;> rfl

theorem next_patch {w : Window α} {i : ℕ} {es : List α} (h : w.Touches i es.length) :
    (w.patch i es).next = if w.entries = [] then i + es.length else max w.next (i + es.length) := by
  rw [patch]
  split
  · rfl
  · rename_i hne
    obtain ⟨h1, h2⟩ := h.resolve_left hne
    rw [next] at h1
    rw [next, next, List.length_append, List.length_append, List.length_take, List.length_drop]
    dsimp only
    omega

theorem get_patch {w : Window α} {i : ℕ} {es : List α} (h : w.Touches i es.length) (j : ℕ) :
    (w.patch i es).get j = if i ≤ j ∧ j < i + es.length then es[j - i]? else w.get j := by
  by_cases hempty : w.entries = []
  · rw [patch, if_pos hempty, get_of_nil hempty, get]
    dsimp only
    split
    · rw [if_neg (by omega)]
    · split
      · rfl
      · exact List.getElem?_eq_none (by omega)
  · obtain ⟨h1, h2⟩ := h.resolve_left hempty
    rw [next] at h1
    have htake : (w.entries.take (i - w.first)).length = i - w.first := by
      rw [List.length_take]
      omega
    have hboth : (w.entries.take (i - w.first) ++ es).length = i - w.first + es.length := by
      rw [List.length_append, htake]
    rw [patch, if_neg hempty, get, get]
    dsimp only
    rcases Nat.lt_or_ge j i with hbefore | hafter
    · -- in front of the new entries
      rw [if_neg (show ¬ (i ≤ j ∧ j < i + es.length) by omega)]
      rcases Nat.lt_or_ge j w.first with hlt | hge
      · rw [if_pos hlt]
        split
        · rfl
        · omega
      · rw [if_neg (show ¬ j < min w.first i by omega), if_neg (show ¬ j < w.first by omega),
          List.getElem?_append_left (by omega), List.getElem?_append_left (by omega),
          List.getElem?_take, if_pos (by omega), show j - min w.first i = j - w.first by omega]
    · rw [if_neg (show ¬ j < min w.first i by omega)]
      rcases Nat.lt_or_ge j (i + es.length) with hin | hbehind
      · rw [if_pos ⟨hafter, hin⟩, List.getElem?_append_left (by omega),
          List.getElem?_append_right (by omega), htake,
          show j - min w.first i - (i - w.first) = j - i by omega]
      · rw [if_neg (show ¬ (i ≤ j ∧ j < i + es.length) by omega),
          if_neg (show ¬ j < w.first by omega), List.getElem?_append_right (by omega), hboth,
          List.getElem?_drop,
          show i + es.length - w.first + (j - min w.first i - (i - w.first + es.length))
            = j - w.first by omega]

theorem first_compact (w : Window α) (i : ℕ) : (w.compact i).first = max w.first (i + 1) := by
  rw [compact]
  split
  · rw [Nat.max_eq_left (by omega)]
  · rw [Nat.max_eq_right (by omega)]

theorem next_compact (w : Window α) (i : ℕ) : (w.compact i).next = max w.next (i + 1) := by
  have hle := w.first_le_next
  rw [compact]
  split
  · rw [Nat.max_eq_left (by omega)]
  · rw [next, next] at *
    rw [List.length_drop]
    dsimp only
    omega

theorem get_compact (w : Window α) (i j : ℕ) :
    (w.compact i).get j = if j ≤ i then none else w.get j := by
  rw [compact]
  split
  · split
    · rw [get, if_pos (by omega)]
    · rfl
  · rw [get, get]
    dsimp only
    split
    · rw [if_pos (by omega)]
    · rw [if_neg (by omega), if_neg (by omega), List.getElem?_drop,
        show i + 1 - w.first + (j - (i + 1)) = j - w.first by omega]

/-! ## 4. Slices -/

theorem length_slice {w : Window α} {i j : ℕ} (h1 : w.first ≤ i) (h2 : j ≤ w.next) :
    (w.slice i j).length = j - i := by
  rw [next] at h2
  rw [slice, List.length_take, List.length_drop]
  omega

theorem getElem?_slice {w : Window α} {i : ℕ} (h : w.first ≤ i) (j k : ℕ) :
    (w.slice i j)[k]? = if i + k < j then w.get (i + k) else none := by
  rw [slice, List.getElem?_take, List.getElem?_drop, get]
  split
  · rw [if_pos (by omega), if_neg (by omega), show i - w.first + k = i + k - w.first by omega]
  · rw [if_neg (by omega)]

/-- **A slice is made of the entries one after the other.** -/
theorem slice_eq_cons {w : Window α} {i j : ℕ} {a : α} (hij : i < j) (ha : w.get i = some a) :
    w.slice i j = a :: w.slice (i + 1) j := by
  have hfirst : w.first ≤ i := (isSome_get_iff.mp (by rw [ha]; rfl)).1
  refine List.ext_getElem? ?_
  intro k
  cases k with
  | zero => rw [getElem?_slice hfirst, Nat.add_zero, if_pos hij, ha, List.getElem?_cons_zero]
  | succ k =>
    rw [List.getElem?_cons_succ, getElem?_slice hfirst, getElem?_slice (by omega),
      show i + 1 + k = i + (k + 1) by omega]

/-- A slice grows at its end by the next entry. -/
theorem slice_succ {w : Window α} {i j : ℕ} {a : α} (hfirst : w.first ≤ i) (hij : i ≤ j)
    (ha : w.get j = some a) : w.slice i (j + 1) = w.slice i j ++ [a] := by
  have hin : w.first ≤ j ∧ j < w.next := isSome_get_iff.mp (by rw [ha]; rfl)
  have hlen : (w.slice i j).length = j - i := length_slice hfirst (Nat.le_of_lt hin.2)
  refine List.ext_getElem? ?_
  intro k
  rw [getElem?_slice hfirst]
  rcases Nat.lt_trichotomy (i + k) j with hlt | heq | hgt
  · rw [if_pos (by omega), List.getElem?_append_left (by omega), getElem?_slice hfirst, if_pos hlt]
  · rw [if_pos (by omega), heq, ha, List.getElem?_append_right (by omega),
      show k - (w.slice i j).length = 0 by omega]
    rfl
  · have hone : [a].length = 1 := rfl
    rw [if_neg (by omega), List.getElem?_eq_none]
    rw [List.length_append]
    omega

theorem slice_eq_nil {w : Window α} {i j : ℕ} (h : j ≤ i) : w.slice i j = [] := by
  rw [slice, Nat.sub_eq_zero_of_le h, List.take_zero]

end Window
