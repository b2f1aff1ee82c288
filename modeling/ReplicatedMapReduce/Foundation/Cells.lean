/-
# States made of cells

A state is read cell by cell, and an action works on one cell or on none, where what it leaves
in its cell depends on what was there and on nothing else.  Then each cell has a history of its
own: the effects of those actions that worked on it, in their order.  What a cell holds after a
list of actions is what its history makes of what it held before (`Cellwise.read_foldl`), so two
lists that give every cell the same history lead to the same state, however they interleave the
cells (`Cellwise.foldl_eq_of_history`).
-/
import Mathlib.Data.List.Basic

namespace Cells

/-- A state machine made of cells: states `σ`, cells `κ`, contents `γ`, actions `α`, and the
effects `β` that an action can have on a cell. -/
structure Cellwise (σ κ γ α β : Type*) where
  act : σ → α → σ
  read : σ → κ → γ
  /-- The cell an action works on, and what it does there. -/
  target : α → Option (κ × β)
  effect : γ → β → γ
  read_act_target : ∀ {s a k b}, target a = some (k, b) → read (act s a) k = effect (read s k) b
  read_act_other : ∀ {s a k}, (∀ b, target a ≠ some (k, b)) → read (act s a) k = read s k
  /-- There is nothing to a state but its cells. -/
  ext : ∀ {s t}, (∀ k, read s k = read t k) → s = t

namespace Cellwise

variable {σ κ γ α β : Type*} [DecidableEq κ] (M : Cellwise σ κ γ α β) {k : κ} {a : α} {b : β}

/-- What an action does to the cell `k`. -/
def effectOn (k : κ) (a : α) : Option β :=
  match M.target a with
  | none => none
  | some (k', b) => if k' = k then some b else none

/-- The effects on the cell `k`, in order. -/
def history (k : κ) (as : List α) : List β := as.filterMap (M.effectOn k)

theorem effectOn_eq_some : M.effectOn k a = some b ↔ M.target a = some (k, b) := by
  unfold effectOn
  cases M.target a with
  | none => simp
  | some kb =>
    obtain ⟨k', b'⟩ := kb
    by_cases hk : k' = k
    · simp [hk]
    · simp [hk]

theorem history_cons_some (h : M.effectOn k a = some b) (as : List α) :
    M.history k (a :: as) = b :: M.history k as :=
  List.filterMap_cons_some h

theorem history_cons_none (h : M.effectOn k a = none) (as : List α) :
    M.history k (a :: as) = M.history k as :=
  List.filterMap_cons_none h

/-- Actions that do nothing to a cell can be left out of its history. -/
theorem history_filter {p : α → Bool} (hp : ∀ a, p a = false → M.effectOn k a = none)
    (as : List α) : M.history k (as.filter p) = M.history k as := by
  rw [history, List.filterMap_filter]
  refine List.filterMap_congr ?_
  intro a _
  cases ha : p a with
  | true => rfl
  | false => exact (hp a ha).symm

/-- **A cell is what its history makes of it.** -/
theorem read_foldl (s : σ) (as : List α) (k : κ) :
    M.read (as.foldl M.act s) k = (M.history k as).foldl M.effect (M.read s k) := by
  induction as generalizing s with
  | nil => rfl
  | cons a as ih =>
    rw [List.foldl_cons, ih]
    cases ha : M.effectOn k a with
    | none =>
      have hother : ∀ b, M.target a ≠ some (k, b) := by
        intro b hb
        rw [M.effectOn_eq_some.mpr hb] at ha
        exact absurd ha (by simp)
      rw [M.history_cons_none ha, M.read_act_other hother]
    | some b =>
      rw [M.history_cons_some ha, List.foldl_cons,
        M.read_act_target (M.effectOn_eq_some.mp ha)]

/-- **Lists of actions with the same histories lead to the same state.** -/
theorem foldl_eq_of_history {as bs : List α} (h : ∀ k, M.history k as = M.history k bs) (s : σ) :
    as.foldl M.act s = bs.foldl M.act s := by
  refine M.ext ?_
  intro k
  rw [M.read_foldl, M.read_foldl, h]

end Cellwise

end Cells
