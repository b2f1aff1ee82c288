/-
# Reading a stream delimiter by delimiter

`getline delim stream` is `std::getline` on a stream that still holds the characters `stream`:
it fails exactly when nothing is left, and otherwise hands back the characters before the next
`delim`, which it consumes with them.  `lines delim stream` is what the loop

    while (std::getline(stream, line, delim)) ...

sees, one line after the other.  It is not `List.splitOn`: a `delim` at the very end of the
stream does not open one more empty line, and an empty stream has no line at all.

The facts below are the ones a parser nested out of such loops needs: how a text that is built
line by line is read back (`lines_unlines`), and what every line that is ever read looks like
(`of_mem_lines`).  Where the stream is a window cut out of a longer text, `linesCost_take_le`
and `linesCost_take_drop_le` bound what its lines can cost.
-/
import Mathlib.Algebra.Order.Ring.Nat
import Mathlib.Algebra.BigOperators.Group.List.Basic
import Mathlib.Data.List.TakeWhile

namespace Getline

variable {α : Type*} {delim : α}

/-! ## 1. One line, and the loop -/

/-- A text of one line per element, each closed by the delimiter. -/
def unlines (delim : α) (ls : List (List α)) : List α := ls.flatMap (· ++ [delim])

@[simp] theorem unlines_nil : unlines delim ([] : List (List α)) = [] := rfl

@[simp] theorem unlines_cons (l : List α) (ls : List (List α)) :
    unlines delim (l :: ls) = l ++ delim :: unlines delim ls := by
  simp [unlines]

variable [DecidableEq α]

/-- `std::getline(stream, line, delim)`: the line and the rest of the stream, or failure. -/
def getline (delim : α) : List α → Option (List α × List α)
  | [] => none
  | c :: stream =>
    some ((c :: stream).takeWhile (· ≠ delim), ((c :: stream).dropWhile (· ≠ delim)).drop 1)

/-- The lines the loop over `getline` reads, by recursion on the stream; `lines_eq_getline`
below says that this is that loop. -/
def lines (delim : α) : List α → List (List α)
  | [] => []
  | c :: stream =>
    if c = delim then [] :: lines delim stream
    else
      match lines delim stream with
      | [] => [[c]]
      | line :: rest => (c :: line) :: rest

/-! ## 2. What `getline` reads -/

theorem ne_delim_of_not_mem {l : List α} (hl : delim ∉ l) :
    ∀ c ∈ l, decide (c ≠ delim) = true := by
  rintro c hc
  exact decide_eq_true fun h : c = delim => hl (h ▸ hc)

theorem getline_append_cons {l : List α} (hl : delim ∉ l) (s : List α) :
    getline delim (l ++ delim :: s) = some (l, s) := by
  have hall := ne_delim_of_not_mem hl
  have htake : (l ++ delim :: s).takeWhile (· ≠ delim) = l := by
    rw [List.takeWhile_append_of_pos hall]; simp
  have hdrop : (l ++ delim :: s).dropWhile (· ≠ delim) = delim :: s := by
    rw [List.dropWhile_append_of_pos hall]; simp
  cases l with
  | nil => simp [getline]
  | cons c l =>
    simp only [List.cons_append, getline] at htake hdrop ⊢
    rw [htake, hdrop]
    rfl

theorem getline_of_not_mem {l : List α} (hl : delim ∉ l) (hne : l ≠ []) :
    getline delim l = some (l, []) := by
  have hall := ne_delim_of_not_mem hl
  cases l with
  | nil => exact absurd rfl hne
  | cons c l =>
    simp only [getline]
    have htake : (c :: l).takeWhile (· ≠ delim) = c :: l := List.takeWhile_eq_self_iff.2 hall
    have hdrop : (c :: l).dropWhile (· ≠ delim) = [] := List.dropWhile_eq_nil_iff.2 hall
    rw [htake, hdrop]
    rfl

/-- **What a stream with something left looks like to `getline`**: a delimiter is still to
come, or the rest is one last line. -/
theorem getline_cases (delim : α) {s : List α} (hs : s ≠ []) :
    ∃ l, delim ∉ l ∧
      ((∃ rest, s = l ++ delim :: rest ∧ getline delim s = some (l, rest)) ∨
        (s = l ∧ getline delim s = some (l, []))) := by
  by_cases h : delim ∈ s
  · obtain ⟨l, rest, rfl, hl⟩ := List.eq_append_cons_of_mem h
    exact ⟨l, hl, Or.inl ⟨rest, rfl, getline_append_cons hl rest⟩⟩
  · exact ⟨s, h, Or.inr ⟨rfl, getline_of_not_mem h hs⟩⟩

/-! ## 3. What the loop reads -/

@[simp] theorem lines_nil : lines delim ([] : List α) = [] := rfl

theorem lines_append_cons {l : List α} (hl : delim ∉ l) (s : List α) :
    lines delim (l ++ delim :: s) = l :: lines delim s := by
  induction l with
  | nil => simp [lines]
  | cons c l ih =>
    have hc : c ≠ delim := fun h => hl (h ▸ List.mem_cons_self)
    have hl' : delim ∉ l := fun h => hl (List.mem_cons_of_mem _ h)
    rw [List.cons_append, lines, if_neg hc, ih hl']

theorem lines_of_not_mem {l : List α} (hl : delim ∉ l) (hne : l ≠ []) :
    lines delim l = [l] := by
  induction l with
  | nil => exact absurd rfl hne
  | cons c l ih =>
    have hc : c ≠ delim := fun h => hl (h ▸ List.mem_cons_self)
    have hl' : delim ∉ l := fun h => hl (List.mem_cons_of_mem _ h)
    cases l with
    | nil => simp [lines, hc]
    | cons d l => rw [lines, if_neg hc, ih hl' (List.cons_ne_nil _ _)]

/-- **`lines` is the loop**: one `getline`, then the loop on what it left. -/
theorem lines_eq_getline (s : List α) :
    lines delim s =
      match getline delim s with
      | none => []
      | some (l, rest) => l :: lines delim rest := by
  rcases eq_or_ne s [] with rfl | hs
  · rfl
  · obtain ⟨l, hl, ⟨rest, rfl, hg⟩ | ⟨rfl, hg⟩⟩ := getline_cases delim hs
    · rw [hg, lines_append_cons hl]
    · rw [hg, lines_of_not_mem hl hs]
      rfl

/-- **A text written line by line is read back line by line.** -/
theorem lines_unlines {ls : List (List α)} (h : ∀ l ∈ ls, delim ∉ l) :
    lines delim (unlines delim ls) = ls := by
  induction ls with
  | nil => rfl
  | cons l ls ih =>
    rw [unlines_cons, lines_append_cons (h l List.mem_cons_self),
      ih fun k hk => h k (List.mem_cons_of_mem _ hk)]

/-- A line holds no delimiter, and only characters of the stream. -/
theorem of_mem_lines {s l : List α} (h : l ∈ lines delim s) :
    delim ∉ l ∧ ∀ c ∈ l, c ∈ s := by
  induction s generalizing l with
  | nil => simp [lines] at h
  | cons c s ih =>
    unfold lines at h
    split at h
    · rename_i hc
      rcases List.mem_cons.mp h with rfl | h
      · simp
      · exact ⟨(ih h).1, fun d hd => List.mem_cons_of_mem _ ((ih h).2 d hd)⟩
    · rename_i hc
      cases hls : lines delim s with
      | nil =>
        rw [hls] at h
        simp only [List.mem_singleton] at h
        subst h
        exact ⟨fun hm => hc (List.mem_singleton.mp hm).symm, by simp⟩
      | cons line rest =>
        rw [hls] at h ih
        rcases List.mem_cons.mp h with rfl | h
        · obtain ⟨hdel, hsub⟩ := ih (l := line) List.mem_cons_self
          refine ⟨fun hm => ?_, fun d hd => ?_⟩
          · rcases List.mem_cons.mp hm with hm | hm
            · exact hc hm.symm
            · exact hdel hm
          · rcases List.mem_cons.mp hd with rfl | hd
            · exact List.mem_cons_self
            · exact List.mem_cons_of_mem _ (hsub d hd)
        · obtain ⟨hdel, hsub⟩ := ih (l := l) (List.mem_cons_of_mem _ h)
          exact ⟨hdel, fun d hd => List.mem_cons_of_mem _ (hsub d hd)⟩

/-- The lines take no more room than the stream, but for a delimiter after the last one. -/
theorem sum_length_lines_le (delim : α) (s : List α) :
    ((lines delim s).map fun l => l.length + 1).sum ≤ s.length + 1 := by
  induction s with
  | nil => simp
  | cons c s ih =>
    unfold lines
    split
    · simp only [List.map_cons, List.sum_cons, List.length_nil, List.length_cons]
      omega
    · cases hls : lines delim s with
      | nil => simp
      | cons line rest =>
        rw [hls] at ih
        simp only [List.map_cons, List.sum_cons, List.length_cons] at ih ⊢
        omega

/-! ## 4. What the lines of a window can cost

`cost l` is what one line is worth to the caller.  A complete line of the text is worth at most
its own length and its delimiter; a line that was cut may be worth `slack` more.  A window
of `n` characters cuts at most two lines, its first and its last. -/

/-- The cost of everything the loop reads. -/
def linesCost (delim : α) (cost : List α → ℕ) (s : List α) : ℕ :=
  ((lines delim s).map cost).sum

@[simp] theorem linesCost_nil (cost : List α → ℕ) : linesCost delim cost [] = 0 := rfl

theorem linesCost_append_cons {l : List α} (hl : delim ∉ l) (cost : List α → ℕ) (s : List α) :
    linesCost delim cost (l ++ delim :: s) = cost l + linesCost delim cost s := by
  simp [linesCost, lines_append_cons hl]

/-- A window inside one line. -/
theorem linesCost_of_not_mem {l : List α} (hl : delim ∉ l) {cost : List α → ℕ} {k : ℕ}
    (hcost : cost l ≤ k) : linesCost delim cost l ≤ k := by
  rcases eq_or_ne l [] with rfl | hne
  · simp
  · simpa [linesCost, lines_of_not_mem hl hne] using hcost

section Window

variable {cost : List α → ℕ} {slack : ℕ} (hany : ∀ l, cost l ≤ l.length + 1 + slack)

include hany

theorem linesCost_take_le {ls : List (List α)} (hdel : ∀ l ∈ ls, delim ∉ l)
    (hfull : ∀ l ∈ ls, cost l ≤ l.length + 1) (n : ℕ) :
    linesCost delim cost ((unlines delim ls).take n) ≤ n + 1 + slack := by
  induction ls generalizing n with
  | nil => simp
  | cons l ls ih =>
    have hl : delim ∉ l := hdel l List.mem_cons_self
    have ih' := ih (fun k hk => hdel k (List.mem_cons_of_mem _ hk))
      (fun k hk => hfull k (List.mem_cons_of_mem _ hk))
    rw [unlines_cons, List.take_append]
    rcases Nat.lt_or_ge l.length n with hn | hn
    · obtain ⟨m, hm⟩ : ∃ m, n - l.length = m + 1 := ⟨n - l.length - 1, by omega⟩
      rw [List.take_of_length_le (Nat.le_of_lt hn), hm, List.take_succ_cons,
        linesCost_append_cons hl]
      have h1 := hfull l List.mem_cons_self
      have h2 := ih' m
      omega
    · rw [Nat.sub_eq_zero_of_le hn, List.take_zero, List.append_nil]
      refine linesCost_of_not_mem (fun h => hl (List.mem_of_mem_take h)) ?_
      have h1 := hany (l.take n)
      have h2 := List.length_take_le n l
      omega

theorem linesCost_take_drop_le {ls : List (List α)} (hdel : ∀ l ∈ ls, delim ∉ l)
    (hfull : ∀ l ∈ ls, cost l ≤ l.length + 1) (a n : ℕ) :
    linesCost delim cost (((unlines delim ls).drop a).take n) ≤ n + 1 + 2 * slack := by
  induction ls generalizing a with
  | nil => simp
  | cons l ls ih =>
    have hl : delim ∉ l := hdel l List.mem_cons_self
    have hdel' : ∀ k ∈ ls, delim ∉ k := fun k hk => hdel k (List.mem_cons_of_mem _ hk)
    have hfull' : ∀ k ∈ ls, cost k ≤ k.length + 1 := fun k hk =>
      hfull k (List.mem_cons_of_mem _ hk)
    rw [unlines_cons, List.drop_append]
    rcases Nat.lt_or_ge l.length a with ha | ha
    · -- the window starts after this line
      obtain ⟨b, hb⟩ : ∃ b, a - l.length = b + 1 := ⟨a - l.length - 1, by omega⟩
      rw [List.drop_of_length_le (Nat.le_of_lt ha), hb, List.drop_succ_cons, List.nil_append]
      exact ih hdel' hfull' b
    · -- the window starts inside this line, so what it holds of it is a cut line
      rw [Nat.sub_eq_zero_of_le ha, List.drop_zero, List.take_append]
      have hcut : delim ∉ l.drop a := fun h => hl (List.mem_of_mem_drop h)
      rcases Nat.lt_or_ge (l.drop a).length n with hn | hn
      · obtain ⟨m, hm⟩ : ∃ m, n - (l.drop a).length = m + 1 :=
          ⟨n - (l.drop a).length - 1, by omega⟩
        rw [List.take_of_length_le (Nat.le_of_lt hn), hm, List.take_succ_cons,
          linesCost_append_cons hcut]
        have h1 := hany (l.drop a)
        have h2 := linesCost_take_le hany hdel' hfull' m
        omega
      · rw [Nat.sub_eq_zero_of_le hn, List.take_zero, List.append_nil]
        refine linesCost_of_not_mem (fun h => hcut (List.mem_of_mem_take h)) ?_
        have h1 := hany ((l.drop a).take n)
        have h2 := List.length_take_le n (l.drop a)
        omega

end Window

end Getline
