/-
# The words of a line

The words of a line are its maximal stretches without a delimiter: `words delim s`.  They are the
lines of `Getline.lean` with the empty ones left out, so that neither how many delimiters stand
between two of them matters nor whether there are any at the ends.

`Spaced delim ws s` says the same from the other side: `s` is a way to write down the words `ws`,
with as many delimiters before, between and after them as one likes, but at least one between two of
them.  `words_eq_iff` says that these are all the lines with those words.  The shortest one of them
is `unwords delim ws`.
-/
import ReplicatedMapReduce.Foundation.Getline

namespace Words

open Getline

variable {α : Type*} {delim : α}

/-! ## 1. Writing words -/

/-- The line `s` shows the words `ws`. -/
inductive Spaced (delim : α) : List (List α) → List α → Prop
  | nil : Spaced delim [] []
  | blank {ws : List (List α)} {s : List α} : Spaced delim ws s → Spaced delim ws (delim :: s)
  | last {w : List α} : w ≠ [] → delim ∉ w → Spaced delim [w] w
  | word {w s : List α} {ws : List (List α)} :
      w ≠ [] → delim ∉ w → Spaced delim ws s → Spaced delim (w :: ws) (w ++ delim :: s)

/-- One delimiter between two words. -/
def unwords (delim : α) : List (List α) → List α
  | [] => []
  | [w] => w
  | w :: v :: ws => w ++ delim :: unwords delim (v :: ws)

theorem spaced_unwords {ws : List (List α)} (h : ∀ w ∈ ws, w ≠ [] ∧ delim ∉ w) :
    Spaced delim ws (unwords delim ws) := by
  induction ws with
  | nil => exact .nil
  | cons w ws ih =>
    obtain ⟨hne, hdelim⟩ := h w List.mem_cons_self
    cases ws with
    | nil => exact .last hne hdelim
    | cons v ws => exact .word hne hdelim (ih fun u hu => h u (List.mem_cons_of_mem _ hu))

theorem length_unwords {ws : List (List α)} (h : ws ≠ []) :
    (unwords delim ws).length + 1 = (ws.map fun w => w.length + 1).sum := by
  induction ws with
  | nil => exact absurd rfl h
  | cons w ws ih =>
    cases ws with
    | nil => simp [unwords]
    | cons v ws =>
      have hrest := ih (List.cons_ne_nil v ws)
      simp only [unwords, List.length_append, List.length_cons, List.map_cons, List.sum_cons]
        at hrest ⊢
      omega

/-- A line has room for its words. -/
theorem Spaced.sum_le {ws : List (List α)} {s : List α} (h : Spaced delim ws s) :
    (ws.map fun w => w.length + 1).sum ≤ s.length + 1 := by
  induction h with
  | nil => exact Nat.zero_le _
  | blank _ ih =>
    rw [List.length_cons]
    omega
  | last _ _ => simp
  | word _ _ _ ih =>
    rw [List.map_cons, List.sum_cons, List.length_append, List.length_cons]
    omega

theorem mem_unwords {ws : List (List α)} {c : α} (h : c ∈ unwords delim ws) :
    c = delim ∨ ∃ w ∈ ws, c ∈ w := by
  induction ws with
  | nil => exact absurd h (by simp [unwords])
  | cons w ws ih =>
    cases ws with
    | nil => exact Or.inr ⟨w, List.mem_cons_self, h⟩
    | cons v ws =>
      rcases List.mem_append.mp h with h | h
      · exact Or.inr ⟨w, List.mem_cons_self, h⟩
      · rcases List.mem_cons.mp h with h | h
        · exact Or.inl h
        · rcases ih h with h | ⟨u, hu, hc⟩
          · exact Or.inl h
          · exact Or.inr ⟨u, List.mem_cons_of_mem _ hu, hc⟩

/-! ## 2. Finding them again -/

variable [DecidableEq α]

def words (delim : α) (s : List α) : List (List α) := (lines delim s).filter (· ≠ [])

@[simp] theorem words_nil : words delim ([] : List α) = [] := rfl

theorem words_of_not_mem {w : List α} (hne : w ≠ []) (h : delim ∉ w) : words delim w = [w] := by
  rw [words, lines_of_not_mem h hne]
  simp [hne]

/-- Up to the first delimiter there is at most one word. -/
theorem words_append_cons {l : List α} (h : delim ∉ l) (s : List α) :
    words delim (l ++ delim :: s) = if l = [] then words delim s else l :: words delim s := by
  rw [words, lines_append_cons h, List.filter_cons, words]
  by_cases hl : l = []
  · simp [hl]
  · simp [hl]

theorem words_cons_delim (s : List α) : words delim (delim :: s) = words delim s := by
  have h := words_append_cons (List.not_mem_nil : delim ∉ ([] : List α)) s
  rwa [if_pos rfl, List.nil_append] at h

/-- A word is not empty, holds no delimiter, and only characters of the line. -/
theorem of_mem_words {s w : List α} (h : w ∈ words delim s) :
    w ≠ [] ∧ delim ∉ w ∧ ∀ c ∈ w, c ∈ s := by
  rw [words, List.mem_filter, decide_eq_true_eq] at h
  exact ⟨h.2, of_mem_lines h.1⟩

theorem Spaced.words_eq {ws : List (List α)} {s : List α} (h : Spaced delim ws s) :
    words delim s = ws := by
  induction h with
  | nil => rfl
  | blank _ ih => rw [words_cons_delim, ih]
  | last hne hdelim => exact words_of_not_mem hne hdelim
  | word hne hdelim _ ih => rw [words_append_cons hdelim, if_neg hne, ih]

/-- Every line shows its words. -/
theorem spaced_words (s : List α) : Spaced delim (words delim s) s := by
  induction hlen : s.length using Nat.strong_induction_on generalizing s with
  | _ n ih =>
    rcases eq_or_ne s [] with rfl | hs
    · exact .nil
    · obtain ⟨l, hl, ⟨rest, rfl, -⟩ | ⟨rfl, -⟩⟩ := getline_cases delim hs
      · have hlt : rest.length < n := by
          rw [← hlen, List.length_append, List.length_cons]
          omega
        have hrest := ih _ hlt rest rfl
        rw [words_append_cons hl]
        split
        · rename_i hnil
          rw [hnil]
          exact .blank hrest
        · rename_i hne
          exact .word hne hl hrest
      · rw [words_of_not_mem hs hl]
        exact .last hs hl

/-- **The lines with given words are those that show them.** -/
theorem words_eq_iff {ws : List (List α)} {s : List α} :
    words delim s = ws ↔ Spaced delim ws s := by
  constructor
  · rintro rfl
    exact spaced_words s
  · exact Spaced.words_eq

end Words
