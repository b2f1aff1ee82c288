/-
# What is read from the log store

`entry_at` and `term_at` answer something for every index, the dummy if need be (`entryAt_eq`), and
`last_entry` answers the last entry of the window, or the dummy (`lastEntry_eq`).  `log_entries` and
`log_entries_ext` assert that the window is over what they are asked for (`logEntries_eq`,
`logEntriesExt_eq`).

That is one call at a time.  What others do between two turns of the loop of `log_entries` is the
subject of `LogRuns.lean`.
-/
import ReplicatedMapReduce.LogStore

namespace ReplicatedMapReduce

open Runs

/-- How many bytes the buffers of some entries have. -/
def bufBytes (entries : List LogEntry) : ℕ := (entries.map fun entry => entry.buf.length).sum

/-- **The batch `log_entries_ext` is to answer**: `n` of the `turns` entries asked for.  All of
them without a limit; with one, at least an entry, and no more than it takes to reach the limit,
where `size n` is what the first `n` add up to. -/
structure IsBatch (limit : ℤ) (turns : ℕ) (size : ℕ → ℕ) (n : ℕ) : Prop where
  le : n ≤ turns
  pos : 0 < turns → 0 < n
  unlimited : limit = 0 → n = turns
  reaches : limit ≠ 0 → n = turns ∨ limit ≤ size n
  shortest : limit ≠ 0 → ∀ m, m < n → (size m : ℤ) < limit

theorem bufBytes_cons (entry : LogEntry) (entries : List LogEntry) :
    bufBytes (entry :: entries) = entry.buf.length + bufBytes entries := by
  rw [bufBytes, List.map_cons, List.sum_cons, bufBytes]

namespace Holds

variable {s : InmemLogStore} {w : Window LogEntry}

theorem findOrDummy_eq (h : Holds s w) {i : UInt64} (hi : i ≠ 0) {dummy : LogEntry}
    (hdummy : s.logs[(0 : UInt64)]? = some dummy) :
    s.findOrDummy i = .ok ((w.get i.toNat).getD dummy) := by
  rw [InmemLogStore.findOrDummy, h.lookup i hi, hdummy]
  cases w.get i.toNat <;> rfl

/-- **`last_entry` is the last of the window**, or the dummy. -/
theorem lastEntry_eq (h : Holds s w) {dummy : LogEntry}
    (hdummy : s.logs[(0 : UInt64)]? = some dummy) :
    s.lastEntry = .ok ((w.entries.getLast?).getD dummy) := by
  have hpos := h.first_pos
  have hle := w.first_le_next
  have hlast := h.toNat_nextSlot_sub_one
  have hfind : s.findOrDummy (s.nextSlot - 1) = .ok ((w.entries.getLast?).getD dummy) := by
    by_cases hzero : s.nextSlot - 1 = 0
    · -- there has never been an entry, and index 0 is the dummy's own
      have hnil : w.entries = [] := by
        rw [hzero] at hlast
        have hzero' : (0 : UInt64).toNat = 0 := rfl
        rw [← List.length_eq_zero_iff]
        rw [Window.next] at hlast
        omega
      rw [hzero, hnil, InmemLogStore.findOrDummy, hdummy]
      rfl
    · rw [h.findOrDummy_eq hzero hdummy, hlast, Window.get, Window.next, List.getLast?_eq_getElem?]
      split
      · have hnil : w.entries = [] := by
          rw [← List.length_eq_zero_iff]
          omega
        rw [hnil]
        rfl
      · rw [show w.first + w.entries.length - 1 - w.first = w.entries.length - 1 by omega]
  rw [InmemLogStore.lastEntry, hfind]
  rfl

/-- **`entry_at` and `term_at`**, for every index but the dummy's. -/
theorem entryAt_eq (h : Holds s w) {i : UInt64} (hi : i ≠ 0) {dummy : LogEntry}
    (hdummy : s.logs[(0 : UInt64)]? = some dummy) :
    s.entryAt i = .ok ((w.get i.toNat).getD dummy) ∧
      s.termAt i = .ok ((w.get i.toNat).getD dummy).term := by
  rw [InmemLogStore.entryAt, InmemLogStore.termAt, h.findOrDummy_eq hi hdummy]
  exact ⟨rfl, rfl⟩

theorem logEntriesLoop_eq (h : Holds s w) {turns : ℕ} {ii : UInt64} (hii : ii ≠ 0)
    (hroom : ii.toNat + turns < 2 ^ 64) :
    s.logEntriesLoop turns ii =
      if turns = 0 ∨ (w.first ≤ ii.toNat ∧ ii.toNat + turns ≤ w.next)
      then .ok (w.slice ii.toNat (ii.toNat + turns)) else .error .assertionFailed := by
  induction turns generalizing ii with
  | zero =>
    rw [if_pos (Or.inl rfl), Window.slice_eq_nil (by omega)]
    rfl
  | succ turns ih =>
    rw [InmemLogStore.logEntriesLoop, h.lookup ii hii]
    cases hget : w.get ii.toNat with
    | none =>
      have hout : ¬ (turns + 1 = 0 ∨ (w.first ≤ ii.toNat ∧ ii.toNat + (turns + 1) ≤ w.next)) := by
        rw [Window.get_eq_none_iff] at hget
        omega
      rw [if_neg hout]
    | some src =>
      have hin : w.first ≤ ii.toNat ∧ ii.toNat < w.next :=
        Window.isSome_get_iff.mp (by rw [hget]; rfl)
      have hnext : (ii + 1).toNat = ii.toNat + 1 := toNat_succ (by omega)
      have hrest := ih (Holds.toNat_ne_zero.mpr (by omega)) (by omega : (ii + 1).toNat + turns < _)
      dsimp only
      rw [hrest, hnext, show ii.toNat + 1 + turns = ii.toNat + (turns + 1) by omega]
      by_cases hall : ii.toNat + (turns + 1) ≤ w.next
      · rw [if_pos (by omega), if_pos (by omega), Window.slice_eq_cons (by omega) hget]
        rfl
      · rw [if_neg (by omega), if_neg (by omega)]

/-- **`log_entries` answers a slice of the window, or asserts.** -/
theorem logEntries_eq (h : Holds s w) {start stop : UInt64} (hstart : start ≠ 0)
    (hle : start ≤ stop) :
    s.logEntries start stop =
      if start = stop ∨ (w.first ≤ start.toNat ∧ stop.toNat ≤ w.next)
      then .ok (w.slice start.toNat stop.toNat) else .error .assertionFailed := by
  rw [UInt64.le_iff_toNat_le] at hle
  have hlt := stop.toNat_lt
  have hsum : start.toNat + (stop.toNat - start.toNat) = stop.toNat := by omega
  have hzero : stop.toNat - start.toNat = 0 ↔ start = stop := by
    rw [← UInt64.toNat_inj]
    omega
  rw [InmemLogStore.logEntries, h.logEntriesLoop_eq hstart (by omega), hsum]
  simp only [hzero]

/-- The loop of `log_entries_ext`, before the limit is reached. -/
theorem logEntriesExtLoop_eq (h : Holds s w) {limit : ℤ} {turns : ℕ} {ii : UInt64} {accumSize : ℕ}
    (hii : 0 < ii.toNat) (hfirst : w.first ≤ ii.toNat) (hnext : ii.toNat + turns ≤ w.next)
    (hbefore : limit ≠ 0 → (accumSize : ℤ) < limit) :
    ∃ n, s.logEntriesExtLoop limit turns ii accumSize
        = .ok (w.slice ii.toNat (ii.toNat + n)) ∧
      IsBatch limit turns
        (fun m => accumSize + bufBytes (w.slice ii.toNat (ii.toNat + m))) n := by
  have hlt := h.next_lt
  induction turns generalizing ii accumSize with
  | zero =>
    refine ⟨0, ?_, Nat.le_refl 0, id, fun _ => rfl, fun _ => Or.inl rfl, fun _ m hm => ?_⟩
    · rw [Window.slice_eq_nil (by omega)]
      rfl
    · omega
  | succ turns ih =>
    obtain ⟨src, hsrc⟩ : ∃ src, w.get ii.toNat = some src :=
      Option.isSome_iff_exists.mp (Window.isSome_get_iff.mpr (by omega))
    have hcons : ∀ m, w.slice ii.toNat (ii.toNat + (m + 1))
        = src :: w.slice (ii.toNat + 1) (ii.toNat + 1 + m) := by
      intro m
      rw [Window.slice_eq_cons (by omega) hsrc, show ii.toNat + (m + 1) = ii.toNat + 1 + m by omega]
    have hnil : bufBytes (w.slice ii.toNat (ii.toNat + 0)) = 0 := by
      rw [Window.slice_eq_nil (by omega)]
      rfl
    rw [InmemLogStore.logEntriesExtLoop, h.lookup ii (Holds.toNat_ne_zero.mpr (by omega)), hsrc]
    dsimp only
    split
    · -- the limit is reached with this entry
      rename_i hreached
      have hone : w.slice ii.toNat (ii.toNat + 1) = [src] := by
        rw [hcons 0, Window.slice_eq_nil (by omega)]
      refine ⟨1, by rw [hone]; rfl, by omega, fun _ => Nat.one_pos, fun hzero => ?_, fun _ => ?_,
        fun hne m hm => ?_⟩
      · exact absurd hzero hreached.1
      · right
        rw [hone, bufBytes_cons]
        have hle := hreached.2
        have hempty : bufBytes [] = 0 := rfl
        rw [hempty, Nat.add_zero]
        exact hle
      · obtain rfl : m = 0 := by omega
        rw [hnil]
        exact hbefore hne
    · rename_i hreached
      have hii' : (ii + 1).toNat = ii.toNat + 1 := toNat_succ (by omega)
      have hbefore' : limit ≠ 0 → ((accumSize + src.buf.length : ℕ) : ℤ) < limit := by
        intro hne
        by_contra hge
        exact hreached ⟨hne, not_lt.mp hge⟩
      obtain ⟨n, hloop, hbatch⟩ := @ih (ii + 1) (accumSize + src.buf.length) (by omega) (by omega)
        (by omega) hbefore'
      rw [hii'] at hloop hbatch
      have hsize : ∀ m, accumSize + bufBytes (w.slice ii.toNat (ii.toNat + (m + 1)))
          = accumSize + src.buf.length
            + bufBytes (w.slice (ii.toNat + 1) (ii.toNat + 1 + m)) := by
        intro m
        rw [hcons, bufBytes_cons]
        omega
      refine ⟨n + 1, ?_, Nat.succ_le_succ hbatch.le, fun _ => Nat.succ_pos n, fun hzero => ?_,
        fun hne => ?_, fun hne m hm => ?_⟩
      · rw [hloop, hcons]
        rfl
      · rw [hbatch.unlimited hzero]
      · rw [hsize]
        rcases hbatch.reaches hne with hall | hle
        · exact Or.inl (by rw [hall])
        · exact Or.inr hle
      · cases m with
        | zero =>
          rw [hnil]
          exact hbefore hne
        | succ m =>
          rw [hsize]
          exact hbatch.shortest hne m (by omega)

/-- **`log_entries_ext` answers the shortest beginning of `log_entries` that reaches the hint**,
all of it for the hint 0, and nothing for a negative one. -/
theorem logEntriesExt_eq (h : Holds s w) {start stop : UInt64} {batchSizeHintInBytes : Int64}
    (hle : start ≤ stop) (hfirst : w.first ≤ start.toNat) (hnext : stop.toNat ≤ w.next) :
    (batchSizeHintInBytes < 0 → s.logEntriesExt start stop batchSizeHintInBytes = .ok []) ∧
    (0 ≤ batchSizeHintInBytes →
      ∃ n, s.logEntriesExt start stop batchSizeHintInBytes
          = .ok (w.slice start.toNat (start.toNat + n)) ∧
        IsBatch batchSizeHintInBytes.toInt (stop.toNat - start.toNat)
          (fun m => bufBytes (w.slice start.toNat (start.toNat + m))) n) := by
  rw [UInt64.le_iff_toNat_le] at hle
  have hpos := h.first_pos
  constructor
  · intro hneg
    rw [InmemLogStore.logEntriesExt, if_pos hneg]
  · intro hhint
    have hhint' : 0 ≤ batchSizeHintInBytes.toInt := Int64.le_iff_toInt_le.mp hhint
    have hnot : ¬ batchSizeHintInBytes < 0 := by
      rw [Int64.lt_iff_toInt_lt]
      exact not_lt.mpr hhint'
    have hbefore : batchSizeHintInBytes.toInt ≠ 0 → ((0 : ℕ) : ℤ) < batchSizeHintInBytes.toInt := by
      intro hne
      exact lt_of_le_of_ne hhint' hne.symm
    obtain ⟨n, hloop, hbatch⟩ := h.logEntriesExtLoop_eq (by omega) hfirst
      (by omega : start.toNat + (stop.toNat - start.toNat) ≤ w.next) hbefore
    simp only [Nat.zero_add] at hbatch
    exact ⟨n, by rw [InmemLogStore.logEntriesExt, if_neg hnot, hloop], hbatch⟩

end Holds

/-- The first entry has seven bytes, and eight are asked for. -/
theorem logEntriesExt_books :
    booksLogStore.logEntriesExt 1 3 8 = .ok [entryOf "books 3", entryOf "books 4"] := by
  have hstop : (1 : UInt64) ≤ 3 := by decide
  have hhint : (0 : Int64) ≤ 8 := by decide
  obtain ⟨n, hread, hbatch⟩ :=
    (holds_booksLogStore.logEntriesExt_eq hstop (by decide) (by decide)).2 hhint
  have hn : n = 2 := by
    rcases hbatch.reaches (by decide) with hall | hreached
    · exact hall
    · have hle : n ≤ 2 := hbatch.le
      rcases n with _ | _ | n
      · exact absurd hreached (by decide)
      · exact absurd hreached (by decide)
      · exact le_antisymm hle (Nat.le_add_left 2 n)
  rw [hread, hn]
  rfl

end ReplicatedMapReduce
