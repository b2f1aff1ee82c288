/-
# `inmem_log_store`: where NuRaft keeps the log of a node

The entries are in a `std::map` under their indices, and there is one more, a dummy at index 0,
which a lookup falls back on.  Only `start_idx_` is kept beside the map: where the log ends is
computed from the number of entries, `start_idx_ + logs_.size() - 1`, the dummy not counted.
That is right as long as the entries stand at consecutive indices from `start_idx_` on, which
nothing in the class checks.

So the store is meant to be a window of the log (`Holds`), and every operation is described by
what it does to the window.  `append` and `compact` always move one; `write_at` does exactly when
it is asked for an index of the window or the one behind it (`writeAt_wellFormed_iff`).

What is read from it is the subject of `LogReads.lean`, what it is packed into of `LogPack.lean`.

`compact` counts with an unsigned index up to and including its argument, so for the greatest
index there is it never ends (`compact_eq_none_iff`).

The emulation of a slow disk is beside all this, in `SlowDisk.lean`: without `set_disk_delay`, none
of it runs.
-/
import ReplicatedMapReduce.Basic
import ReplicatedMapReduce.Foundation.TreeMaps
import ReplicatedMapReduce.Foundation.Window
import ReplicatedMapReduce.Foundation.Runs
import Mathlib.Data.List.Nodup

namespace ReplicatedMapReduce

open Runs

/-! ## 1. The class -/

theorem toNat_succ {i : UInt64} (h : i.toNat + 1 < 2 ^ 64) : (i + 1).toNat = i.toNat + 1 := by
  have hone : (1 : UInt64).toNat = 1 := rfl
  rw [UInt64.toNat_add, hone, Nat.mod_eq_of_lt h]

/-- `log_entry`, as `make_clone` copies it. -/
structure LogEntry where
  term : UInt64
  buf : Str
  valType : UInt8
  timestamp : UInt64
  hasCrc32 : Bool
  crc32 : UInt32
  deriving DecidableEq

structure InmemLogStore where
  logs : Map UInt64 LogEntry
  startIdx : UInt64
  deriving DecidableEq

namespace InmemLogStore

/-- A copy with its own buffer; the model has no buffers that are shared. -/
def makeClone (entry : LogEntry) : LogEntry where
  term := entry.term
  buf := entry.buf
  valType := entry.valType
  timestamp := entry.timestamp
  hasCrc32 := entry.hasCrc32
  crc32 := entry.crc32

/-- A new store.  The dummy has term 0 and a buffer nobody writes. -/
def init (dummy : LogEntry) : InmemLogStore := ⟨(∅ : Map _ _).insert 0 dummy, 1⟩

def nextSlot (s : InmemLogStore) : UInt64 := s.startIdx + UInt64.ofNat s.logs.size - 1

/-- `logs_.find(index)`, and `logs_.find(0)` if that is `end()`. -/
def findOrDummy (s : InmemLogStore) (index : UInt64) : Except Fault LogEntry :=
  match s.logs[index]? with
  | some entry => .ok entry
  | none =>
    match s.logs[(0 : UInt64)]? with
    | some entry => .ok entry
    | none => .error .endDereferenced

def lastEntry (s : InmemLogStore) : Except Fault LogEntry :=
  (s.findOrDummy (s.nextSlot - 1)).map makeClone

/-- The index of the new entry, and the store. -/
def append (s : InmemLogStore) (entry : LogEntry) : UInt64 × InmemLogStore :=
  let idx := s.startIdx + UInt64.ofNat s.logs.size - 1
  (idx, { s with logs := s.logs.insert idx (makeClone entry) })

/-- `write_at`: everything from `index` on is erased first. -/
def writeAt (s : InmemLogStore) (index : UInt64) (entry : LogEntry) : InmemLogStore :=
  let logs := (TreeMaps.keysFrom s.logs index).foldl (fun logs i => logs.erase i) s.logs
  { s with logs := logs.insert index (makeClone entry) }

/-- The loop of `log_entries`, with `turns` turns to go. -/
def logEntriesLoop (s : InmemLogStore) : ℕ → UInt64 → Except Fault (List LogEntry)
  | 0, _ => .ok []
  | turns + 1, ii =>
    match s.logs[ii]? with
    | none => .error .assertionFailed
    | some src =>
      match s.logEntriesLoop turns (ii + 1) with
      | .error e => .error e
      | .ok rest => .ok (makeClone src :: rest)

/-- `log_entries`, for `start <= end`. -/
def logEntries (s : InmemLogStore) (start stop : UInt64) : Except Fault (List LogEntry) :=
  s.logEntriesLoop (stop.toNat - start.toNat) start

/-- The loop of `log_entries_ext`, with what has been accumulated. -/
def logEntriesExtLoop (s : InmemLogStore) (batchSizeHintInBytes : ℤ) :
    ℕ → UInt64 → ℕ → Except Fault (List LogEntry)
  | 0, _, _ => .ok []
  | turns + 1, ii, accumSize =>
    match s.logs[ii]? with
    | none => .error .assertionFailed
    | some src =>
      let accumSize := accumSize + src.buf.length
      if batchSizeHintInBytes ≠ 0 ∧ batchSizeHintInBytes ≤ accumSize then .ok [makeClone src]
      else
        match s.logEntriesExtLoop batchSizeHintInBytes turns (ii + 1) accumSize with
        | .error e => .error e
        | .ok rest => .ok (makeClone src :: rest)

def logEntriesExt (s : InmemLogStore) (start stop : UInt64) (batchSizeHintInBytes : Int64) :
    Except Fault (List LogEntry) :=
  if batchSizeHintInBytes < 0 then .ok []
  else s.logEntriesExtLoop batchSizeHintInBytes.toInt (stop.toNat - start.toNat) start 0

def entryAt (s : InmemLogStore) (index : UInt64) : Except Fault LogEntry :=
  (s.findOrDummy index).map makeClone

def termAt (s : InmemLogStore) (index : UInt64) : Except Fault UInt64 :=
  (s.findOrDummy index).map LogEntry.term

/-- The loop of `compact`; `none` if it is still running after so many turns. -/
def compactLoop (lastLogIndex : UInt64) :
    ℕ → UInt64 → Map UInt64 LogEntry → Option (Map UInt64 LogEntry)
  | 0, _, _ => none
  | turns + 1, ii, logs =>
    if ii ≤ lastLogIndex then compactLoop lastLogIndex turns (ii + 1) (logs.erase ii)
    else some logs

/-- `compact`, with the turns its loop takes if it ends (`compactLoop_eq`). -/
def compact (s : InmemLogStore) (lastLogIndex : UInt64) : Option InmemLogStore :=
  (compactLoop lastLogIndex (lastLogIndex.toNat + 1 - s.startIdx.toNat + 1) s.startIdx s.logs).map
    fun logs =>
      { logs, startIdx := if s.startIdx ≤ lastLogIndex then lastLogIndex + 1 else s.startIdx }

end InmemLogStore

/-! ## 2. The store as a window -/

/-- **The store holds a window**: there is a dummy at index 0, the other entries are those of the
window, and the index behind the last one is an index. -/
structure Holds (s : InmemLogStore) (w : Window LogEntry) : Prop where
  start : s.startIdx.toNat = w.first
  first_pos : 0 < w.first
  next_lt : w.next < 2 ^ 64
  dummy : ∃ entry, s.logs[(0 : UInt64)]? = some entry
  lookup : ∀ i : UInt64, i ≠ 0 → s.logs[i]? = w.get i.toNat

/-- The store holds some window. -/
def WellFormed (s : InmemLogStore) : Prop := ∃ w, Holds s w

theorem holds_init (dummy : LogEntry) : Holds (InmemLogStore.init dummy) ⟨1, []⟩ where
  start := rfl
  first_pos := Nat.one_pos
  next_lt := by decide
  dummy := ⟨dummy, by simp [InmemLogStore.init]⟩
  lookup i hi := by
    have hzero : ¬ (0 : UInt64) = i := fun h => hi h.symm
    have hnone : (⟨1, []⟩ : Window LogEntry).get i.toNat = none := by
      rw [Window.get_eq_none_iff]
      exact Nat.lt_or_ge _ _
    rw [hnone]
    simp [InmemLogStore.init, hzero]

namespace Holds

variable {s : InmemLogStore} {w : Window LogEntry}

theorem toNat_ne_zero {i : UInt64} : i ≠ 0 ↔ i.toNat ≠ 0 := by
  rw [ne_eq, ne_eq, ← UInt64.toNat_inj]
  rfl

/-- Which indices there are. -/
theorem mem_logs_iff (h : Holds s w) (i : UInt64) :
    i ∈ s.logs ↔ i = 0 ∨ (w.first ≤ i.toNat ∧ i.toNat < w.next) := by
  rw [Std.ExtTreeMap.mem_iff_isSome_getElem?]
  by_cases hi : i = 0
  · obtain ⟨entry, hentry⟩ := h.dummy
    rw [hi, hentry]
    exact iff_of_true rfl (Or.inl rfl)
  · rw [h.lookup i hi, Window.isSome_get_iff, or_iff_right hi]

/-- **The number of entries tells the length of the window.** -/
theorem size_eq (h : Holds s w) : s.logs.size = w.entries.length + 1 := by
  have hpos := h.first_pos
  have hlt := h.next_lt
  rw [Window.next] at hlt
  have htoNat : ∀ k ∈ List.range' w.first w.entries.length, (UInt64.ofNat k).toNat = k := by
    intro k hk
    rw [List.mem_range'_1] at hk
    have hk' : k < 2 ^ 64 := by omega
    exact UInt64.toNat_ofNat_of_lt' hk'
  have hnodup : (0 :: (List.range' w.first w.entries.length).map UInt64.ofNat).Nodup := by
    refine List.nodup_cons.mpr ⟨?_, ?_⟩
    · intro hmem
      obtain ⟨k, hk, hzero⟩ := List.mem_map.mp hmem
      have hk' := htoNat k hk
      rw [hzero] at hk'
      have hrange := List.mem_range'_1.mp hk
      have hkzero : (0 : UInt64).toNat = 0 := rfl
      omega
    · refine List.Nodup.map_on ?_ List.nodup_range'
      intro j hj k hk hjk
      rw [← htoNat j hj, ← htoNat k hk, hjk]
  rw [TreeMaps.size_eq_length hnodup, List.length_cons, List.length_map, List.length_range']
  intro i
  rw [h.mem_logs_iff, List.mem_cons, List.mem_map]
  refine or_congr_right ?_
  rw [Window.next]
  constructor
  · intro hi
    exact ⟨i.toNat, List.mem_range'_1.mpr hi, UInt64.ofNat_toNat⟩
  · rintro ⟨k, hk, rfl⟩
    rw [htoNat k hk]
    exact List.mem_range'_1.mp hk

/-- **`next_slot` is the index behind the window.** -/
theorem toNat_nextSlot (h : Holds s w) : s.nextSlot.toNat = w.next := by
  have hlt := h.next_lt
  have hstart := h.start
  have hone : (1 : UInt64).toNat = 1 := rfl
  rw [Window.next] at hlt ⊢
  have hsize : s.startIdx + UInt64.ofNat s.logs.size - 1
      = s.startIdx + UInt64.ofNat w.entries.length := by
    rw [h.size_eq, UInt64.ofNat_add]
    have hcancel : ∀ a b : UInt64, a + (b + 1) - 1 = a + b := by
      intro a b
      rw [← UInt64.add_assoc, UInt64.add_sub_cancel]
    exact hcancel _ _
  rw [InmemLogStore.nextSlot, hsize, UInt64.toNat_add, UInt64.toNat_ofNat', hstart]
  omega

/-- The index in front of it. -/
theorem toNat_nextSlot_sub_one (h : Holds s w) : (s.nextSlot - 1).toNat = w.next - 1 := by
  have hone : (1 : UInt64) ≤ s.nextSlot := by
    rw [UInt64.le_iff_toNat_le, h.toNat_nextSlot]
    exact le_trans h.first_pos w.first_le_next
  rw [UInt64.toNat_sub_of_le _ _ hone, h.toNat_nextSlot]
  rfl

end Holds

/-! ## 3. What the calls do to the window -/

namespace InmemLogStore

theorem getElem?_append (s : InmemLogStore) (entry : LogEntry) (i : UInt64) :
    (s.append entry).2.logs[i]? = if i = s.nextSlot then some entry else s.logs[i]? :=
  TreeMaps.getElem?_insert_eq s.logs s.nextSlot entry i

theorem getElem?_writeAt (s : InmemLogStore) (index : UInt64) (entry : LogEntry) (i : UInt64) :
    (s.writeAt index entry).logs[i]?
      = if i = index then some entry else if i < index then s.logs[i]? else none := by
  have hlogs : (s.writeAt index entry).logs
      = ((TreeMaps.keysFrom s.logs index).foldl (fun logs i => logs.erase i) s.logs).insert index
          entry := rfl
  rw [hlogs, TreeMaps.getElem?_insert_eq, TreeMaps.getElem?_erase_keysFrom]
  simp only [Std.compare_eq_lt]

/-- The loop ends with everything up to the index erased. -/
theorem compactLoop_eq {lastLogIndex : UInt64} (hlast : lastLogIndex.toNat + 1 < 2 ^ 64)
    {turns : ℕ} {ii : UInt64} (hturns : lastLogIndex.toNat + 1 < turns + ii.toNat)
    (hone : 0 < turns) (logs : Map UInt64 LogEntry) :
    ∃ logs', compactLoop lastLogIndex turns ii logs = some logs' ∧
      ∀ i : UInt64, logs'[i]? = if ii ≤ i ∧ i ≤ lastLogIndex then none else logs[i]? := by
  induction turns generalizing ii logs with
  | zero => exact absurd hone (Nat.lt_irrefl 0)
  | succ turns ih =>
    rw [compactLoop]
    split
    · rename_i hle
      have hle' : ii.toNat ≤ lastLogIndex.toNat := UInt64.le_iff_toNat_le.mp hle
      have hnext : (ii + 1).toNat = ii.toNat + 1 := toNat_succ (by omega)
      obtain ⟨logs', hloop, hlogs'⟩ := @ih (ii + 1) (by omega) (by omega) (logs.erase ii)
      refine ⟨logs', hloop, ?_⟩
      intro i
      rw [hlogs', TreeMaps.getElem?_erase_eq]
      simp only [UInt64.le_iff_toNat_le, hnext, ← UInt64.toNat_inj]
      split
      · rw [if_pos (by omega)]
      · split
        · rw [if_pos (by omega)]
        · rw [if_neg (by omega)]
    · rename_i hle
      refine ⟨logs, rfl, ?_⟩
      intro i
      rw [if_neg]
      rintro ⟨h1, h2⟩
      exact hle (UInt64.le_trans h1 h2)

/-- **For the greatest index the loop never ends**: the counter wraps around. -/
theorem compactLoop_greatest {lastLogIndex : UInt64} (hlast : lastLogIndex.toNat + 1 = 2 ^ 64)
    (turns : ℕ) (ii : UInt64) (logs : Map UInt64 LogEntry) :
    compactLoop lastLogIndex turns ii logs = none := by
  induction turns generalizing ii logs with
  | zero => rfl
  | succ turns ih =>
    have hle : ii ≤ lastLogIndex := by
      have hlt := ii.toNat_lt
      rw [UInt64.le_iff_toNat_le]
      omega
    rw [compactLoop, if_pos hle, ih]

/-- **When `compact` returns**, whatever is in the store. -/
theorem compact_eq_none_iff (s : InmemLogStore) (lastLogIndex : UInt64) :
    s.compact lastLogIndex = none ↔ lastLogIndex.toNat + 1 = 2 ^ 64 := by
  have hlt := lastLogIndex.toNat_lt
  rw [compact, Option.map_eq_none_iff]
  constructor
  · intro hnone
    by_contra hlast
    have hturns : lastLogIndex.toNat + 1
        < lastLogIndex.toNat + 1 - s.startIdx.toNat + 1 + s.startIdx.toNat := by omega
    obtain ⟨logs', hloop, -⟩ := compactLoop_eq (by omega) hturns (Nat.succ_pos _) s.logs
    rw [hloop] at hnone
    exact absurd hnone (by simp)
  · intro hlast
    exact compactLoop_greatest hlast _ _ _

theorem lt_of_compact {s s' : InmemLogStore} {lastLogIndex : UInt64}
    (h : s.compact lastLogIndex = some s') : lastLogIndex.toNat + 1 < 2 ^ 64 := by
  have hlt := lastLogIndex.toNat_lt
  have hne : ¬ lastLogIndex.toNat + 1 = 2 ^ 64 := by
    intro hend
    rw [(compact_eq_none_iff s lastLogIndex).mpr hend] at h
    exact absurd h (by simp)
  omega

end InmemLogStore

namespace Holds

variable {s : InmemLogStore} {w : Window LogEntry}

theorem dummy_of_lookup_zero {s' : InmemLogStore} (h : Holds s w)
    (hzero : s'.logs[(0 : UInt64)]? = s.logs[(0 : UInt64)]?) :
    ∃ entry, s'.logs[(0 : UInt64)]? = some entry := by
  rw [hzero]
  exact h.dummy

/-- **`append` appends**, and answers the index of the new entry. -/
theorem append (h : Holds s w) (entry : LogEntry) (hroom : w.next + 1 < 2 ^ 64) :
    (s.append entry).1.toNat = w.next ∧ Holds (s.append entry).2 (w.append entry) := by
  have hnext : s.nextSlot.toNat = w.next := h.toNat_nextSlot
  refine ⟨hnext, h.start, h.first_pos, ?_, ?_, ?_⟩
  · rw [Window.next_append]
    exact hroom
  · refine h.dummy_of_lookup_zero ?_
    rw [InmemLogStore.getElem?_append, if_neg]
    intro hzero
    have hpos := h.first_pos
    have hle := w.first_le_next
    have hzero' : (0 : UInt64).toNat = 0 := rfl
    rw [← hzero] at hnext
    omega
  · intro i hi
    rw [InmemLogStore.getElem?_append, Window.get_append, h.lookup i hi, ← hnext]
    simp only [UInt64.toNat_inj]

/-- **`write_at` overwrites**, at an index of the window or the one behind it. -/
theorem writeAt (h : Holds s w) {index : UInt64} (entry : LogEntry)
    (h1 : w.first ≤ index.toNat) (h2 : index.toNat ≤ w.next) (hroom : index.toNat + 1 < 2 ^ 64) :
    Holds (s.writeAt index entry) (w.overwrite index.toNat entry) := by
  have hpos := h.first_pos
  have hzero : (0 : UInt64).toNat = 0 := rfl
  refine ⟨h.start, h.first_pos, ?_, ?_, ?_⟩
  · rw [Window.next_overwrite h1 h2]
    exact hroom
  · refine h.dummy_of_lookup_zero ?_
    have hne : ¬ (0 : UInt64) = index := by
      rintro rfl
      omega
    have hlt : (0 : UInt64) < index := by
      rw [UInt64.lt_iff_toNat_lt]
      omega
    rw [InmemLogStore.getElem?_writeAt, if_neg hne, if_pos hlt]
  · intro i hi
    rw [InmemLogStore.getElem?_writeAt, Window.get_overwrite h1 h2, h.lookup i hi]
    simp only [UInt64.toNat_inj, UInt64.lt_iff_toNat_lt]

/-- With index 0 it replaces the dummy, and there is nothing else any more. -/
theorem writeAt_zero (h : Holds s w) (entry : LogEntry) :
    Holds (s.writeAt 0 entry) ⟨w.first, []⟩ := by
  have hle := w.first_le_next
  have hlt := h.next_lt
  refine ⟨h.start, h.first_pos, ?_, ⟨entry, ?_⟩, ?_⟩
  · rw [Window.next, List.length_nil]
    dsimp only
    omega
  · rw [InmemLogStore.getElem?_writeAt, if_pos rfl]
  · intro i hi
    have hnot : ¬ i < 0 := by
      rw [UInt64.lt_iff_toNat_lt]
      exact Nat.not_lt_zero _
    rw [InmemLogStore.getElem?_writeAt, if_neg hi, if_neg hnot, Window.get_of_nil rfl]

/-- **`compact` compacts**, also beyond the end of the window. -/
theorem compact (h : Holds s w) {lastLogIndex : UInt64} (hlast : lastLogIndex.toNat + 1 < 2 ^ 64) :
    ∃ s', s.compact lastLogIndex = some s' ∧ Holds s' (w.compact lastLogIndex.toNat) := by
  have hpos := h.first_pos
  have hstart := h.start
  have hturns : lastLogIndex.toNat + 1
      < lastLogIndex.toNat + 1 - s.startIdx.toNat + 1 + s.startIdx.toNat := by omega
  obtain ⟨logs', hloop, hlogs'⟩ :=
    InmemLogStore.compactLoop_eq hlast hturns (Nat.succ_pos _) s.logs
  refine ⟨_, by rw [InmemLogStore.compact, hloop, Option.map_some], ?_, ?_, ?_, ?_, ?_⟩
  · have hnext : (lastLogIndex + 1).toNat = lastLogIndex.toNat + 1 := toNat_succ hlast
    rw [Window.first_compact]
    dsimp only
    split
    · rename_i hle
      rw [UInt64.le_iff_toNat_le] at hle
      omega
    · rename_i hle
      rw [UInt64.le_iff_toNat_le] at hle
      omega
  · rw [Window.first_compact]
    omega
  · have hlt := h.next_lt
    rw [Window.next_compact]
    omega
  · refine h.dummy_of_lookup_zero ?_
    have hnot : ¬ (s.startIdx ≤ 0 ∧ (0 : UInt64) ≤ lastLogIndex) := by
      rintro ⟨hle, -⟩
      have hzero : (0 : UInt64).toNat = 0 := rfl
      rw [UInt64.le_iff_toNat_le] at hle
      omega
    dsimp only
    rw [hlogs', if_neg hnot]
  · intro i hi
    dsimp only
    rw [hlogs', Window.get_compact, h.lookup i hi]
    simp only [UInt64.le_iff_toNat_le, hstart]
    by_cases hfirst : w.first ≤ i.toNat
    · simp only [hfirst, true_and]
    · have hnone : w.get i.toNat = none := Window.get_eq_none_iff.mpr (Or.inl (by omega))
      rw [hnone, ite_self, ite_self]

end Holds

/-- An entry of an application, without timestamp and checksum. -/
def entryOf (text : String) : LogEntry :=
  { term := 1, buf := str text, valType := 1, timestamp := 0, hasCrc32 := false, crc32 := 0 }

/-- The store of the runs on concrete inputs: two entries, appended to a new store. -/
def booksLogStore : InmemLogStore :=
  (((InmemLogStore.init (entryOf "")).append (entryOf "books 3")).2.append (entryOf "books 4")).2

theorem holds_booksLogStore : Holds booksLogStore ⟨1, [entryOf "books 3", entryOf "books 4"]⟩ :=
  (((holds_init _).append _ (by decide)).2.append _ (by decide)).2

/-! ## 4. When a write keeps a window -/

/-- Nothing is found in front of the first index. -/
theorem WellFormed.startIdx_le {s : InmemLogStore} (h : WellFormed s) {i : UInt64} (hi : i ≠ 0)
    (hsome : s.logs[i]?.isSome) : s.startIdx ≤ i := by
  obtain ⟨w, hw⟩ := h
  rw [hw.lookup i hi, Window.isSome_get_iff] at hsome
  rw [UInt64.le_iff_toNat_le, hw.start]
  exact hsome.1

/-- Where something is found, everything from the first index on is. -/
theorem WellFormed.isSome_between {s : InmemLogStore} (h : WellFormed s) {i j : UInt64}
    (hi : i ≠ 0) (hsome : s.logs[i]?.isSome) (h1 : s.startIdx ≤ j) (h2 : j ≤ i) :
    s.logs[j]?.isSome := by
  obtain ⟨w, hw⟩ := h
  have hpos := hw.first_pos
  rw [UInt64.le_iff_toNat_le, hw.start] at h1
  rw [UInt64.le_iff_toNat_le] at h2
  rw [hw.lookup i hi, Window.isSome_get_iff] at hsome
  have hj : j ≠ 0 := Holds.toNat_ne_zero.mpr (by omega)
  rw [hw.lookup j hj, Window.isSome_get_iff]
  omega

/-- The index behind the window: it is not an index of the window, and not the dummy's. -/
theorem Holds.nextSlot_spec {s : InmemLogStore} {w : Window LogEntry} (h : Holds s w) :
    s.startIdx ≤ s.nextSlot ∧ s.nextSlot ≠ 0 ∧ s.logs[s.nextSlot]? = none := by
  have hpos := h.first_pos
  have hle := w.first_le_next
  have hzero : s.nextSlot ≠ 0 := by
    rw [Holds.toNat_ne_zero, h.toNat_nextSlot]
    omega
  refine ⟨?_, hzero, ?_⟩
  · rw [UInt64.le_iff_toNat_le, h.toNat_nextSlot, h.start]
    exact hle
  · rw [h.lookup _ hzero, Window.get_eq_none_iff, h.toNat_nextSlot]
    exact Or.inr (Nat.le_refl _)

theorem Holds.startIdx_eq_nextSlot_iff {s : InmemLogStore} {w : Window LogEntry} (h : Holds s w) :
    s.startIdx = s.nextSlot ↔ w.entries = [] := by
  rw [← UInt64.toNat_inj, h.start, h.toNat_nextSlot, Window.next, ← List.length_eq_zero_iff]
  omega

/-- **When `write_at` keeps a window**: at index 0, at an index of the window, and at the one
behind it. -/
theorem writeAt_wellFormed_iff {s : InmemLogStore} {w : Window LogEntry} (h : Holds s w)
    {index : UInt64} (entry : LogEntry) (hroom : index.toNat + 1 < 2 ^ 64) :
    WellFormed (s.writeAt index entry) ↔
      index = 0 ∨ (w.first ≤ index.toNat ∧ index.toNat ≤ w.next) := by
  constructor
  · intro hwf
    rw [or_iff_not_imp_left]
    intro hindex
    have hsome : ((s.writeAt index entry).logs[index]?).isSome = true := by
      rw [InmemLogStore.getElem?_writeAt, if_pos rfl]
      rfl
    have hle : s.startIdx ≤ index := hwf.startIdx_le hindex hsome
    refine ⟨by rwa [UInt64.le_iff_toNat_le, h.start] at hle, ?_⟩
    by_contra hgap
    -- the index behind the window is not among the entries, and it is not the new one
    obtain ⟨hstart, -, hnone⟩ := h.nextSlot_spec
    rw [← h.toNat_nextSlot] at hgap
    have hbelow : s.nextSlot ≤ index := by
      rw [UInt64.le_iff_toNat_le]
      omega
    have hsome' := hwf.isSome_between hindex hsome hstart hbelow
    have hne : ¬ s.nextSlot = index := by
      intro heq
      exact hgap (heq ▸ Nat.le_refl _)
    rw [InmemLogStore.getElem?_writeAt, if_neg hne, hnone, ite_self] at hsome'
    exact absurd hsome' (by simp)
  · rintro (rfl | ⟨h1, h2⟩)
    · exact ⟨_, h.writeAt_zero entry⟩
    · exact ⟨_, h.writeAt entry h1 h2 hroom⟩

end ReplicatedMapReduce
