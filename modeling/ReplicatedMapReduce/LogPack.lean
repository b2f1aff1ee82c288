/-
# Packing a part of the log

A server that joins a cluster gets the log of the leader packed into one buffer: `pack` puts down
how many entries there are, and then each entry behind its length, and `apply_pack` puts them into
the store of the new server under the indices they had.  Entries go through `serialize` and
`deserialize` of NuRaft on the way, which keep the term, the data and the type of an entry and
nothing else, so that is what arrives (`applyPack_pack`).

`apply_pack` works entry by entry, and only at the end looks which index is the first one now.  An
exception in the middle leaves the entries before it in the store and the first index as it was.
What becomes of the window is therefore a question of where the new entries go, and the answer is
different for a pack that is read to its end and for one that is not (`applyPack_wellFormed_iff`).

Negative counts are not part of the model; no caller has one.
-/
import ReplicatedMapReduce.LogReads

namespace ReplicatedMapReduce

/-! ## 1. The two calls -/

/-- What `serialize` keeps of an entry. -/
structure LogEntry.Same (a b : LogEntry) : Prop where
  term : a.term = b.term
  buf : a.buf = b.buf
  valType : a.valType = b.valType

/-- The calls on `nuraft::buffer` and `nuraft::log_entry` that a pack goes through, and what is
relied on.  `putInt` gives the bytes the call appends; `getInt` and `getBuffer` read from the front
and hand back what is left. -/
class LogBuffers where
  putInt : Int32 → Str
  getInt : Str → Except StdException (Int32 × Str)
  /-- `buffer::alloc(size)`, and `get` into the new buffer. -/
  getBuffer : Int32 → Str → Except StdException (Str × Str)
  serialize : LogEntry → Str
  deserialize : Str → Except StdException LogEntry
  /-- What `put` writes of an `int32`, `get_int` reads back. -/
  getInt_putInt : ∀ n rest, getInt (putInt n ++ rest) = .ok (n, rest)
  /-- `get` fills the buffer it is given. -/
  getBuffer_append : ∀ n data rest, n.toInt = data.length →
    getBuffer n (data ++ rest) = .ok (data, rest)
  /-- Term, type and data are what an entry is written as. -/
  deserialize_serialize : ∀ entry, ∃ entry', deserialize (serialize entry) = .ok entry' ∧
    entry'.Same entry

namespace InmemLogStore

variable [LogBuffers]

/-- The first loop of `pack`.  Where there is no entry, `logs_[ii]` makes a null pointer of it, and
the assertion fails. -/
def packLoop (s : InmemLogStore) : ℕ → UInt64 → Except Fault (List Str)
  | 0, _ => .ok []
  | turns + 1, ii =>
    match s.logs[ii]? with
    | none => .error .assertionFailed
    | some le =>
      match s.packLoop turns (ii + 1) with
      | .error e => .error e
      | .ok logs => .ok (LogBuffers.serialize le :: logs)

/-- What `pack` writes for a serialized entry. -/
def packEntry (bb : Str) : Str := LogBuffers.putInt (Int32.ofNat bb.length) ++ bb

/-- `pack`, for a count that is not negative. -/
def pack (s : InmemLogStore) (index : UInt64) (cnt : ℕ) : Except Fault Str :=
  match s.packLoop ((index + UInt64.ofNat cnt).toNat - index.toNat) index with
  | .error e => .error e
  | .ok logs => .ok (LogBuffers.putInt (Int32.ofNat cnt) ++ logs.flatMap packEntry)

/-- The loop of `apply_pack`: the entries afterwards, and the exception if there was one. -/
def applyPackLoop :
    ℕ → UInt64 → Str → Map UInt64 LogEntry → Map UInt64 LogEntry × Except StdException Unit
  | 0, _, _, logs => (logs, .ok ())
  | turns + 1, curIdx, pack, logs =>
    match LogBuffers.getInt pack with
    | .error e => (logs, .error e)
    | .ok (bufSize, pack) =>
      match LogBuffers.getBuffer bufSize pack with
      | .error e => (logs, .error e)
      | .ok (bufLocal, pack) =>
        match LogBuffers.deserialize bufLocal with
        | .error e => (logs, .error e)
        | .ok le => applyPackLoop turns (curIdx + 1) pack (logs.insert curIdx le)

/-- `logs_.upper_bound(0)`, and 1 if that is `end()`. -/
def firstIndex (logs : Map UInt64 LogEntry) : UInt64 :=
  (logs.keys.find? fun key => compare key 0 == .gt).getD 1

/-- `apply_pack`: the store afterwards, and the exception if there was one. -/
def applyPack (s : InmemLogStore) (index : UInt64) (pack : Str) :
    InmemLogStore × Except StdException Unit :=
  match LogBuffers.getInt pack with
  | .error e => (s, .error e)
  | .ok (numLogs, pack) =>
    match applyPackLoop numLogs.toInt.toNat index pack s.logs with
    | (logs, .error e) => ({ s with logs }, .error e)
    | (logs, .ok ()) => ({ logs, startIdx := firstIndex logs }, .ok ())

/-! ## 2. Packing -/

theorem packLoop_eq (s : InmemLogStore) (turns : ℕ) (ii : UInt64) :
    s.packLoop turns ii = (s.logEntriesLoop turns ii).map (List.map LogBuffers.serialize) := by
  induction turns generalizing ii with
  | zero => rfl
  | succ turns ih =>
    rw [packLoop, logEntriesLoop]
    cases s.logs[ii]? with
    | none => rfl
    | some le =>
      dsimp only
      rw [ih]
      cases s.logEntriesLoop turns (ii + 1) <;> rfl

/-- The buffer `pack` makes of some entries. -/
def packed (entries : List LogEntry) : Str :=
  LogBuffers.putInt (Int32.ofNat entries.length) ++
    entries.flatMap fun entry => packEntry (LogBuffers.serialize entry)

end InmemLogStore

/-- **`pack` packs a slice of the window, or asserts.** -/
theorem Holds.pack_eq [LogBuffers] {s : InmemLogStore} {w : Window LogEntry} (h : Holds s w)
    {index : UInt64} {cnt : ℕ} (hindex : index ≠ 0) (hroom : index.toNat + cnt < 2 ^ 64) :
    s.pack index cnt =
      if cnt = 0 ∨ (w.first ≤ index.toNat ∧ index.toNat + cnt ≤ w.next)
      then .ok (InmemLogStore.packed (w.slice index.toNat (index.toNat + cnt)))
      else .error .assertionFailed := by
  have hturns : (index + UInt64.ofNat cnt).toNat - index.toNat = cnt := by
    have hcnt : cnt < 2 ^ 64 := by omega
    rw [UInt64.toNat_add, UInt64.toNat_ofNat_of_lt' hcnt, Nat.mod_eq_of_lt hroom,
      Nat.add_sub_cancel_left]
  rw [InmemLogStore.pack, hturns, InmemLogStore.packLoop_eq, h.logEntriesLoop_eq hindex hroom]
  by_cases hin : cnt = 0 ∨ (w.first ≤ index.toNat ∧ index.toNat + cnt ≤ w.next)
  · have hlen : (w.slice index.toNat (index.toNat + cnt)).length = cnt := by
      rcases hin with rfl | ⟨h1, h2⟩
      · rw [Nat.add_zero, Window.slice_eq_nil (Nat.le_refl _), List.length_nil]
      · rw [Window.length_slice h1 h2, Nat.add_sub_cancel_left]
    rw [if_pos hin, if_pos hin, InmemLogStore.packed, hlen]
    simp only [Except.map, List.flatMap_map]
  · rw [if_neg hin, if_neg hin]
    rfl

/-! ## 3. What `apply_pack` puts into the store -/

namespace InmemLogStore

variable [LogBuffers]

/-- The entries a pack is read as before it ends or an exception is thrown. -/
def unpackLoop : ℕ → Str → List LogEntry × Except StdException Unit
  | 0, _ => ([], .ok ())
  | turns + 1, pack =>
    match LogBuffers.getInt pack with
    | .error e => ([], .error e)
    | .ok (bufSize, pack) =>
      match LogBuffers.getBuffer bufSize pack with
      | .error e => ([], .error e)
      | .ok (bufLocal, pack) =>
        match LogBuffers.deserialize bufLocal with
        | .error e => ([], .error e)
        | .ok le => ((le :: (unpackLoop turns pack).1), (unpackLoop turns pack).2)

def unpack (pack : Str) : List LogEntry × Except StdException Unit :=
  match LogBuffers.getInt pack with
  | .error e => ([], .error e)
  | .ok (numLogs, pack) => unpackLoop numLogs.toInt.toNat pack

omit [LogBuffers] in
/-- Entries put under consecutive indices. -/
def insertFrom : UInt64 → List LogEntry → Map UInt64 LogEntry → Map UInt64 LogEntry
  | _, [], logs => logs
  | curIdx, le :: entries, logs => insertFrom (curIdx + 1) entries (logs.insert curIdx le)

theorem applyPackLoop_eq (turns : ℕ) (curIdx : UInt64) (pack : Str) (logs : Map UInt64 LogEntry) :
    applyPackLoop turns curIdx pack logs
      = (insertFrom curIdx (unpackLoop turns pack).1 logs, (unpackLoop turns pack).2) := by
  induction turns generalizing curIdx pack logs with
  | zero => rfl
  | succ turns ih =>
    rw [applyPackLoop, unpackLoop]
    split
    · rfl
    · split
      · rfl
      · split
        · rfl
        · exact ih _ _ _

/-- **What `apply_pack` does**: the entries that can be read go into the store, and only if that
were all of them the first index is looked up. -/
theorem applyPack_eq (s : InmemLogStore) (index : UInt64) (pack : Str) :
    s.applyPack index pack =
      (⟨insertFrom index (unpack pack).1 s.logs,
        if (unpack pack).2.isOk then firstIndex (insertFrom index (unpack pack).1 s.logs)
        else s.startIdx⟩, (unpack pack).2) := by
  rw [applyPack, unpack]
  split
  · rfl
  · rw [applyPackLoop_eq]
    cases (unpackLoop _ _).2 <;> rfl

omit [LogBuffers] in
theorem getElem?_insertFrom {curIdx : UInt64} {entries : List LogEntry}
    (hroom : curIdx.toNat + entries.length < 2 ^ 64) (logs : Map UInt64 LogEntry) (i : UInt64) :
    (insertFrom curIdx entries logs)[i]? =
      if curIdx.toNat ≤ i.toNat ∧ i.toNat < curIdx.toNat + entries.length
      then entries[i.toNat - curIdx.toNat]? else logs[i]? := by
  induction entries generalizing curIdx logs with
  | nil =>
    rw [insertFrom, if_neg]
    rw [List.length_nil]
    omega
  | cons le entries ih =>
    rw [List.length_cons] at hroom ⊢
    have hnext : (curIdx + 1).toNat = curIdx.toNat + 1 := toNat_succ (by omega)
    rw [insertFrom, ih (by omega), hnext, TreeMaps.getElem?_insert_eq]
    simp only [← UInt64.toNat_inj]
    rcases Nat.lt_trichotomy i.toNat curIdx.toNat with hlt | heq | hgt
    · rw [if_neg (by omega), if_neg (by omega), if_neg (by omega)]
    · rw [if_neg (by omega), if_pos heq, if_pos (by omega), heq, Nat.sub_self,
        List.getElem?_cons_zero]
    · obtain ⟨k, hk⟩ := Nat.exists_eq_add_of_lt hgt
      have h1 : i.toNat - (curIdx.toNat + 1) = k := by omega
      have h2 : i.toNat - curIdx.toNat = k + 1 := by omega
      rw [h1, h2, List.getElem?_cons_succ, if_neg (show ¬ i.toNat = curIdx.toNat by omega)]
      by_cases hin : i.toNat < curIdx.toNat + (entries.length + 1)
      · rw [if_pos (by omega), if_pos (by omega)]
      · rw [if_neg (by omega), if_neg (by omega)]

omit [LogBuffers] in
/-- Entries are put in, and none is taken out. -/
theorem mem_insertFrom_iff {curIdx : UInt64} {entries : List LogEntry}
    (hroom : curIdx.toNat + entries.length < 2 ^ 64) {logs : Map UInt64 LogEntry} {i : UInt64} :
    i ∈ insertFrom curIdx entries logs ↔
      (curIdx.toNat ≤ i.toNat ∧ i.toNat < curIdx.toNat + entries.length) ∨ i ∈ logs := by
  rw [Std.ExtTreeMap.mem_iff_isSome_getElem?, getElem?_insertFrom hroom]
  split
  · rename_i hin
    rw [List.getElem?_eq_getElem (by omega)]
    exact iff_of_true rfl (Or.inl hin)
  · rename_i hin
    rw [← Std.ExtTreeMap.mem_iff_isSome_getElem?, or_iff_right hin]

/-- **A packed list is read back**, up to what `serialize` does not keep. -/
theorem unpack_packed {entries : List LogEntry} (hcnt : entries.length < 2 ^ 31)
    (hsize : ∀ entry ∈ entries, (LogBuffers.serialize entry).length < 2 ^ 31) :
    ∃ arrived, unpack (packed entries) = (arrived, .ok ()) ∧
      List.Forall₂ LogEntry.Same arrived entries := by
  have hloop : ∀ entries : List LogEntry,
      (∀ entry ∈ entries, (LogBuffers.serialize entry).length < 2 ^ 31) →
      ∃ arrived, unpackLoop entries.length
          (entries.flatMap fun entry => packEntry (LogBuffers.serialize entry))
        = (arrived, .ok ()) ∧ List.Forall₂ LogEntry.Same arrived entries := by
    intro entries
    induction entries with
    | nil => exact fun _ => ⟨[], rfl, .nil⟩
    | cons entry entries ih =>
      intro hsize
      obtain ⟨entry', hentry, hsame⟩ := LogBuffers.deserialize_serialize entry
      obtain ⟨arrived, hrest, hall⟩ := ih fun e he => hsize e (List.mem_cons_of_mem _ he)
      have hlen := hsize entry List.mem_cons_self
      have hint : (Int32.ofNat (LogBuffers.serialize entry).length).toInt
          = (LogBuffers.serialize entry).length := Int32.toInt_ofNat_of_lt hlen
      refine ⟨entry' :: arrived, ?_, .cons hsame hall⟩
      rw [List.length_cons, unpackLoop, List.flatMap_cons, packEntry, List.append_assoc,
        LogBuffers.getInt_putInt]
      dsimp only
      rw [LogBuffers.getBuffer_append _ _ _ hint]
      dsimp only
      rw [hentry, hrest]
  obtain ⟨arrived, hunpack, hall⟩ := hloop entries hsize
  refine ⟨arrived, ?_, hall⟩
  have hnum : (Int32.ofNat entries.length).toInt.toNat = entries.length := by
    rw [Int32.toInt_ofNat_of_lt hcnt, Int.toNat_natCast]
  rw [unpack, packed, LogBuffers.getInt_putInt]
  dsimp only
  rw [hnum, hunpack]

end InmemLogStore

/-! ## 4. What becomes of the window -/

namespace InmemLogStore

theorem gt_zero_iff {i : UInt64} : (compare i 0 == .gt) = true ↔ i ≠ 0 := by
  rw [beq_iff_eq, Std.compare_eq_gt, UInt64.lt_iff_toNat_lt, Holds.toNat_ne_zero]
  exact Nat.pos_iff_ne_zero

/-- The first index is that of an entry, if there is one beside the dummy, and no entry is in front
of it. -/
theorem firstIndex_spec {logs : Map UInt64 LogEntry} {i : UInt64} (hi : i ∈ logs) (hne : i ≠ 0) :
    firstIndex logs ∈ logs ∧ firstIndex logs ≠ 0 ∧ firstIndex logs ≤ i := by
  have hsome : (logs.keys.find? fun key => compare key 0 == .gt).isSome := by
    rw [List.find?_isSome]
    exact ⟨i, Std.ExtTreeMap.mem_keys.mpr hi, gt_zero_iff.mpr hne⟩
  obtain ⟨k, hk⟩ := Option.isSome_iff_exists.mp hsome
  obtain ⟨hmem, hpos, hleast⟩ := TreeMaps.find?_keys_eq_some.mp hk
  rw [firstIndex, hk, Option.getD_some]
  refine ⟨hmem, gt_zero_iff.mp hpos, ?_⟩
  rcases hleast i hi (gt_zero_iff.mpr hne) with rfl | hlt
  · exact UInt64.le_refl _
  · rw [Std.compare_eq_lt] at hlt
    exact UInt64.le_of_lt hlt

theorem firstIndex_of_nil {logs : Map UInt64 LogEntry} (h : ∀ i ∈ logs, i = 0) :
    firstIndex logs = 1 := by
  have hnone : (logs.keys.find? fun key => compare key 0 == .gt) = none := by
    rw [List.find?_eq_none]
    intro i hi hgt
    exact gt_zero_iff.mp hgt (h i (Std.ExtTreeMap.mem_keys.mp hi))
  rw [firstIndex, hnone, Option.getD_none]

/-- Where the entries are those of a window, the first index is that of the window. -/
theorem firstIndex_eq {logs : Map UInt64 LogEntry} {v : Window LogEntry} (hpos : 0 < v.first)
    (hlt : v.next < 2 ^ 64) (hne : v.entries ≠ [])
    (hlookup : ∀ i : UInt64, i ≠ 0 → logs[i]? = v.get i.toNat) :
    (firstIndex logs).toNat = v.first := by
  have hlen : 0 < v.entries.length := List.length_pos_iff.mpr hne
  have hmem : ∀ i : UInt64, i ≠ 0 → (i ∈ logs ↔ v.first ≤ i.toNat ∧ i.toNat < v.next) := by
    intro i hi
    rw [Std.ExtTreeMap.mem_iff_isSome_getElem?, hlookup i hi, Window.isSome_get_iff]
  have hfirst : (UInt64.ofNat v.first).toNat = v.first := by
    have hlt' : v.first < 2 ^ 64 := Nat.lt_of_le_of_lt v.first_le_next hlt
    exact UInt64.toNat_ofNat_of_lt' hlt'
  have hnez : UInt64.ofNat v.first ≠ 0 := Holds.toNat_ne_zero.mpr (by omega)
  have hin : UInt64.ofNat v.first ∈ logs := by
    rw [hmem _ hnez, Window.next]
    omega
  obtain ⟨hmem', hne', hle⟩ := firstIndex_spec hin hnez
  rw [UInt64.le_iff_toNat_le, hfirst] at hle
  have hge := ((hmem _ hne').mp hmem').1
  omega

end InmemLogStore

section ApplyPack

variable {s : InmemLogStore} {w : Window LogEntry}

open InmemLogStore

/-- The lookups after entries have been laid over the window. -/
theorem Holds.getElem?_insertFrom (h : Holds s w) {index : UInt64} {es : List LogEntry}
    (hroom : index.toNat + es.length < 2 ^ 64) (htouch : w.Touches index.toNat es.length)
    {i : UInt64} (hi : i ≠ 0) :
    (insertFrom index es s.logs)[i]? = (w.patch index.toNat es).get i.toNat := by
  rw [InmemLogStore.getElem?_insertFrom hroom, Window.get_patch htouch, h.lookup i hi]

theorem Holds.dummy_insertFrom (h : Holds s w) {index : UInt64} {es : List LogEntry}
    (hindex : index ≠ 0) (hroom : index.toNat + es.length < 2 ^ 64) :
    ∃ entry, (insertFrom index es s.logs)[(0 : UInt64)]? = some entry := by
  have hindex' := Holds.toNat_ne_zero.mp hindex
  have hzero : (0 : UInt64).toNat = 0 := rfl
  rw [InmemLogStore.getElem?_insertFrom hroom, if_neg (by omega)]
  exact h.dummy

theorem Holds.next_patch_lt (h : Holds s w) {i : ℕ} {es : List LogEntry}
    (hroom : i + es.length < 2 ^ 64) (htouch : w.Touches i es.length) :
    (w.patch i es).next < 2 ^ 64 := by
  have hlt := h.next_lt
  rw [Window.next_patch htouch]
  split <;> omega

/-- There is no gap between the first index and an entry. -/
theorem WellFormed.no_gap {s' : InmemLogStore} (hwf : WellFormed s') {i j : UInt64}
    (hi : i ∈ s'.logs) (hne : i ≠ 0) (hj : s'.logs[j]? = none) (h1 : s'.startIdx ≤ j)
    (h2 : j ≤ i) : False := by
  rw [Std.ExtTreeMap.mem_iff_isSome_getElem?] at hi
  have hsome := hwf.isSome_between hne hi h1 h2
  rw [hj] at hsome
  exact absurd hsome (by simp)

/-- The entries of a pack that are beyond the window leave the index behind it free. -/
theorem Holds.nextSlot_free (h : Holds s w) {index : UInt64} {es : List LogEntry}
    (hroom : index.toNat + es.length < 2 ^ 64) (hbeyond : w.next < index.toNat) :
    (insertFrom index es s.logs)[s.nextSlot]? = none := by
  have hnext := h.toNat_nextSlot
  rw [InmemLogStore.getElem?_insertFrom hroom, if_neg (by omega), h.nextSlot_spec.2.2]

/-- **A pack that leaves a gap**, on either side of a window that is not empty. -/
theorem Holds.touches_of_wellFormed (h : Holds s w) {index : UInt64} {es : List LogEntry}
    (hindex : index ≠ 0) (hes : es ≠ []) (hroom : index.toNat + es.length < 2 ^ 64)
    (hwf : WellFormed ⟨insertFrom index es s.logs, firstIndex (insertFrom index es s.logs)⟩) :
    w.Touches index.toNat es.length := by
  by_contra hgap
  rw [Window.Touches, not_or, not_and_or] at hgap
  obtain ⟨hne, hgap⟩ := hgap
  have hlen : 0 < es.length := List.length_pos_iff.mpr hes
  have hlen' : 0 < w.entries.length := List.length_pos_iff.mpr hne
  have hpos := h.first_pos
  have hlt := h.next_lt
  have hstart := h.start
  have hin : index ∈ insertFrom index es s.logs :=
    (mem_insertFrom_iff hroom).mpr (Or.inl (by omega))
  have hstart' : s.startIdx ≠ 0 := Holds.toNat_ne_zero.mpr (by omega)
  have hin' : s.startIdx ∈ insertFrom index es s.logs := by
    refine (mem_insertFrom_iff hroom).mpr (Or.inr ((h.mem_logs_iff _).mpr (Or.inr ?_)))
    rw [Window.next]
    omega
  rcases hgap with hbeyond | hbefore
  · obtain ⟨hle, -, -⟩ := h.nextSlot_spec
    have hbelow : s.nextSlot ≤ index := by
      rw [UInt64.le_iff_toNat_le, h.toNat_nextSlot]
      omega
    have hfirst := (firstIndex_spec hin' hstart').2.2
    exact hwf.no_gap hin hindex (h.nextSlot_free hroom (by omega)) (UInt64.le_trans hfirst hle)
      hbelow
  · -- the index behind the pack
    have hbehind : (UInt64.ofNat (index.toNat + es.length)).toNat = index.toNat + es.length :=
      UInt64.toNat_ofNat_of_lt' hroom
    have hnone : (insertFrom index es s.logs)[UInt64.ofNat (index.toNat + es.length)]? = none := by
      rw [InmemLogStore.getElem?_insertFrom hroom, if_neg (by omega),
        h.lookup _ (Holds.toNat_ne_zero.mpr (by omega)), Window.get_eq_none_iff]
      omega
    have hfirst := (firstIndex_spec hin hindex).2.2
    have hle : index ≤ UInt64.ofNat (index.toNat + es.length) := by
      rw [UInt64.le_iff_toNat_le]
      omega
    have hbelow : UInt64.ofNat (index.toNat + es.length) ≤ s.startIdx := by
      rw [UInt64.le_iff_toNat_le]
      omega
    exact hwf.no_gap hin' hstart' hnone (UInt64.le_trans hfirst hle) hbelow

variable [LogBuffers]

/-- **A pack that is read to its end lies over the window**, if there is no gap. -/
theorem Holds.applyPack_ok (h : Holds s w) {index : UInt64} {data : Str} {es : List LogEntry}
    (hindex : index ≠ 0) (hunpack : unpack data = (es, .ok ())) (hne : es ≠ [])
    (hroom : index.toNat + es.length < 2 ^ 64) (htouch : w.Touches index.toNat es.length) :
    Holds (s.applyPack index data).1 (w.patch index.toNat es) := by
  have hpos := h.first_pos
  have hindex' := Holds.toNat_ne_zero.mp hindex
  have hfirst : 0 < (w.patch index.toNat es).first := by
    rw [Window.first_patch]
    split <;> omega
  have hnext := h.next_patch_lt hroom htouch
  have hentries : (w.patch index.toNat es).entries ≠ [] := by
    rw [Window.patch]
    split <;> simp [hne]
  have hlookup : ∀ i : UInt64, i ≠ 0 →
      (insertFrom index es s.logs)[i]? = (w.patch index.toNat es).get i.toNat :=
    fun i hi => h.getElem?_insertFrom hroom htouch hi
  rw [applyPack_eq, hunpack]
  exact ⟨firstIndex_eq hfirst hnext hentries hlookup, hfirst, hnext,
    h.dummy_insertFrom hindex hroom, hlookup⟩

/-- A pack with nothing in it looks up the first index, and where there is no entry forgets it. -/
theorem Holds.applyPack_nil (h : Holds s w) {index : UInt64} {data : Str}
    (hunpack : unpack data = ([], .ok ())) :
    Holds (s.applyPack index data).1 (if w.entries = [] then ⟨1, []⟩ else w) := by
  rw [applyPack_eq, hunpack]
  by_cases hempty : w.entries = []
  · have hnone : ∀ i : UInt64, i ≠ 0 → s.logs[i]? = none := by
      intro i hi
      rw [h.lookup i hi, Window.get_of_nil hempty]
    rw [if_pos hempty]
    refine ⟨?_, Nat.one_pos, by decide, h.dummy, fun i hi => ?_⟩
    · have hall : ∀ i ∈ s.logs, i = 0 := by
        intro i hi
        by_contra hne
        rw [Std.ExtTreeMap.mem_iff_isSome_getElem?, hnone i hne] at hi
        exact absurd hi (by simp)
      exact congrArg UInt64.toNat (firstIndex_of_nil hall)
    · rw [Window.get_of_nil rfl]
      exact hnone i hi
  · rw [if_neg hempty]
    exact ⟨firstIndex_eq h.first_pos h.next_lt hempty h.lookup, h.first_pos, h.next_lt, h.dummy,
      h.lookup⟩

omit [LogBuffers] in
/-- Entries that begin in the window or right behind it lie over it, and the first index stays. -/
theorem Holds.insertFrom (h : Holds s w) {index : UInt64} {es : List LogEntry}
    (hindex : index ≠ 0) (hroom : index.toNat + es.length < 2 ^ 64) (h1 : w.first ≤ index.toNat)
    (h2 : index.toNat ≤ w.next) :
    Holds { s with logs := InmemLogStore.insertFrom index es s.logs } (w.patch index.toNat es) := by
  have htouch : w.Touches index.toNat es.length := Or.inr ⟨h2, by omega⟩
  have hfirst : (w.patch index.toNat es).first = w.first := by
    rw [Window.first_patch]
    split
    · rename_i hempty
      rw [Window.next, hempty, List.length_nil] at h2
      omega
    · omega
  refine ⟨?_, ?_, h.next_patch_lt hroom htouch, h.dummy_insertFrom hindex hroom,
    fun i hi => h.getElem?_insertFrom hroom htouch hi⟩
  · rw [hfirst]
    exact h.start
  · rw [hfirst]
    exact h.first_pos

omit [LogBuffers] in
/-- Where there is an entry, the first index is looked up as it is. -/
theorem Holds.firstIndex_eq (h : Holds s w) (hne : w.entries ≠ []) :
    InmemLogStore.firstIndex s.logs = s.startIdx := by
  rw [← UInt64.toNat_inj, h.start]
  exact InmemLogStore.firstIndex_eq h.first_pos h.next_lt hne h.lookup

/-- **A pack that is not read to its end** still lies over the window with what was read of it, if
that begins in the window or right behind it. -/
theorem Holds.applyPack_error (h : Holds s w) {index : UInt64} {data : Str} {es : List LogEntry}
    {e : StdException} (hindex : index ≠ 0) (hunpack : unpack data = (es, .error e))
    (hroom : index.toNat + es.length < 2 ^ 64) (h1 : w.first ≤ index.toNat)
    (h2 : index.toNat ≤ w.next) :
    Holds (s.applyPack index data).1 (w.patch index.toNat es) := by
  rw [applyPack_eq, hunpack]
  exact h.insertFrom hindex hroom h1 h2

/-- **When `apply_pack` keeps a window.**  Read to its end, a pack must not leave a gap on either
side; otherwise it also must not begin in front of the window, since the first index is not looked
up any more.  With nothing in it, it may say what it likes. -/
theorem applyPack_wellFormed_iff (h : Holds s w) {index : UInt64} {data : Str} (hindex : index ≠ 0)
    (hroom : index.toNat + (unpack data).1.length < 2 ^ 64) :
    WellFormed (s.applyPack index data).1 ↔
      (unpack data).1 = [] ∨
        if (unpack data).2.isOk then w.Touches index.toNat (unpack data).1.length
        else w.first ≤ index.toNat ∧ index.toNat ≤ w.next := by
  rcases hunpack : unpack data with ⟨es, outcome⟩
  rw [hunpack] at hroom
  dsimp only at hroom ⊢
  by_cases hes : es = []
  · refine iff_of_true ?_ (Or.inl hes)
    subst hes
    cases outcome with
    | ok _ => exact ⟨_, h.applyPack_nil hunpack⟩
    | error e =>
      rw [applyPack_eq, hunpack]
      exact ⟨w, h⟩
  rw [or_iff_right hes]
  cases outcome with
  | ok _ =>
    rw [Except.isOk, Except.toBool, if_pos rfl]
    constructor
    · intro hwf
      rw [applyPack_eq, hunpack] at hwf
      exact h.touches_of_wellFormed hindex hes hroom hwf
    · exact fun htouch => ⟨_, h.applyPack_ok hindex hunpack hes hroom htouch⟩
  | error e =>
    rw [Except.isOk, Except.toBool, if_neg Bool.false_ne_true]
    constructor
    · intro hwf
      rw [applyPack_eq, hunpack] at hwf
      have hlen : 0 < es.length := List.length_pos_iff.mpr hes
      have hin : index ∈ insertFrom index es s.logs :=
        (mem_insertFrom_iff hroom).mpr (Or.inl (by omega))
      have hle : s.startIdx ≤ index :=
        hwf.startIdx_le hindex (Std.ExtTreeMap.mem_iff_isSome_getElem?.mp hin)
      refine ⟨by rwa [UInt64.le_iff_toNat_le, h.start] at hle, ?_⟩
      by_contra hgap
      have hbelow : s.nextSlot ≤ index := by
        rw [UInt64.le_iff_toNat_le, h.toNat_nextSlot]
        omega
      exact hwf.no_gap hin hindex (h.nextSlot_free hroom (by omega)) h.nextSlot_spec.1 hbelow
    · rintro ⟨h1, h2⟩
      exact ⟨_, h.applyPack_error hindex hunpack hroom h1 h2⟩

/-- A pack that is put right behind the window, whether or not it is read to its end. -/
theorem Holds.applyPack_nextSlot (h : Holds s w) {data : Str} (hne : (unpack data).1 ≠ [])
    (hroom : w.next + (unpack data).1.length < 2 ^ 64) :
    Holds (s.applyPack s.nextSlot data).1 (w.patch w.next (unpack data).1) := by
  have hle := w.first_le_next
  have hnext := h.toNat_nextSlot
  have hindex := h.nextSlot_spec.2.1
  have htouch : w.Touches w.next (unpack data).1.length := Or.inr ⟨Nat.le_refl _, by omega⟩
  rcases hunpack : unpack data with ⟨es, outcome⟩
  rw [hunpack] at hne hroom htouch
  rw [← hnext] at hroom htouch ⊢
  cases outcome with
  | ok _ => exact h.applyPack_ok hindex hunpack hne hroom htouch
  | error e => exact h.applyPack_error hindex hunpack hroom (by omega) (by omega)

/-! ## 5. From one server to another -/

/-- **What is packed on one server arrives on the other.**  A part of the window of `s`, not longer
and with no entry longer than an `int` can say, is packed; and a server whose window it touches
takes it over its own, at the same indices, with the same terms, types and data.  That the one
buffer the whole pack goes into can be allocated is assumed. -/
theorem applyPack_pack (h : Holds s w) {t : InmemLogStore} {v : Window LogEntry} (ht : Holds t v)
    {index : UInt64} {cnt : ℕ} (hpos : 0 < cnt) (hcnt : cnt < 2 ^ 31)
    (hfirst : w.first ≤ index.toNat) (hnext : index.toNat + cnt ≤ w.next)
    (hsize : ∀ entry ∈ w.slice index.toNat (index.toNat + cnt),
      (LogBuffers.serialize entry).length < 2 ^ 31)
    (htouch : v.Touches index.toNat cnt) :
    ∃ data arrived, s.pack index cnt = .ok data ∧
      List.Forall₂ LogEntry.Same arrived (w.slice index.toNat (index.toNat + cnt)) ∧
      (t.applyPack index data).2 = .ok () ∧
      Holds (t.applyPack index data).1 (v.patch index.toNat arrived) := by
  have hwpos := h.first_pos
  have hlt := h.next_lt
  have hindex : index ≠ 0 := Holds.toNat_ne_zero.mpr (by omega)
  have hlen : (w.slice index.toNat (index.toNat + cnt)).length = cnt := by
    rw [Window.length_slice hfirst hnext, Nat.add_sub_cancel_left]
  obtain ⟨arrived, hunpack, hsame⟩ := unpack_packed (by rw [hlen]; exact hcnt) hsize
  have harrived : arrived.length = cnt := hsame.length_eq.trans hlen
  have hne : arrived ≠ [] := List.length_pos_iff.mp (by omega)
  refine ⟨packed (w.slice index.toNat (index.toNat + cnt)), arrived, ?_, hsame, ?_, ?_⟩
  · rw [h.pack_eq hindex (by omega), if_pos (Or.inr ⟨hfirst, hnext⟩)]
  · rw [applyPack_eq, hunpack]
  · exact ht.applyPack_ok hindex hunpack hne (by omega) (by rw [harrived]; exact htouch)

end ApplyPack

/-- Buffers that put every integer little-endian, and entries as their term, type and data. -/
@[reducible] def littleEndianEntries : LogBuffers where
  putInt n := Memory.leBytes 4 n.toUInt32.toNat
  getInt data := (takeLE 4 data).map fun r => ((UInt32.ofNat r.1).toInt32, r.2)
  getBuffer size data :=
    if data.length < size.toInt.toNat then .error .notEnoughData
    else .ok (data.take size.toInt.toNat, data.drop size.toInt.toNat)
  serialize entry :=
    Memory.leBytes 8 entry.term.toNat ++ (Memory.leBytes 1 entry.valType.toNat ++ entry.buf)
  deserialize data :=
    match takeLE 8 data with
    | .error e => .error e
    | .ok (term, rest) =>
      match takeLE 1 rest with
      | .error e => .error e
      | .ok (valType, buf) =>
        .ok { term := UInt64.ofNat term, buf, valType := UInt8.ofNat valType, timestamp := 0,
              hasCrc32 := false, crc32 := 0 }
  getInt_putInt n rest := by
    rw [takeLE_leBytes_append n.toUInt32.toNat_lt]
    have hback : (UInt32.ofNat n.toUInt32.toNat).toInt32 = n := by
      rw [UInt32.ofNat_toNat, Int32.toInt32_toUInt32]
    exact congrArg (fun m => Except.ok (m, rest)) hback
  getBuffer_append n data rest h := by
    have hn : n.toInt.toNat = data.length := by omega
    rw [hn, if_neg (by rw [List.length_append]; omega), List.take_left' rfl, List.drop_left' rfl]
  deserialize_serialize entry := by
    rw [takeLE_leBytes_append entry.term.toNat_lt]
    dsimp only
    rw [takeLE_leBytes_append entry.valType.toNat_lt]
    exact ⟨_, rfl, UInt64.ofNat_toNat, rfl, UInt8.ofNat_toNat⟩

/-- The two entries of the store go to a new server. -/
theorem applyPack_books : ∃ data arrived,
    @InmemLogStore.pack littleEndianEntries booksLogStore 1 2 = .ok data ∧
    List.Forall₂ LogEntry.Same arrived [entryOf "books 3", entryOf "books 4"] ∧
    (@InmemLogStore.applyPack littleEndianEntries (InmemLogStore.init (entryOf "")) 1 data).2
      = .ok () ∧
    Holds (@InmemLogStore.applyPack littleEndianEntries (InmemLogStore.init (entryOf "")) 1 data).1
      ⟨1, arrived⟩ := by
  let := littleEndianEntries
  have hsize : ∀ entry ∈ [entryOf "books 3", entryOf "books 4"],
      (LogBuffers.serialize entry).length < 2 ^ 31 := by
    intro entry hentry
    rcases List.mem_cons.mp hentry with rfl | hentry
    · decide
    · obtain rfl := List.mem_singleton.mp hentry
      decide
  have hcnt : 0 < 2 := by decide
  have hfirst : 1 ≤ (1 : UInt64).toNat := by decide
  obtain ⟨data, arrived, hpack, hsame, happly, hholds⟩ :=
    applyPack_pack holds_booksLogStore (holds_init (entryOf "")) hcnt (by decide) hfirst (by decide)
      hsize (Or.inl rfl)
  exact ⟨data, arrived, hpack, hsame, happly, hholds⟩

end ReplicatedMapReduce
