/-
# Runs of the log store

The four calls that change the log store, in any order.  `LogCall.move` is what each of them is
for, said of a window; it knows nothing of the map and of where the log ends.

The store refines it as long as the calls are made where they make sense, and there is no weaker
condition under which it does: every store a run goes through holds a window exactly if each
`write_at` and each `apply_pack` of the run lands at the window, and then it holds the one that the
calls make of the empty window, one after the other (`logRun_iff`).

`apply_pack` is not one call for the others: it takes the lock for every entry and lets go of it
again, and so does `log_entries`.  The last two parts are about that.  Taken turn after turn, the
two are what they are in `LogPack.lean` and `LogStore.lean` (`run_packCalls`, `run_turns`).  With
others between two turns of `log_entries`, entries are read under indices, and neither an append nor
a compaction changes what is behind an index; so as long as nobody overwrites what is being read the
answer is that of the moment the call began, whatever came between.  Only a compaction that gets
past the loop's index before the loop does is fatal, and the assertion fails in no other case
(`reader_iff`).
-/
import ReplicatedMapReduce.LogPack

namespace ReplicatedMapReduce

open Runs

/-! ## 1. Calls -/

/-- A call that changes the store. -/
inductive LogCall
  | append (entry : LogEntry)
  | writeAt (index : UInt64) (entry : LogEntry)
  | applyPack (index : UInt64) (data : Str)
  | compact (lastLogIndex : UInt64)
  deriving DecidableEq

section LogBuffers

variable [LogBuffers]

/-- One call.  `none`: it does not return.  An exception leaves `apply_pack` with the store as it
is by then. -/
def logStep (s : InmemLogStore) : LogCall → Option InmemLogStore
  | .append entry => some (s.append entry).2
  | .writeAt index entry => some (s.writeAt index entry)
  | .applyPack index data => some (s.applyPack index data).1
  | .compact lastLogIndex => s.compact lastLogIndex

/-- The log does not get to the last index there is, and nobody packs the dummy. -/
def HasRoom (s : InmemLogStore) : LogCall → Prop
  | .append _ => s.nextSlot.toNat + 1 < 2 ^ 64
  | .writeAt index _ => index.toNat + 1 < 2 ^ 64
  | .applyPack index data =>
    index ≠ 0 ∧ index.toNat + (InmemLogStore.unpack data).1.length < 2 ^ 64
  | .compact _ => True

/-- The call lands at the entries that are there, or right behind them. -/
def Lands (s : InmemLogStore) : LogCall → Prop
  | .append _ => True
  | .writeAt index _ => index = 0 ∨ (s.startIdx ≤ index ∧ index ≤ s.nextSlot)
  | .applyPack index data =>
    (InmemLogStore.unpack data).1 = [] ∨
      if (InmemLogStore.unpack data).2.isOk then
        s.startIdx = s.nextSlot ∨ (index ≤ s.nextSlot ∧
          s.startIdx.toNat ≤ index.toNat + (InmemLogStore.unpack data).1.length)
      else s.startIdx ≤ index ∧ index ≤ s.nextSlot
  | .compact _ => True

/-! ## 2. What the calls are for -/

/-- What a call does to a window. -/
def LogCall.move (w : Window LogEntry) : LogCall → Window LogEntry
  | .append entry => w.append entry
  | .writeAt index entry => if index = 0 then ⟨w.first, []⟩ else w.overwrite index.toNat entry
  | .applyPack index data =>
    match InmemLogStore.unpack data with
    | ([], .ok ()) => if w.entries = [] then ⟨1, []⟩ else w
    | ([], .error _) => w
    | (entries, _) => w.patch index.toNat entries
  | .compact lastLogIndex => w.compact lastLogIndex.toNat

/-- **Step lemma.**  A call keeps a window exactly if it lands. -/
theorem Holds.wellFormed_step_iff {s s' : InmemLogStore} {w : Window LogEntry} (h : Holds s w)
    {c : LogCall} (hrange : HasRoom s c) (hs : logStep s c = some s') :
    WellFormed s' ↔ Lands s c := by
  cases c with
  | append entry =>
    cases hs
    rw [HasRoom, h.toNat_nextSlot] at hrange
    exact iff_of_true ⟨_, (h.append entry hrange).2⟩ trivial
  | writeAt index entry =>
    cases hs
    rw [writeAt_wellFormed_iff h entry hrange, Lands, UInt64.le_iff_toNat_le,
      UInt64.le_iff_toNat_le, h.start, h.toNat_nextSlot]
  | applyPack index data =>
    cases hs
    rw [applyPack_wellFormed_iff h hrange.1 hrange.2]
    simp only [Lands, Window.Touches, UInt64.le_iff_toNat_le, h.start, h.toNat_nextSlot,
      h.startIdx_eq_nextSlot_iff]
  | compact lastLogIndex =>
    obtain ⟨s'', hs'', hholds⟩ := h.compact (InmemLogStore.lt_of_compact hs)
    obtain rfl : s'' = s' := Option.some.inj (hs''.symm.trans hs)
    exact iff_of_true ⟨_, hholds⟩ trivial

/-- **Step lemma.**  A call that lands does to the store what it is for. -/
theorem Holds.step_move {s s' : InmemLogStore} {w : Window LogEntry} (h : Holds s w)
    {c : LogCall} (hrange : HasRoom s c) (hlands : Lands s c) (hs : logStep s c = some s') :
    Holds s' (c.move w) := by
  cases c with
  | append entry =>
    cases hs
    rw [HasRoom, h.toNat_nextSlot] at hrange
    exact (h.append entry hrange).2
  | writeAt index entry =>
    cases hs
    rw [Lands, UInt64.le_iff_toNat_le, UInt64.le_iff_toNat_le, h.start, h.toNat_nextSlot] at hlands
    rw [LogCall.move]
    split
    · rename_i hzero
      rw [hzero]
      exact h.writeAt_zero entry
    · rename_i hzero
      obtain ⟨h1, h2⟩ := hlands.resolve_left hzero
      exact h.writeAt entry h1 h2 hrange
  | applyPack index data =>
    cases hs
    obtain ⟨hindex, hroom⟩ := hrange
    simp only [Lands, UInt64.le_iff_toNat_le, h.start, h.toNat_nextSlot,
      h.startIdx_eq_nextSlot_iff] at hlands
    rw [LogCall.move]
    rcases hunpack : InmemLogStore.unpack data with ⟨es, outcome⟩
    rw [hunpack] at hroom hlands
    dsimp only at hroom hlands
    cases es with
    | nil =>
      cases outcome with
      | ok _ => exact h.applyPack_nil hunpack
      | error e =>
        rw [InmemLogStore.applyPack_eq, hunpack]
        exact h
    | cons le es =>
      have hne : le :: es ≠ [] := List.cons_ne_nil le es
      cases outcome with
      | ok _ => exact h.applyPack_ok hindex hunpack hne hroom (hlands.resolve_left hne)
      | error e =>
        obtain ⟨h1, h2⟩ := hlands.resolve_left hne
        exact h.applyPack_error hindex hunpack hroom h1 h2
  | compact lastLogIndex =>
    obtain ⟨s'', hs'', hholds⟩ := h.compact (InmemLogStore.lt_of_compact hs)
    obtain rfl : s'' = s' := Option.some.inj (hs''.symm.trans hs)
    exact hholds

/-! ## 3. Every run -/

/-- **Run lemma.**  Calls that all land do to the store, one after the other, what they are for. -/
theorem Holds.run_move {s t : InmemLogStore} {cs : List LogCall}
    (hrun : Run logStep (fun s c => HasRoom s c ∧ Lands s c) s cs t) {w : Window LogEntry}
    (h : Holds s w) : Holds t (cs.foldl LogCall.move w) := by
  induction hrun generalizing w with
  | refl => exact h
  | cons hg hs _ ih => exact ih (h.step_move hg.1 hg.2 hs)

/-- **The log store is a window, exactly as long as every call lands.**  In every run of calls on
a new store, every state holds a window if and only if each call of the run lands (`Lands`): a write
at an index of the window at that moment, right behind it, or at index 0, which erases it; a pack
that is read to its end so that it leaves no gap on either side, in front of the window too, and
anywhere if the log is empty; one that is not, from the window or right behind it; and one with
nothing in it anywhere.  And then the store holds the window that the calls are for.  A pack for
index 0 is no call of these runs (`HasRoom`). -/
theorem logRun_iff (dummy : LogEntry) {cs : List LogCall} {t : InmemLogStore}
    (hrun : Run logStep HasRoom (InmemLogStore.init dummy) cs t) :
    (Throughout logStep HasRoom WellFormed (InmemLogStore.init dummy) cs ↔
      Run logStep (fun s c => HasRoom s c ∧ Lands s c) (InmemLogStore.init dummy) cs t) ∧
    (Run logStep (fun s c => HasRoom s c ∧ Lands s c) (InmemLogStore.init dummy) cs t →
      Holds t (cs.foldl LogCall.move ⟨1, []⟩)) := by
  constructor
  · have hexact : ∀ s c u, True → WellFormed s → HasRoom s c → logStep s c = some u →
        (WellFormed u ↔ Lands s c) := by
      rintro s c u - ⟨w, hw⟩ hrange hs
      exact hw.wellFormed_step_iff hrange hs
    exact throughout_iff (fun _ _ _ _ _ _ _ => trivial) hexact hrun trivial ⟨_, holds_init dummy⟩
  · exact fun hlands => Holds.run_move hlands (holds_init dummy)

end LogBuffers

/-- Two entries, the second one written again, and then everything compacted, and more. -/
theorem logRun_books : ∃ t,
    @Throughout _ _ (@logStep littleEndianEntries) (@HasRoom littleEndianEntries) WellFormed
      (InmemLogStore.init (entryOf ""))
      [.append (entryOf "books 3"), .append (entryOf "books 4"), .writeAt 2 (entryOf "books 5"),
        .compact 4] ∧
    Holds t ⟨5, []⟩ ∧ t.nextSlot = 5 := by
  let := littleEndianEntries
  have hrun : ∃ t, Run logStep (fun s c => HasRoom s c ∧ Lands s c)
      (InmemLogStore.init (entryOf ""))
      [.append (entryOf "books 3"), .append (entryOf "books 4"), .writeAt 2 (entryOf "books 5"),
        .compact 4] t ∧ t.nextSlot = 5 := by
    have hroom : ∀ n, n < 10 → n + 1 < 2 ^ 64 := by
      intro n hn
      omega
    exact ⟨_, Run.cons ⟨hroom 1 (by decide), trivial⟩ rfl
      (Run.cons ⟨hroom 2 (by decide), trivial⟩ rfl
      (Run.cons ⟨hroom 2 (by decide), Or.inr (by decide)⟩ rfl
      (Run.cons ⟨trivial, trivial⟩ rfl (Run.refl _)))), by decide⟩
  obtain ⟨t, hlands, hnext⟩ := hrun
  obtain ⟨hiff, hholds⟩ := logRun_iff (entryOf "") (hlands.mono fun _ _ h => h.1)
  exact ⟨t, hiff.mpr hlands, hholds hlands, hnext⟩

/-! ## 4. Under the lock -/

/-- What is done to the store while the lock is held once: a call, or a part of `apply_pack`. -/
inductive LockedCall
  | append (entry : LogEntry)
  | writeAt (index : UInt64) (entry : LogEntry)
  /-- A turn of the loop of `apply_pack`. -/
  | packEntry (curIdx : UInt64) (le : LogEntry)
  /-- The end of `apply_pack`, where the first index is looked up. -/
  | packEnd
  | compact (lastLogIndex : UInt64)
  deriving DecidableEq

def lockedStep (s : InmemLogStore) : LockedCall → Option InmemLogStore
  | .append entry => some (s.append entry).2
  | .writeAt index entry => some (s.writeAt index entry)
  | .packEntry curIdx le => some { s with logs := s.logs.insert curIdx le }
  | .packEnd => some { s with startIdx := InmemLogStore.firstIndex s.logs }
  | .compact lastLogIndex => s.compact lastLogIndex

/-- The turns of `apply_pack` for entries that have been read from the pack, and its end, if that
were all of them. -/
def packCalls (outcome : Except StdException Unit) : UInt64 → List LogEntry → List LockedCall
  | _, [] => if outcome.isOk then [.packEnd] else []
  | curIdx, le :: es => .packEntry curIdx le :: packCalls outcome (curIdx + 1) es

/-- **Turn after turn without another call is `apply_pack`.** -/
theorem run_packCalls [LogBuffers] {s : InmemLogStore} (index : UInt64) (data : Str) :
    Run lockedStep (fun _ _ => True) s
      (packCalls (InmemLogStore.unpack data).2 index (InmemLogStore.unpack data).1)
      (s.applyPack index data).1 := by
  rw [InmemLogStore.applyPack_eq]
  rcases InmemLogStore.unpack data with ⟨es, outcome⟩
  dsimp only
  induction es generalizing s index with
  | nil =>
    rw [packCalls, InmemLogStore.insertFrom]
    split
    · exact Run.cons trivial rfl (Run.refl _)
    · exact Run.refl _
  | cons le es ih =>
    exact Run.cons trivial rfl (@ih { s with logs := s.logs.insert index le } (index + 1))

/-- An index of the log, or the one right behind it, and not the last one there is. -/
def AtOrBehind (s : InmemLogStore) (index : UInt64) : Prop :=
  s.startIdx ≤ index ∧ index ≤ s.nextSlot ∧ index.toNat + 1 < 2 ^ 64

instance (s : InmemLogStore) (index : UInt64) : Decidable (AtOrBehind s index) :=
  inferInstanceAs (Decidable (_ ∧ _))

/-- Writes and packs go to the log or right behind it, it does not get to the last index there is,
and a pack does not come to its end when everything has been compacted. -/
def InPlace (s : InmemLogStore) : LockedCall → Prop
  | .append _ => s.nextSlot.toNat + 1 < 2 ^ 64
  | .writeAt index _ => AtOrBehind s index
  | .packEntry curIdx _ => AtOrBehind s curIdx
  | .packEnd => s.startIdx ≠ s.nextSlot
  | .compact _ => True

instance (s : InmemLogStore) : DecidablePred (InPlace s)
  | .append _ => inferInstanceAs (Decidable (_ < _))
  | .writeAt index _ => inferInstanceAs (Decidable (AtOrBehind s index))
  | .packEntry curIdx _ => inferInstanceAs (Decidable (AtOrBehind s curIdx))
  | .packEnd => inferInstanceAs (Decidable (_ ≠ _))
  | .compact _ => inferInstanceAs (Decidable True)

/-- What each of them is for, said of a window. -/
def LockedCall.move (w : Window LogEntry) : LockedCall → Window LogEntry
  | .append entry => w.append entry
  | .writeAt index entry => w.overwrite index.toNat entry
  | .packEntry curIdx le => w.patch curIdx.toNat [le]
  | .packEnd => w
  | .compact lastLogIndex => w.compact lastLogIndex.toNat

theorem Holds.of_atOrBehind {s : InmemLogStore} {w : Window LogEntry} (h : Holds s w)
    {index : UInt64} (hindex : AtOrBehind s index) :
    w.first ≤ index.toNat ∧ index.toNat ≤ w.next ∧ index.toNat + 1 < 2 ^ 64 := by
  obtain ⟨hfirst, hnext, hroom⟩ := hindex
  rw [UInt64.le_iff_toNat_le, h.start] at hfirst
  rw [UInt64.le_iff_toNat_le, h.toNat_nextSlot] at hnext
  exact ⟨hfirst, hnext, hroom⟩

theorem Window.touches_singleton {w : Window LogEntry} {i : ℕ} {le : LogEntry}
    (hfirst : w.first ≤ i) (hnext : i ≤ w.next) : w.Touches i [le].length :=
  Or.inr ⟨hnext, Nat.le_add_right_of_le hfirst⟩

/-- **Step lemma.**  What is in place does to the store what it is for. -/
theorem Holds.locked_move {s s' : InmemLogStore} {w : Window LogEntry} (h : Holds s w)
    {c : LockedCall} (hplace : InPlace s c) (hs : lockedStep s c = some s') :
    Holds s' (c.move w) := by
  cases c with
  | append entry =>
    rw [InPlace, h.toNat_nextSlot] at hplace
    cases hs
    exact (h.append entry hplace).2
  | writeAt index entry =>
    obtain ⟨hfirst, hnext, hroom⟩ := h.of_atOrBehind hplace
    cases hs
    exact h.writeAt entry hfirst hnext hroom
  | packEntry curIdx le =>
    obtain ⟨hfirst, hnext, hroom⟩ := h.of_atOrBehind hplace
    have hpos := h.first_pos
    have hindex : curIdx ≠ 0 := Holds.toNat_ne_zero.mpr (by omega)
    have hholds : Holds { s with logs := InmemLogStore.insertFrom curIdx [le] s.logs }
        (w.patch curIdx.toNat [le]) := h.insertFrom hindex hroom hfirst hnext
    cases hs
    exact hholds
  | packEnd =>
    have hne : w.entries ≠ [] := fun hempty => hplace (h.startIdx_eq_nextSlot_iff.mpr hempty)
    rw [lockedStep, h.firstIndex_eq hne] at hs
    cases hs
    exact h
  | compact lastLogIndex =>
    obtain ⟨s'', hs'', hholds⟩ := h.compact (InmemLogStore.lt_of_compact hs)
    obtain rfl : s'' = s' := Option.some.inj (hs''.symm.trans hs)
    exact hholds

/-- The log gets shorter by `write_at` only. -/
theorem Holds.next_le_move {s : InmemLogStore} {w : Window LogEntry} (h : Holds s w)
    {c : LockedCall} (hplace : InPlace s c) (hne : ∀ index entry, c ≠ .writeAt index entry) :
    w.next ≤ (c.move w).next := by
  cases c with
  | append entry => exact (Window.next_append w entry).symm ▸ Nat.le_succ _
  | writeAt index entry => exact absurd rfl (hne index entry)
  | packEntry curIdx le =>
    obtain ⟨hfirst, hnext, -⟩ := h.of_atOrBehind hplace
    rw [LockedCall.move, Window.next_patch (Window.touches_singleton hfirst hnext)]
    split
    · rename_i hempty
      rw [Window.next, hempty, List.length_nil, Nat.add_zero]
      exact Nat.le_add_right_of_le hfirst
    · exact Nat.le_max_left _ _
  | packEnd => exact Nat.le_refl _
  | compact lastLogIndex =>
    rw [LockedCall.move, Window.next_compact]
    exact Nat.le_max_left _ _

/-- Nothing is put in front of the index. -/
def LockedCall.Spares (stop : UInt64) : LockedCall → Prop
  | .writeAt index _ => stop ≤ index
  | .packEntry curIdx _ => stop ≤ curIdx
  | _ => True

instance (stop : UInt64) : DecidablePred (LockedCall.Spares stop)
  | .append _ => inferInstanceAs (Decidable True)
  | .writeAt _ _ => inferInstanceAs (Decidable (_ ≤ _))
  | .packEntry _ _ => inferInstanceAs (Decidable (_ ≤ _))
  | .packEnd => inferInstanceAs (Decidable True)
  | .compact _ => inferInstanceAs (Decidable True)

/-- What is in front of the index stays what it is, or is forgotten. -/
theorem Holds.get_move {s : InmemLogStore} {w : Window LogEntry} (h : Holds s w)
    {c : LockedCall} (hplace : InPlace s c) {stop : UInt64} (hspares : c.Spares stop)
    (hstop : stop.toNat ≤ w.next) :
    stop.toNat ≤ (c.move w).next ∧
      ∀ i, (c.move w).first ≤ i → i < stop.toNat →
        w.first ≤ i ∧ (c.move w).get i = w.get i := by
  cases c with
  | append entry =>
    refine ⟨(Window.next_append w entry).symm ▸ Nat.le_succ_of_le hstop, fun i hi hlt => ⟨hi, ?_⟩⟩
    rw [LockedCall.move, Window.get_append, if_neg (by omega)]
  | writeAt index entry =>
    obtain ⟨hfirst, hnext, -⟩ := h.of_atOrBehind hplace
    have hbehind : stop.toNat ≤ index.toNat := UInt64.le_iff_toNat_le.mp hspares
    rw [LockedCall.move, Window.next_overwrite hfirst hnext]
    refine ⟨by omega, fun i hi hlt => ⟨hi, ?_⟩⟩
    rw [Window.get_overwrite hfirst hnext, if_neg (by omega), if_pos (by omega)]
  | packEntry curIdx le =>
    obtain ⟨hfirst, hnext, -⟩ := h.of_atOrBehind hplace
    have hbehind : stop.toNat ≤ curIdx.toNat := UInt64.le_iff_toNat_le.mp hspares
    have hle := h.next_le_move hplace (fun _ _ => by simp)
    refine ⟨Nat.le_trans hstop hle, fun i hi hlt => ?_⟩
    rw [LockedCall.move, Window.first_patch] at hi
    rw [LockedCall.move, Window.get_patch (Window.touches_singleton hfirst hnext),
      if_neg (by omega)]
    refine ⟨?_, rfl⟩
    split at hi
    · exact Nat.le_trans hfirst hi
    · omega
  | packEnd => exact ⟨hstop, fun i hi _ => ⟨hi, rfl⟩⟩
  | compact lastLogIndex =>
    have hle := h.next_le_move hplace (fun _ _ => by simp)
    refine ⟨Nat.le_trans hstop hle, fun i hi hlt => ?_⟩
    rw [LockedCall.move, Window.first_compact] at hi
    rw [LockedCall.move, Window.get_compact, if_neg (by omega)]
    exact ⟨by omega, rfl⟩

/-! ## 5. `log_entries` among other calls -/

/-- `log_entries` on its way: the index of the loop, what has been read, and whether the assertion
has failed. -/
structure Reader where
  stop : UInt64
  ii : UInt64
  ret : List LogEntry
  failed : Bool
  deriving DecidableEq

/-- `log_entries(start, end)`, before its loop. -/
def Reader.init (start stop : UInt64) : Reader := ⟨stop, start, [], false⟩

/-- What happens to the store while it is being read. -/
inductive ReadEvent
  /-- A turn of the loop of `log_entries`. -/
  | turn
  | call (c : LockedCall)
  deriving DecidableEq

def readStep (c : InmemLogStore × Reader) : ReadEvent → Option (InmemLogStore × Reader)
  | .turn =>
    if c.2.ii < c.2.stop ∧ c.2.failed = false then
      match c.1.logs[c.2.ii]? with
      | none => some (c.1, { c.2 with failed := true })
      | some src =>
        some (c.1, { c.2 with ii := c.2.ii + 1, ret := c.2.ret ++ [InmemLogStore.makeClone src] })
    else none
  | .call e => (lockedStep c.1 e).map fun s => (s, c.2)

/-- Nobody overwrites what is being read, and everything is in place. -/
def LeavesReader (c : InmemLogStore × Reader) : ReadEvent → Prop
  | .turn => True
  | .call e => InPlace c.1 e ∧ e.Spares c.2.stop

instance (c : InmemLogStore × Reader) : DecidablePred (LeavesReader c)
  | .turn => inferInstanceAs (Decidable True)
  | .call _ => inferInstanceAs (Decidable (_ ∧ _))

/-- No compaction has got past the index that is read next. -/
def NotOvertaken (c : InmemLogStore × Reader) (e : ReadEvent) : Prop :=
  e = .turn → c.1.startIdx ≤ c.2.ii

/-- **What a reader knows**: the store holds a window over everything that is still to be read or
has been compacted, with the entries of the beginning, and what has been read are these. -/
structure Reads (w : Window LogEntry) (start : UInt64) (c : InmemLogStore × Reader) : Prop where
  pos : 0 < start.toNat
  first : w.first ≤ start.toNat
  holds : ∃ v, Holds c.1 v ∧ c.2.stop.toNat ≤ v.next ∧
    ∀ i, v.first ≤ i → i < c.2.stop.toNat → v.get i = w.get i
  le : start.toNat ≤ c.2.ii.toNat
  ret : c.2.ret = w.slice start.toNat c.2.ii.toNat

/-- **Turn after turn without another call is `log_entries`.** -/
theorem run_turns {guard : InmemLogStore × Reader → ReadEvent → Prop} {s : InmemLogStore}
    (hguard : ∀ r, guard (s, r) .turn) {turns : ℕ} {stop ii : UInt64} {ret es : List LogEntry}
    (hturns : ii.toNat + turns = stop.toNat) (hread : s.logEntriesLoop turns ii = .ok es) :
    Run readStep guard (s, ⟨stop, ii, ret, false⟩) (List.replicate turns .turn)
      (s, ⟨stop, stop, ret ++ es, false⟩) := by
  induction turns generalizing ii ret es with
  | zero =>
    have hii : ii = stop := UInt64.toNat_inj.mp hturns
    cases hread
    rw [hii, List.append_nil]
    exact Run.refl _
  | succ turns ih =>
    have hlt := stop.toNat_lt
    have hnext : (ii + 1).toNat = ii.toNat + 1 := toNat_succ (by omega)
    have hbelow : ii < stop := by
      rw [UInt64.lt_iff_toNat_lt]
      omega
    rw [InmemLogStore.logEntriesLoop] at hread
    cases hsrc : s.logs[ii]? with
    | none => exact absurd (hsrc ▸ hread) (by simp)
    | some src =>
      rw [hsrc] at hread
      dsimp only at hread
      cases hrest : s.logEntriesLoop turns (ii + 1) with
      | error e => exact absurd (hrest ▸ hread) (by simp)
      | ok rest =>
        rw [hrest] at hread
        cases hread
        have hstep : readStep (s, ⟨stop, ii, ret, false⟩) .turn
            = some (s, ⟨stop, ii + 1, ret ++ [InmemLogStore.makeClone src], false⟩) := by
          simp only [readStep, hbelow, true_and, if_true, hsrc]
        have htail := @ih (ii + 1) (ret ++ [InmemLogStore.makeClone src]) rest (by omega) hrest
        rw [List.append_assoc] at htail
        exact Run.cons (hguard _) hstep htail

/-- The next turn reads what the window of the beginning has there, or asserts. -/
theorem reads_turn {w : Window LogEntry} {start : UInt64} {c c' : InmemLogStore × Reader}
    (h : Reads w start c) (hok : c.2.failed = false) (hs : readStep c .turn = some c') :
    (c'.2.failed = false → Reads w start c') ∧ (c'.2.failed = false ↔ c.1.startIdx ≤ c.2.ii) := by
  obtain ⟨v, hv, hstop, hsame⟩ := h.holds
  have hpos := h.pos
  have hle := h.le
  simp only [readStep] at hs
  split at hs
  · rename_i hbelow
    have hlt : c.2.ii.toNat < c.2.stop.toNat := UInt64.lt_iff_toNat_lt.mp hbelow.1
    have hover : c.1.startIdx ≤ c.2.ii ↔ v.first ≤ c.2.ii.toNat := by
      rw [UInt64.le_iff_toNat_le, hv.start]
    have hlookup := hv.lookup c.2.ii (Holds.toNat_ne_zero.mpr (by omega))
    rw [hover]
    cases hget : v.get c.2.ii.toNat with
    | none =>
      rw [hlookup, hget] at hs
      cases hs
      refine ⟨fun hfailed => absurd hfailed (by simp), iff_of_false (by simp) ?_⟩
      rw [Window.get_eq_none_iff] at hget
      omega
    | some src =>
      have hin : v.first ≤ c.2.ii.toNat :=
        (Window.isSome_get_iff.mp (by rw [hget]; rfl)).1
      have hstoplt := c.2.stop.toNat_lt
      have hnext : (c.2.ii + 1).toNat = c.2.ii.toNat + 1 := toNat_succ (by omega)
      have hsrc : w.get c.2.ii.toNat = some src := by rw [← hsame _ hin hlt, hget]
      rw [hlookup, hget] at hs
      cases hs
      refine ⟨fun _ => ⟨hpos, h.first, ⟨v, hv, hstop, hsame⟩, ?_, ?_⟩, iff_of_true hok hin⟩
      · dsimp only
        omega
      · dsimp only
        rw [h.ret, hnext, Window.slice_succ h.first hle hsrc]
        rfl
  · exact absurd hs (by simp)

/-- The other calls leave the reader alone, and change nothing it is still going to read. -/
theorem reads_call {w : Window LogEntry} {start : UInt64} {c c' : InmemLogStore × Reader}
    {e : LockedCall} (h : Reads w start c) (he : LeavesReader c (.call e))
    (hs : readStep c (.call e) = some c') : Reads w start c' ∧ c'.2 = c.2 := by
  obtain ⟨v, hv, hstop, hsame⟩ := h.holds
  obtain ⟨hplace, hspares⟩ := he
  obtain ⟨s', hs', rfl⟩ := Option.map_eq_some_iff.mp hs
  obtain ⟨hnext, hget⟩ := hv.get_move hplace hspares hstop
  refine ⟨⟨h.pos, h.first, ⟨_, hv.locked_move hplace hs', hnext, fun i hi hlt => ?_⟩, h.le, h.ret⟩,
    rfl⟩
  obtain ⟨hfirst, heq⟩ := hget i hi hlt
  exact heq.trans (hsame i hfirst hlt)

/-- A failed assertion stays. -/
theorem readStep_failed {c c' : InmemLogStore × Reader} {e : ReadEvent}
    (hfailed : c.2.failed = true) (hs : readStep c e = some c') : c'.2.failed = true := by
  cases e with
  | turn =>
    simp only [readStep, hfailed] at hs
    exact absurd hs (by simp)
  | call e =>
    obtain ⟨s', -, rfl⟩ := Option.map_eq_some_iff.mp hs
    exact hfailed

/-- **Step lemma.**  As long as the assertion has not failed, every event that leaves it so keeps
what the reader knows, and it fails exactly at a turn that has been overtaken. -/
theorem reads_step {w : Window LogEntry} {start : UInt64} {c c' : InmemLogStore × Reader}
    {e : ReadEvent} (h : Reads w start c) (hok : c.2.failed = false) (he : LeavesReader c e)
    (hs : readStep c e = some c') :
    (c'.2.failed = false → Reads w start c') ∧ (c'.2.failed = false ↔ NotOvertaken c e) := by
  cases e with
  | turn =>
    obtain ⟨hreads, hfailed⟩ := reads_turn h hok hs
    exact ⟨hreads, hfailed.trans ⟨fun hle _ => hle, fun hover => hover rfl⟩⟩
  | call e =>
    obtain ⟨hreads, hsame⟩ := reads_call h he hs
    refine ⟨fun _ => hreads, iff_of_true ?_ fun heq => absurd heq (by simp)⟩
    rw [hsame]
    exact hok

/-- **`log_entries` among other calls.**  Let it begin on a window that is over what it is asked
for, and let others append, compact, overwrite and apply packs behind it in between.  The assertion
holds all the way exactly if no compaction gets past the index that is read next; and then what has
been read are at every moment the entries the window had when the call began. -/
theorem reader_iff {s : InmemLogStore} {w : Window LogEntry} (h : Holds s w) {start stop : UInt64}
    (hfirst : w.first ≤ start.toNat) (hnext : stop.toNat ≤ w.next) {es : List ReadEvent}
    {c : InmemLogStore × Reader}
    (hrun : Run readStep LeavesReader (s, Reader.init start stop) es c) :
    (Throughout readStep LeavesReader (fun c => c.2.failed = false) (s, Reader.init start stop) es ↔
      Run readStep (fun c e => LeavesReader c e ∧ NotOvertaken c e) (s, Reader.init start stop)
        es c) ∧
    (c.2.failed = false → c.2.ret = w.slice start.toNat c.2.ii.toNat) := by
  have hpos := h.first_pos
  have hinit : Reads w start (s, Reader.init start stop) := by
    refine ⟨by omega, hfirst, ⟨w, h, hnext, fun i _ _ => rfl⟩, Nat.le_refl _, ?_⟩
    exact (Window.slice_eq_nil (Nat.le_refl _)).symm
  have hinv : ∀ c e c', (c.2.failed = false → Reads w start c) → LeavesReader c e →
      readStep c e = some c' → c'.2.failed = false → Reads w start c' := by
    intro c e c' hI he hs hok'
    rcases Bool.eq_false_or_eq_true c.2.failed with hfailed | hok
    · rw [readStep_failed hfailed hs] at hok'
      exact absurd hok' (by simp)
    · exact (reads_step (hI hok) hok he hs).1 hok'
  constructor
  · have hexact : ∀ c e c', (c.2.failed = false → Reads w start c) → c.2.failed = false →
        LeavesReader c e → readStep c e = some c' → (c'.2.failed = false ↔ NotOvertaken c e) :=
      fun c e c' hI hQ he hs => (reads_step (hI hQ) hQ he hs).2
    exact throughout_iff (fun c e c' hI _ he hs => hinv c e c' hI he hs) hexact hrun
      (fun _ => hinit) rfl
  · intro hok
    exact (hrun.invariant hinv (fun _ => hinit) hok).ret

/-- Two entries are read, and between the two turns the first one is compacted away and a pack with
a third one is applied, in two parts. -/
theorem reader_books : ∃ c : InmemLogStore × Reader,
    Throughout readStep LeavesReader (fun c => c.2.failed = false) (booksLogStore, Reader.init 1 3)
      [.turn, .call (.packEntry 3 (entryOf "books 5")), .call (.compact 1), .call .packEnd, .turn] ∧
    c.2.ret = [entryOf "books 3", entryOf "books 4"] := by
  have hrun : ∃ c, Run readStep (fun c e => LeavesReader c e ∧ NotOvertaken c e)
      (booksLogStore, Reader.init 1 3)
      [.turn, .call (.packEntry 3 (entryOf "books 5")), .call (.compact 1), .call .packEnd, .turn]
        c ∧
      c.2.failed = false ∧ c.2.ii = 3 :=
    ⟨_, Run.cons ⟨trivial, fun _ => by decide⟩ rfl
      (Run.cons ⟨by decide, fun h => absurd h (by simp)⟩ rfl
      (Run.cons ⟨⟨trivial, trivial⟩, fun h => absurd h (by simp)⟩ rfl
      (Run.cons ⟨by decide, fun h => absurd h (by simp)⟩ rfl
      (Run.cons ⟨trivial, fun _ => by decide⟩ rfl (Run.refl _))))), by decide, by decide⟩
  obtain ⟨c, hnot, hok, hii⟩ := hrun
  obtain ⟨hiff, hret⟩ := reader_iff holds_booksLogStore (by decide) (by decide)
    (hnot.mono fun _ _ h => h.1)
  refine ⟨c, hiff.mpr hnot, ?_⟩
  rw [hret hok, hii]
  rfl

end ReplicatedMapReduce
