/-
# The emulation of a slow disk

With `set_disk_delay`, the log store pretends that an entry takes a while to get to the disk.  Every
write notes when it will be over; a thread wakes up now and then, takes the notes whose time has
come, and keeps the index of the last one of them as the last durable one.

What this is for is said by `Truth`: an entry is durable once its write is over, as of the thread's
last look at the clock.  As long as nothing is overwritten and the clock does not go back, that is
what the thread makes of its notes (`durable_exact`): among the notes there is always one for the
last of the entries that are not durable yet, and later entries have later notes.  So it is also
enough to sleep until the first note is due.

Overwriting is another matter.  `write_at` discards the notes behind its index, but an index that is
durable already stays durable, whatever is discarded.  And `flush` asks where the log ends under the
lock, but says that all of it is durable after it has let go of it again, when the log may have
become shorter.  So the log ends in front of the last durable index as soon as `write_at` is asked
for a smaller one, or `flush` is late, and in no other case (`durable_iff`).
-/
import ReplicatedMapReduce.LogRuns
import Mathlib.Data.List.Pairwise
import Mathlib.Order.Bounds.Defs

namespace ReplicatedMapReduce

open Runs

/-! ## 1. The members and the thread -/

/-- The log store with `disk_emul_delay`, `disk_emul_logs_being_written_` and
`disk_emul_last_durable_index_`; and the indices that calls of `flush` on their way have found at
the end of the log. -/
structure SlowDisk where
  store : InmemLogStore
  delay : UInt64
  logsBeingWritten : Map UInt64 UInt64
  lastDurable : UInt64
  flushing : List UInt64
  deriving DecidableEq

namespace SlowDisk

def init (dummy : LogEntry) : SlowDisk := ⟨InmemLogStore.init dummy, 0, ∅, 0, []⟩

/-- When a write that begins at `curTime` is over. -/
def overAt (d : SlowDisk) (curTime : UInt64) : UInt64 := curTime + d.delay * 1000

def append (d : SlowDisk) (curTime : UInt64) (entry : LogEntry) : UInt64 × SlowDisk :=
  let idx := (d.store.append entry).1
  let store := (d.store.append entry).2
  (idx,
    if d.delay ≠ 0 then
      { d with store, logsBeingWritten := d.logsBeingWritten.insert (d.overAt curTime) idx }
    else { d with store })

/-- The loop of `write_at`: the notes of greater indices are erased. -/
def eraseGreater (index : UInt64) (logs : Map UInt64 UInt64) : Map UInt64 UInt64 :=
  logs.toList.foldl (fun logs kv => if index < kv.2 then logs.erase kv.1 else logs) logs

def writeAt (d : SlowDisk) (curTime index : UInt64) (entry : LogEntry) : SlowDisk :=
  let store := d.store.writeAt index entry
  if d.delay ≠ 0 then
    { d with store, logsBeingWritten :=
        eraseGreater index (d.logsBeingWritten.insert (d.overAt curTime) index) }
  else { d with store }

/-- `flush`, up to where `next_slot` gives the lock back. -/
def flushRead (d : SlowDisk) : SlowDisk :=
  { d with flushing := d.flushing ++ [d.store.nextSlot - 1] }

/-- The rest of a `flush` that has read `lastLog`, if there is one on its way. -/
def flushAssign (d : SlowDisk) (lastLog : UInt64) : Option SlowDisk :=
  if lastLog ∈ d.flushing then
    some { d with lastDurable := lastLog, flushing := d.flushing.erase lastLog }
  else none

def setDiskDelay (d : SlowDisk) (delayMs : UInt64) : SlowDisk := { d with delay := delayMs }

def lastDurableIndex (d : SlowDisk) : UInt64 :=
  if d.delay = 0 then d.store.nextSlot - 1 else d.lastDurable

/-- The loop of the thread over the notes, and whether it notifies the Raft server. -/
def turnLoop (curTime : UInt64) :
    List (UInt64 × UInt64) → Map UInt64 UInt64 → UInt64 → Bool →
      Map UInt64 UInt64 × UInt64 × Bool
  | [], logs, lastDurable, callNotification => (logs, lastDurable, callNotification)
  | (time, idx) :: rest, logs, lastDurable, callNotification =>
    if time ≤ curTime then turnLoop curTime rest (logs.erase time) idx true
    else (logs, lastDurable, callNotification)

/-- One turn of `disk_emul_loop`. -/
def turn (d : SlowDisk) (curTime : UInt64) : Bool × SlowDisk :=
  let (logsBeingWritten, lastDurable, callNotification) :=
    turnLoop curTime d.logsBeingWritten.toList d.logsBeingWritten d.lastDurable false
  (callNotification, { d with logsBeingWritten, lastDurable })

/-- How long the thread sleeps after its turn, in microseconds, with the notes that are left. -/
def nextSleepUs (d : SlowDisk) (curTime : UInt64) : UInt64 :=
  match d.logsBeingWritten.toList.head? with
  | none => 100 * 1000
  | some (time, _) => time - curTime

end SlowDisk

inductive DiskEvent
  | call (curTime : UInt64) (c : LockedCall)
  | setDiskDelay (delayMs : UInt64)
  | flushRead
  | flushAssign (lastLog : UInt64)
  | turn (curTime : UInt64)
  deriving DecidableEq

/-- Only `append` and `write_at` leave notes. -/
def diskStep (d : SlowDisk) : DiskEvent → Option SlowDisk
  | .call curTime (.append entry) => some (d.append curTime entry).2
  | .call curTime (.writeAt index entry) => some (d.writeAt curTime index entry)
  | .call _ c => (lockedStep d.store c).map fun store => { d with store }
  | .setDiskDelay delayMs => some (d.setDiskDelay delayMs)
  | .flushRead => some d.flushRead
  | .flushAssign lastLog => d.flushAssign lastLog
  | .turn curTime => some (d.turn curTime).2

/-! ## 2. The notes -/

namespace SlowDisk

variable {d : SlowDisk}

/-- The notes `write_at` leaves. -/
theorem getElem?_eraseGreater {index time idx : UInt64} {logs : Map UInt64 UInt64} :
    (eraseGreater index logs)[time]? = some idx ↔ logs[time]? = some idx ∧ idx ≤ index := by
  have hfilter : eraseGreater index logs = ((logs.toList.filter fun kv => decide (index < kv.2)).map
      Prod.fst).foldl (fun logs time => logs.erase time) logs := by
    rw [eraseGreater, List.foldl_map, List.foldl_filter]
    simp
  have hmem : time ∈ (logs.toList.filter fun kv => decide (index < kv.2)).map Prod.fst ↔
      ∃ v, logs[time]? = some v ∧ index < v := by
    simp [List.mem_map, List.mem_filter, Std.ExtTreeMap.mem_toList_iff_getElem?_eq_some]
  rw [hfilter, TreeMaps.getElem?_foldl_erase]
  split
  · rename_i hin
    obtain ⟨v, hv, hlt⟩ := hmem.mp hin
    refine iff_of_false (by simp) fun h => ?_
    rw [hv, Option.some.injEq] at h
    exact UInt64.not_lt.mpr h.2 (h.1 ▸ hlt)
  · rename_i hout
    refine ⟨fun h => ⟨h, ?_⟩, And.left⟩
    by_contra hlt
    exact hout (hmem.mpr ⟨idx, h, UInt64.not_le.mp hlt⟩)

/-- What the thread takes is the notes up to `curTime`, and the last one of them counts. -/
theorem turnLoop_eq (curTime : UInt64) (l : List (UInt64 × UInt64)) (logs : Map UInt64 UInt64)
    (lastDurable : UInt64) (callNotification : Bool) :
    turnLoop curTime l logs lastDurable callNotification =
      let taken := l.takeWhile fun kv => decide (kv.1 ≤ curTime)
      (taken.foldl (fun logs kv => logs.erase kv.1) logs,
        (taken.getLast?.map Prod.snd).getD lastDurable, callNotification || !taken.isEmpty) := by
  induction l generalizing logs lastDurable callNotification with
  | nil => simp [turnLoop]
  | cons kv l ih =>
    obtain ⟨time, idx⟩ := kv
    rw [turnLoop]
    by_cases htime : time ≤ curTime
    · rw [if_pos htime, ih, List.takeWhile_cons_of_pos (by simpa using htime)]
      dsimp only
      rw [List.getLast?_cons, List.foldl_cons]
      cases (l.takeWhile fun kv => decide (kv.1 ≤ curTime)).getLast? <;> simp
    · rw [if_neg htime, List.takeWhile_cons_of_neg (by simpa using htime)]
      simp

theorem turn_eq (d : SlowDisk) (curTime : UInt64) :
    (d.turn curTime).2 =
      let taken := TreeMaps.pairsWhile d.logsBeingWritten fun time => decide (time ≤ curTime)
      { d with
        logsBeingWritten :=
          (taken.map Prod.fst).foldl (fun logs time => logs.erase time) d.logsBeingWritten
        lastDurable := (taken.getLast?.map Prod.snd).getD d.lastDurable } := by
  rw [turn, turnLoop_eq]
  dsimp only
  rw [List.foldl_map]
  rfl

/-- A time that is not later than one that has come has come, too. -/
theorem le_down (curTime : UInt64) (a b : UInt64) (h : compare a b = .lt)
    (hb : decide (b ≤ curTime) = true) : decide (a ≤ curTime) = true := by
  rw [Std.compare_eq_lt] at h
  rw [decide_eq_true_eq] at hb ⊢
  exact UInt64.le_trans (UInt64.le_of_lt h) hb

/-- The notes after a turn. -/
theorem getElem?_turn (d : SlowDisk) (curTime time : UInt64) :
    (d.turn curTime).2.logsBeingWritten[time]?
      = if time ≤ curTime then none else d.logsBeingWritten[time]? := by
  have hmem : time ∈ (TreeMaps.pairsWhile d.logsBeingWritten
      fun time => decide (time ≤ curTime)).map Prod.fst ↔
      time ∈ d.logsBeingWritten ∧ time ≤ curTime := by
    rw [List.mem_map, Std.ExtTreeMap.mem_iff_isSome_getElem?, Option.isSome_iff_exists]
    simp [TreeMaps.mem_pairsWhile (le_down curTime)]
  rw [turn_eq]
  dsimp only
  rw [TreeMaps.getElem?_foldl_erase]
  by_cases hle : time ≤ curTime
  · rw [if_pos hle]
    split
    · rfl
    · rename_i hout
      exact Std.ExtTreeMap.getElem?_eq_none fun hin => hout (hmem.mpr ⟨hin, hle⟩)
  · rw [if_neg hle, if_neg fun hin => hle (hmem.mp hin).2]

/-- What a turn makes of the last durable index. -/
theorem lastDurable_turn (d : SlowDisk) (curTime : UInt64) :
    ((∀ time, time ≤ curTime → time ∉ d.logsBeingWritten) ∧
      (d.turn curTime).2.lastDurable = d.lastDurable) ∨
    ∃ time idx, time ≤ curTime ∧ d.logsBeingWritten[time]? = some idx ∧
      (∀ time', time' ≤ curTime → time' ∈ d.logsBeingWritten → time' ≤ time) ∧
      (d.turn curTime).2.lastDurable = idx := by
  rw [turn_eq]
  dsimp only
  cases hlast : (TreeMaps.pairsWhile d.logsBeingWritten
    fun time => decide (time ≤ curTime)).getLast? with
  | none =>
    refine Or.inl ⟨fun time hle hin => ?_, rfl⟩
    have hpair : (time, d.logsBeingWritten[time]) ∈ TreeMaps.pairsWhile d.logsBeingWritten
        fun time => decide (time ≤ curTime) :=
      (TreeMaps.mem_pairsWhile (le_down curTime)).mpr
        ⟨Std.ExtTreeMap.getElem?_eq_some_getElem hin, decide_eq_true hle⟩
    rw [List.getLast?_eq_none_iff.mp hlast] at hpair
    exact absurd hpair List.not_mem_nil
  | some kv =>
    obtain ⟨hfound, hle, hgreatest⟩ := TreeMaps.of_getLast?_pairsWhile (le_down curTime) hlast
    refine Or.inr ⟨kv.1, kv.2, of_decide_eq_true hle, hfound, fun time' hle' hin => ?_, rfl⟩
    rcases hgreatest time' hin (decide_eq_true hle') with rfl | hlt
    · exact UInt64.le_refl _
    · exact UInt64.le_of_lt (Std.compare_eq_lt.mp hlt)

/-- The thread wakes up when the first of the notes is due, if none of them is due yet. -/
theorem nextSleepUs_spec {curTime time : UInt64} (hin : time ∈ d.logsBeingWritten)
    (hlater : ∀ time ∈ d.logsBeingWritten, curTime < time) :
    ∃ first ∈ d.logsBeingWritten, (∀ time' ∈ d.logsBeingWritten, first ≤ time') ∧
      curTime.toNat + (d.nextSleepUs curTime).toNat = first.toNat := by
  cases hhead : d.logsBeingWritten.toList.head? with
  | none =>
    have hmem : (time, d.logsBeingWritten[time]) ∈ d.logsBeingWritten.toList := by
      rw [Std.ExtTreeMap.mem_toList_iff_getElem?_eq_some]
      exact Std.ExtTreeMap.getElem?_eq_some_getElem hin
    rw [List.head?_eq_none_iff.mp hhead] at hmem
    exact absurd hmem List.not_mem_nil
  | some kv =>
    obtain ⟨hfound, hleast⟩ := TreeMaps.of_head?_toList hhead
    have hfirst : kv.1 ∈ d.logsBeingWritten := TreeMaps.mem_of_eq_some hfound
    refine ⟨kv.1, hfirst, fun time' htime' => ?_, ?_⟩
    · rcases hleast time' htime' with rfl | hlt
      · exact UInt64.le_refl _
      · exact UInt64.le_of_lt (Std.compare_eq_lt.mp hlt)
    · have hle := UInt64.le_of_lt (hlater _ hfirst)
      rw [nextSleepUs, hhead]
      dsimp only
      rw [UInt64.toNat_sub_of_le _ _ hle]
      exact Nat.add_sub_cancel' (UInt64.le_iff_toNat_le.mp hle)

end SlowDisk

/-! ## 3. The last durable index and the end of the log -/

/-- The log store is asked for what it is meant for, and the delay is not switched off again. -/
def Reasonable (d : SlowDisk) : DiskEvent → Prop
  | .call _ c => InPlace d.store c
  | .setDiskDelay delayMs => delayMs ≠ 0
  | _ => True

/-- What is durable is not discarded, and what `flush` has read has not been. -/
def LeavesDurable (d : SlowDisk) : DiskEvent → Prop
  | .call _ (.writeAt index _) => d.lastDurable ≤ index
  | .flushAssign lastLog => lastLog < d.store.nextSlot
  | _ => True

instance (d : SlowDisk) : DecidablePred (Reasonable d)
  | .call _ _ => inferInstanceAs (Decidable (InPlace _ _))
  | .setDiskDelay _ => inferInstanceAs (Decidable (_ ≠ _))
  | .flushRead => inferInstanceAs (Decidable True)
  | .flushAssign _ => inferInstanceAs (Decidable True)
  | .turn _ => inferInstanceAs (Decidable True)

/-- The store holds a window, there is a delay, and every note is for an index of the log. -/
structure Noted (d : SlowDisk) (w : Window LogEntry) : Prop where
  holds : Holds d.store w
  delayed : d.delay ≠ 0
  notes : ∀ time idx : UInt64, d.logsBeingWritten[time]? = some idx → idx.toNat < w.next

namespace Noted

variable {d d' : SlowDisk} {w : Window LogEntry}

theorem append (h : Noted d w) {curTime : UInt64} {entry : LogEntry}
    (hroom : d.store.nextSlot.toNat + 1 < 2 ^ 64) :
    Noted (d.append curTime entry).2 (w.append entry) := by
  rw [h.holds.toNat_nextSlot] at hroom
  obtain ⟨hidx, hholds⟩ := h.holds.append entry hroom
  rw [SlowDisk.append, if_pos h.delayed]
  refine ⟨hholds, h.delayed, fun time idx hnote => ?_⟩
  rw [Window.next_append]
  rw [TreeMaps.getElem?_insert_eq] at hnote
  split at hnote
  · cases hnote
    omega
  · exact Nat.lt_succ_of_lt (h.notes time idx hnote)

theorem writeAt (h : Noted d w) {curTime index : UInt64} {entry : LogEntry}
    (hroom : index.toNat + 1 < 2 ^ 64) (hfirst : w.first ≤ index.toNat)
    (hnext : index.toNat ≤ w.next) :
    Noted (d.writeAt curTime index entry) (w.overwrite index.toNat entry) := by
  rw [SlowDisk.writeAt, if_pos h.delayed]
  refine ⟨h.holds.writeAt entry hfirst hnext hroom, h.delayed, fun time idx hnote => ?_⟩
  rw [Window.next_overwrite hfirst hnext]
  have hle := (SlowDisk.getElem?_eraseGreater.mp hnote).2
  rw [UInt64.le_iff_toNat_le] at hle
  omega

/-- Whatever makes the log longer, and makes no note. -/
theorem longer (h : Noted d w) {store : InmemLogStore} {v : Window LogEntry} (hv : Holds store v)
    (hle : w.next ≤ v.next) : Noted { d with store } v :=
  ⟨hv, h.delayed, fun time idx hnote => lt_of_lt_of_le (h.notes time idx hnote) hle⟩

theorem turn (h : Noted d w) (curTime : UInt64) : Noted (d.turn curTime).2 w := by
  have hturn := SlowDisk.getElem?_turn d curTime
  rw [SlowDisk.turn_eq] at hturn ⊢
  refine ⟨h.holds, h.delayed, fun time idx hnote => ?_⟩
  rw [hturn] at hnote
  split at hnote
  · exact absurd hnote (by simp)
  · exact h.notes time idx hnote

/-- No turn takes the last durable index out of the log. -/
theorem lastDurable_turn_lt (h : Noted d w) (curTime : UInt64)
    (hlast : d.lastDurable.toNat < w.next) : (d.turn curTime).2.lastDurable.toNat < w.next := by
  rcases d.lastDurable_turn curTime with ⟨-, hsame⟩ | ⟨time, idx, -, hnote, -, hidx⟩
  · rw [hsame]
    exact hlast
  · rw [hidx]
    exact h.notes time idx hnote

/-- What neither makes a note nor makes the log shorter. -/
theorem call (h : Noted d w) {c : LockedCall} (hplace : InPlace d.store c)
    (hne : ∀ index entry, c ≠ .writeAt index entry)
    (hs : (lockedStep d.store c).map (fun store => { d with store }) = some d') :
    ∃ v, Noted d' v ∧ (d.lastDurable.toNat < w.next → d'.lastDurable.toNat < v.next) := by
  obtain ⟨store, hstore, rfl⟩ := Option.map_eq_some_iff.mp hs
  have hle := h.holds.next_le_move hplace hne
  exact ⟨_, h.longer (h.holds.locked_move hplace hstore) hle, fun hlast => lt_of_lt_of_le hlast hle⟩

/-- **Step lemma.**  Every event keeps the notes, and keeps the last durable index in the log
exactly if it leaves what is durable. -/
theorem step (h : Noted d w) {e : DiskEvent} (hg : Reasonable d e) (hs : diskStep d e = some d') :
    ∃ v, Noted d' v ∧
      (d.lastDurable.toNat < w.next → (d'.lastDurable.toNat < v.next ↔ LeavesDurable d e)) := by
  have hnextSlot := h.holds.toNat_nextSlot
  cases e with
  | call curTime c =>
    cases c with
    | append entry =>
      cases hs
      refine ⟨_, h.append hg, fun hlast => iff_of_true ?_ trivial⟩
      rw [SlowDisk.append, if_pos h.delayed, Window.next_append]
      exact Nat.lt_succ_of_lt hlast
    | writeAt index entry =>
      obtain ⟨hfirst, hnext, hroom⟩ := h.holds.of_atOrBehind hg
      cases hs
      refine ⟨_, h.writeAt hroom hfirst hnext, fun hlast => ?_⟩
      rw [SlowDisk.writeAt, if_pos h.delayed, Window.next_overwrite hfirst hnext, LeavesDurable,
        UInt64.le_iff_toNat_le, Nat.lt_succ_iff]
    | packEntry curIdx le =>
      obtain ⟨v, hv, hlast⟩ := h.call (c := .packEntry curIdx le) hg (by simp) hs
      exact ⟨v, hv, fun h => iff_of_true (hlast h) trivial⟩
    | packEnd =>
      obtain ⟨v, hv, hlast⟩ := h.call (c := .packEnd) hg (by simp) hs
      exact ⟨v, hv, fun h => iff_of_true (hlast h) trivial⟩
    | compact lastLogIndex =>
      obtain ⟨v, hv, hlast⟩ := h.call (c := .compact lastLogIndex) hg (by simp) hs
      exact ⟨v, hv, fun h => iff_of_true (hlast h) trivial⟩
  | setDiskDelay delayMs =>
    cases hs
    exact ⟨w, ⟨h.holds, hg, h.notes⟩, fun hlast => iff_of_true hlast trivial⟩
  | flushRead =>
    cases hs
    exact ⟨w, ⟨h.holds, h.delayed, h.notes⟩, fun hlast => iff_of_true hlast trivial⟩
  | flushAssign lastLog =>
    rw [diskStep, SlowDisk.flushAssign, Option.ite_none_right_eq_some] at hs
    obtain ⟨-, hs⟩ := hs
    cases hs
    refine ⟨w, ⟨h.holds, h.delayed, h.notes⟩, fun _ => ?_⟩
    rw [LeavesDurable, UInt64.lt_iff_toNat_lt, hnextSlot]
  | turn curTime =>
    cases hs
    refine ⟨w, h.turn curTime, fun hlast => iff_of_true ?_ trivial⟩
    exact h.lastDurable_turn_lt curTime hlast

end Noted

namespace SlowDisk

/-- A new log store with a delay. -/
def start (dummy : LogEntry) (delayMs : UInt64) : SlowDisk := (init dummy).setDiskDelay delayMs

theorem noted_start (dummy : LogEntry) {delayMs : UInt64} (hdelay : delayMs ≠ 0) :
    Noted (start dummy delayMs) ⟨1, []⟩ where
  holds := holds_init dummy
  delayed := hdelay
  notes time idx hnote := by
    rw [start, init, setDiskDelay, Std.ExtTreeMap.getElem?_empty] at hnote
    exact absurd hnote (by simp)

/-- What is reported as durable is there, or was. -/
def DurableInLog (d : SlowDisk) : Prop := d.lastDurableIndex < d.store.nextSlot

end SlowDisk

theorem Noted.durableInLog_iff {d : SlowDisk} {w : Window LogEntry} (h : Noted d w) :
    d.DurableInLog ↔ d.lastDurable.toNat < w.next := by
  rw [SlowDisk.DurableInLog, SlowDisk.lastDurableIndex, if_neg h.delayed, UInt64.lt_iff_toNat_lt,
    h.holds.toNat_nextSlot]

/-- **The log ends behind what is reported as durable, exactly as long as nothing durable is
overwritten and no `flush` is late.** -/
theorem durable_iff (dummy : LogEntry) {delayMs : UInt64} (hdelay : delayMs ≠ 0)
    {es : List DiskEvent} {d : SlowDisk}
    (hrun : Run diskStep Reasonable (SlowDisk.start dummy delayMs) es d) :
    Throughout diskStep Reasonable SlowDisk.DurableInLog (SlowDisk.start dummy delayMs) es ↔
      Run diskStep (fun d e => Reasonable d e ∧ LeavesDurable d e) (SlowDisk.start dummy delayMs)
        es d := by
  have hinv : ∀ d e d', (∃ w, Noted d w) → d.DurableInLog → Reasonable d e →
      diskStep d e = some d' → ∃ w, Noted d' w := by
    rintro d e d' ⟨w, hw⟩ - hg hs
    obtain ⟨v, hv, -⟩ := hw.step hg hs
    exact ⟨v, hv⟩
  have hexact : ∀ d e d', (∃ w, Noted d w) → d.DurableInLog → Reasonable d e →
      diskStep d e = some d' → (d'.DurableInLog ↔ LeavesDurable d e) := by
    rintro d e d' ⟨w, hw⟩ hQ hg hs
    obtain ⟨v, hv, hiff⟩ := hw.step hg hs
    rw [hv.durableInLog_iff]
    exact hiff (hw.durableInLog_iff.mp hQ)
  have hstart := SlowDisk.noted_start dummy hdelay
  exact throughout_iff hinv hexact hrun ⟨_, hstart⟩ (hstart.durableInLog_iff.mpr Nat.one_pos)

/-- `flush` finds one entry, and says so when the thread has found a second one written and a pack
has brought a third one and is not over yet; then the second one is written again. -/
theorem durable_books : ∃ d,
    Run diskStep (fun d e => Reasonable d e ∧ LeavesDurable d e) (SlowDisk.start (entryOf "") 100)
      [.call 5000000 (.append (entryOf "books 3")), .flushRead,
        .call 5000000 (.append (entryOf "books 4")), .turn 5100000,
        .call 5200000 (.packEntry 3 (entryOf "books 5")), .flushAssign 1,
        .call 5200000 (.writeAt 2 (entryOf "books 6")), .call 5200000 .packEnd] d ∧
    Throughout diskStep Reasonable SlowDisk.DurableInLog (SlowDisk.start (entryOf "") 100)
      [.call 5000000 (.append (entryOf "books 3")), .flushRead,
        .call 5000000 (.append (entryOf "books 4")), .turn 5100000,
        .call 5200000 (.packEntry 3 (entryOf "books 5")), .flushAssign 1,
        .call 5200000 (.writeAt 2 (entryOf "books 6")), .call 5200000 .packEnd] := by
  have hone : (1 : UInt64) ≤ 2 := by decide
  have hbehind : (1 : UInt64) < 4 := by decide
  have hrun : ∃ d, Run diskStep (fun d e => Reasonable d e ∧ LeavesDurable d e)
      (SlowDisk.start (entryOf "") 100)
      [.call 5000000 (.append (entryOf "books 3")), .flushRead,
        .call 5000000 (.append (entryOf "books 4")), .turn 5100000,
        .call 5200000 (.packEntry 3 (entryOf "books 5")), .flushAssign 1,
        .call 5200000 (.writeAt 2 (entryOf "books 6")), .call 5200000 .packEnd] d :=
    ⟨_, Run.cons ⟨by decide, trivial⟩ rfl
      (Run.cons ⟨trivial, trivial⟩ rfl
      (Run.cons ⟨by decide, trivial⟩ rfl
      (Run.cons ⟨trivial, trivial⟩ rfl
      (Run.cons ⟨by decide, trivial⟩ rfl
      (Run.cons ⟨trivial, hbehind⟩ rfl
      (Run.cons ⟨by decide, hone⟩ rfl
      (Run.cons ⟨by decide, trivial⟩ rfl (Run.refl _))))))))⟩
  obtain ⟨d, hrun⟩ := hrun
  exact ⟨d, hrun, (durable_iff (entryOf "") (by decide) (hrun.mono fun _ _ h => h.1)).mpr hrun⟩

/-! ## 4. When an entry is durable -/

/-- The log store, the writes that have begun, each with its time and its index, and what the thread
saw when it last looked at the clock. -/
structure WatchedDisk where
  disk : SlowDisk
  begun : List (UInt64 × UInt64)
  looked : UInt64

/-- The write an event begins. -/
def SlowDisk.begins (d : SlowDisk) : DiskEvent → Option (UInt64 × UInt64)
  | .call curTime (.append entry) => some (curTime, (d.store.append entry).1)
  | .call curTime (.writeAt index _) => some (curTime, index)
  | _ => none

def watchStep (c : WatchedDisk) (e : DiskEvent) : Option WatchedDisk :=
  (diskStep c.disk e).map fun disk =>
    { disk, begun := c.begun ++ (c.disk.begins e).toList,
      looked := match e with
        | .turn curTime => curTime
        | _ => c.looked }

/-- The clock does not go back, between two writes, two looks at it, or a look and a write after
it; it is not so late that the time at which a write is over does not fit. -/
def InTime (c : WatchedDisk) (curTime : UInt64) : Prop :=
  c.looked ≤ curTime ∧ (∀ p ∈ c.begun, p.1 ≤ curTime) ∧
    curTime.toNat + c.disk.delay.toNat * 1000 < 2 ^ 64

/-- Nothing is overwritten. -/
def Orderly (c : WatchedDisk) : DiskEvent → Prop
  | .call curTime (.append _) => c.disk.store.nextSlot.toNat + 1 < 2 ^ 64 ∧ InTime c curTime
  | .call curTime (.writeAt index _) =>
    c.disk.store.nextSlot.toNat + 1 < 2 ^ 64 ∧ index = c.disk.store.nextSlot ∧ InTime c curTime
  | .call _ (.compact _) => True
  | .turn curTime => c.looked ≤ curTime
  | _ => False

/-- What the notes are for: of the writes that are not over, the last one for each time; and what is
over is durable. -/
structure Truth (c : WatchedDisk) (w : Window LogEntry) : Prop where
  noted : Noted c.disk w
  /-- Later writes are for greater indices. -/
  ordered : c.begun.Pairwise fun p q => p.1 ≤ q.1 ∧ p.2 < q.2
  indices : ∀ p ∈ c.begun, p.2.toNat < w.next
  all : ∀ i, w.first ≤ i → i < w.next → ∃ p ∈ c.begun, p.2.toNat = i
  overAt : ∀ p ∈ c.begun, (c.disk.overAt p.1).toNat = p.1.toNat + c.disk.delay.toNat * 1000
  note_begun : ∀ time idx, c.disk.logsBeingWritten[time]? = some idx →
    c.looked < time ∧ ∃ p ∈ c.begun, c.disk.overAt p.1 = time ∧ p.2 = idx
  begun_note : ∀ p ∈ c.begun, c.looked < c.disk.overAt p.1 →
    ∃ idx, c.disk.logsBeingWritten[c.disk.overAt p.1]? = some idx ∧ p.2 ≤ idx
  durable : ∀ p ∈ c.begun, p.2 ≤ c.disk.lastDurable ↔ c.disk.overAt p.1 ≤ c.looked
  last : c.disk.lastDurable.toNat < w.next

theorem SlowDisk.toNat_overAt {d : SlowDisk} {curTime : UInt64}
    (hroom : curTime.toNat + d.delay.toNat * 1000 < 2 ^ 64) :
    (d.overAt curTime).toNat = curTime.toNat + d.delay.toNat * 1000 := by
  have hthousand : (1000 : UInt64).toNat = 1000 := rfl
  rw [SlowDisk.overAt, UInt64.toNat_add, UInt64.toNat_mul, hthousand]
  omega

namespace Truth

variable {c : WatchedDisk} {w v : Window LogEntry}

theorem start (dummy : LogEntry) {delayMs : UInt64} (hdelay : delayMs ≠ 0) :
    Truth ⟨SlowDisk.start dummy delayMs, [], 0⟩ ⟨1, []⟩ where
  noted := SlowDisk.noted_start dummy hdelay
  ordered := List.Pairwise.nil
  indices p hp := absurd hp List.not_mem_nil
  all i h1 h2 := absurd h2 (not_lt.mpr h1)
  overAt p hp := absurd hp List.not_mem_nil
  note_begun time idx hnote := by
    rw [SlowDisk.start, SlowDisk.init, SlowDisk.setDiskDelay, Std.ExtTreeMap.getElem?_empty]
      at hnote
    exact absurd hnote (by simp)
  begun_note p hp := absurd hp List.not_mem_nil
  durable p hp := absurd hp List.not_mem_nil
  last := Nat.one_pos

/-- **A write begins**, at the index behind the log. -/
theorem begins (h : Truth c w) {curTime idx : UInt64} (htime : InTime c curTime)
    (hidx : idx.toNat = w.next) {disk : SlowDisk} (hnoted : Noted disk v)
    (hfirst : v.first = w.first) (hnext : v.next = w.next + 1)
    (hdelay : disk.delay = c.disk.delay) (hlast : disk.lastDurable = c.disk.lastDurable)
    (hnotes : ∀ time i, disk.logsBeingWritten[time]? = some i ↔
      if time = c.disk.overAt curTime then i = idx else c.disk.logsBeingWritten[time]? = some i) :
    Truth ⟨disk, c.begun ++ [(curTime, idx)], c.looked⟩ v := by
  obtain ⟨hlooked, hbefore, hroom⟩ := htime
  have hover : ∀ time, disk.overAt time = c.disk.overAt time := by
    intro time
    rw [SlowDisk.overAt, SlowDisk.overAt, hdelay]
  have hnew := SlowDisk.toNat_overAt hroom
  have hlater : c.looked < c.disk.overAt curTime := by
    have hpos := Holds.toNat_ne_zero.mp h.noted.delayed
    rw [UInt64.le_iff_toNat_le] at hlooked
    rw [UInt64.lt_iff_toNat_lt, hnew]
    omega
  refine ⟨hnoted, ?_, ?_, ?_, ?_, ?_, ?_, ?_, ?_⟩
  · refine List.pairwise_append.mpr ⟨h.ordered, List.pairwise_singleton _ _, ?_⟩
    intro p hp q hq
    obtain rfl := List.mem_singleton.mp hq
    refine ⟨hbefore p hp, ?_⟩
    rw [UInt64.lt_iff_toNat_lt, hidx]
    exact h.indices p hp
  · intro p hp
    rw [hnext]
    rcases List.mem_append.mp hp with hp | hp
    · exact Nat.lt_succ_of_lt (h.indices p hp)
    · obtain rfl := List.mem_singleton.mp hp
      exact hidx ▸ Nat.lt_succ_self _
  · intro i h1 h2
    rw [hfirst] at h1
    rw [hnext] at h2
    rcases Nat.lt_or_eq_of_le (Nat.lt_succ_iff.mp h2) with hlt | heq
    · obtain ⟨p, hp, hpi⟩ := h.all i h1 hlt
      exact ⟨p, List.mem_append_left _ hp, hpi⟩
    · exact ⟨_, List.mem_append_right _ (List.mem_singleton_self _), hidx.trans heq.symm⟩
  · intro p hp
    dsimp only
    rw [hover, hdelay]
    rcases List.mem_append.mp hp with hp | hp
    · exact h.overAt p hp
    · obtain rfl := List.mem_singleton.mp hp
      exact hnew
  · intro time i hnote
    rw [hnotes] at hnote
    dsimp only
    split at hnote
    · rename_i heq
      rw [heq, hnote]
      exact ⟨hlater, _, List.mem_append_right _ (List.mem_singleton_self _), hover _, rfl⟩
    · obtain ⟨hlt, p, hp, hpt, hpi⟩ := h.note_begun time i hnote
      exact ⟨hlt, p, List.mem_append_left _ hp, (hover _).trans hpt, hpi⟩
  · intro p hp hlt
    dsimp only at hlt ⊢
    rw [hover] at hlt ⊢
    by_cases heq : c.disk.overAt p.1 = c.disk.overAt curTime
    · refine ⟨idx, (hnotes _ _).mpr (by rw [if_pos heq]), ?_⟩
      rcases List.mem_append.mp hp with hp | hp
      · rw [UInt64.le_iff_toNat_le, hidx]
        exact Nat.le_of_lt (h.indices p hp)
      · obtain rfl := List.mem_singleton.mp hp
        exact UInt64.le_refl _
    · rcases List.mem_append.mp hp with hp | hp
      · obtain ⟨i, hi, hle⟩ := h.begun_note p hp hlt
        exact ⟨i, (hnotes _ _).mpr (by rw [if_neg heq]; exact hi), hle⟩
      · obtain rfl := List.mem_singleton.mp hp
        exact absurd rfl heq
  · intro p hp
    dsimp only
    rw [hover, hlast]
    rcases List.mem_append.mp hp with hp | hp
    · exact h.durable p hp
    · obtain rfl := List.mem_singleton.mp hp
      have hbehind : ¬ idx ≤ c.disk.lastDurable := by
        rw [UInt64.le_iff_toNat_le, hidx]
        exact Nat.not_le_of_lt h.last
      exact iff_of_false hbehind (UInt64.not_le.mpr hlater)
  · dsimp only
    rw [hlast, hnext]
    exact Nat.lt_succ_of_lt h.last

/-- Of two writes, the one for the smaller index began first. -/
theorem time_le (h : Truth c w) {p q : UInt64 × UInt64} (hp : p ∈ c.begun) (hq : q ∈ c.begun)
    (hle : p.2 ≤ q.2) : p.1 ≤ q.1 := by
  have hboth : c.begun.Pairwise fun p q => (p.1 ≤ q.1 ∧ p.2 < q.2) ∨ (q.1 ≤ p.1 ∧ q.2 < p.2) :=
    h.ordered.imp Or.inl
  have hsymm : Std.Symm fun p q : UInt64 × UInt64 =>
      (p.1 ≤ q.1 ∧ p.2 < q.2) ∨ (q.1 ≤ p.1 ∧ q.2 < p.2) := ⟨fun _ _ => Or.symm⟩
  by_cases hpq : p = q
  · rw [hpq]
    exact UInt64.le_refl _
  · rcases hboth.forall hp hq hpq with ⟨htime, -⟩ | ⟨-, hlt⟩
    · exact htime
    · exact absurd hlt (UInt64.not_lt.mpr hle)

theorem overAt_le (h : Truth c w) {p q : UInt64 × UInt64} (hp : p ∈ c.begun) (hq : q ∈ c.begun)
    (hle : p.2 ≤ q.2) : c.disk.overAt p.1 ≤ c.disk.overAt q.1 := by
  have htime := h.time_le hp hq hle
  rw [UInt64.le_iff_toNat_le] at htime ⊢
  rw [h.overAt p hp, h.overAt q hq]
  exact Nat.add_le_add_right htime _

/-- What is durable after a turn. -/
theorem durable_turn (h : Truth c w) {curTime : UInt64} (hlooked : c.looked ≤ curTime)
    {p : UInt64 × UInt64} (hp : p ∈ c.begun) :
    p.2 ≤ (c.disk.turn curTime).2.lastDurable ↔ c.disk.overAt p.1 ≤ curTime := by
  rcases c.disk.lastDurable_turn curTime with
    ⟨hnone, hsame⟩ | ⟨time, idx, htime, hnote, hgreatest, hidx⟩
  · rw [hsame, h.durable p hp]
    refine ⟨fun hle => UInt64.le_trans hle hlooked, fun hle => ?_⟩
    by_contra hover
    obtain ⟨i, hi, -⟩ := h.begun_note p hp (UInt64.not_le.mp hover)
    exact hnone _ hle (TreeMaps.mem_of_eq_some hi)
  · obtain ⟨hlater, q, hq, rfl, rfl⟩ := h.note_begun time idx hnote
    rw [hidx]
    constructor
    · exact fun hle => UInt64.le_trans (h.overAt_le hp hq hle) htime
    · intro hle
      by_contra hlt
      -- the note for `p`'s time is not later than `q`'s, and it is for a greater index
      have hqp : c.disk.overAt q.1 ≤ c.disk.overAt p.1 :=
        h.overAt_le hq hp (UInt64.le_of_lt (UInt64.not_le.mp hlt))
      obtain ⟨i, hi, hpi⟩ := h.begun_note p hp (UInt64.lt_of_lt_of_le hlater hqp)
      have hpq := hgreatest _ hle (TreeMaps.mem_of_eq_some hi)
      rw [UInt64.le_antisymm hpq hqp, hnote, Option.some.injEq] at hi
      exact hlt (hi ▸ hpi)

/-- **The thread looks at the clock.** -/
theorem turn (h : Truth c w) {curTime : UInt64} (hlooked : c.looked ≤ curTime) :
    Truth ⟨(c.disk.turn curTime).2, c.begun, curTime⟩ w := by
  have hover : ∀ time, (c.disk.turn curTime).2.overAt time = c.disk.overAt time := by
    intro time
    rw [SlowDisk.turn_eq]
    rfl
  have hdelay : (c.disk.turn curTime).2.delay = c.disk.delay := by rw [SlowDisk.turn_eq]
  refine ⟨h.noted.turn curTime, h.ordered, h.indices, h.all, fun p hp => ?_,
    fun time i hnote => ?_, fun p hp hlt => ?_, fun p hp => ?_,
    h.noted.lastDurable_turn_lt curTime h.last⟩
  · dsimp only
    rw [hover, hdelay]
    exact h.overAt p hp
  · dsimp only at hnote ⊢
    rw [SlowDisk.getElem?_turn] at hnote
    split at hnote
    · exact absurd hnote (by simp)
    · rename_i hlt
      obtain ⟨-, p, hp, hpt, hpi⟩ := h.note_begun time i hnote
      exact ⟨UInt64.not_le.mp hlt, p, hp, (hover _).trans hpt, hpi⟩
  · dsimp only at hlt ⊢
    rw [hover] at hlt ⊢
    rw [SlowDisk.getElem?_turn, if_neg (UInt64.not_le.mpr hlt)]
    exact h.begun_note p hp (UInt64.lt_of_le_of_lt hlooked hlt)
  · dsimp only
    rw [hover]
    exact h.durable_turn hlooked hp

/-- Entries are forgotten. -/
theorem compact (h : Truth c w) {store : InmemLogStore} {i : ℕ} (hv : Holds store (w.compact i)) :
    Truth ⟨{ c.disk with store }, c.begun, c.looked⟩ (w.compact i) := by
  have hle : w.next ≤ (w.compact i).next := by
    rw [Window.next_compact]
    exact le_max_left _ _
  refine ⟨h.noted.longer hv hle, h.ordered, fun p hp => lt_of_lt_of_le (h.indices p hp) hle,
    fun j h1 h2 => ?_, h.overAt, h.note_begun, h.begun_note, h.durable, lt_of_lt_of_le h.last hle⟩
  rw [Window.first_compact] at h1
  rw [Window.next_compact] at h2
  exact h.all j (by omega) (by omega)

/-- **Step lemma.** -/
theorem step (h : Truth c w) {e : DiskEvent} {c' : WatchedDisk} (hg : Orderly c e)
    (hs : watchStep c e = some c') : c'.disk.delay = c.disk.delay ∧ ∃ v, Truth c' v := by
  have hnextSlot := h.noted.holds.toNat_nextSlot
  have hdelayed := h.noted.delayed
  cases e with
  | call curTime call =>
    cases call with
    | append entry =>
      obtain ⟨hroom, htime⟩ := hg
      have hnoted : Noted (c.disk.append curTime entry).2 (w.append entry) := h.noted.append hroom
      rw [hnextSlot] at hroom
      obtain ⟨hidx, -⟩ := h.noted.holds.append entry hroom
      cases hs
      rw [SlowDisk.append, if_pos hdelayed] at hnoted ⊢
      refine ⟨rfl, _, h.begins htime hidx hnoted rfl (Window.next_append w entry) rfl rfl ?_⟩
      intro time i
      dsimp only
      rw [TreeMaps.getElem?_insert_eq]
      split
      · rw [Option.some.injEq, eq_comm]
      · rfl
    | writeAt index entry =>
      obtain ⟨hroom, rfl, htime⟩ := hg
      have hle := w.first_le_next
      rw [← hnextSlot] at hle
      have hend := le_of_eq hnextSlot
      have hnoted : Noted (c.disk.writeAt curTime c.disk.store.nextSlot entry)
          (w.overwrite c.disk.store.nextSlot.toNat entry) := h.noted.writeAt hroom hle hend
      cases hs
      rw [SlowDisk.writeAt, if_pos hdelayed] at hnoted ⊢
      have hnext : (w.overwrite c.disk.store.nextSlot.toNat entry).next = w.next + 1 := by
        rw [Window.next_overwrite hle hend, hnextSlot]
      refine ⟨rfl, _, h.begins htime hnextSlot hnoted rfl hnext rfl rfl ?_⟩
      intro time i
      dsimp only
      rw [SlowDisk.getElem?_eraseGreater, TreeMaps.getElem?_insert_eq]
      split
      · rw [Option.some.injEq, eq_comm]
        refine and_iff_left_of_imp fun heq => ?_
        rw [heq]
        exact UInt64.le_refl _
      · -- no other note is for an index behind the log
        refine and_iff_left_of_imp fun hnote => ?_
        rw [UInt64.le_iff_toNat_le, hnextSlot]
        exact Nat.le_of_lt (h.noted.notes time i hnote)
    | packEntry curIdx le => exact hg.elim
    | packEnd => exact hg.elim
    | compact lastLogIndex =>
      simp only [watchStep, diskStep, Option.map_map, Option.map_eq_some_iff] at hs
      obtain ⟨store, hcompact, rfl⟩ := hs
      refine ⟨rfl, w.compact lastLogIndex.toNat, ?_⟩
      have hholds : Holds store (w.compact lastLogIndex.toNat) :=
        h.noted.holds.locked_move (c := .compact lastLogIndex) trivial hcompact
      simpa [SlowDisk.begins] using h.compact hholds
  | setDiskDelay delayMs => exact hg.elim
  | flushRead => exact hg.elim
  | flushAssign lastLog => exact hg.elim
  | turn curTime =>
    cases hs
    refine ⟨by rw [SlowDisk.turn_eq], w, ?_⟩
    simpa [SlowDisk.begins] using h.turn hg

/-- **Run lemma.** -/
theorem run {es : List DiskEvent} {c' : WatchedDisk} (h : Truth c w)
    (hrun : Run watchStep Orderly c es c') :
    c'.disk.delay = c.disk.delay ∧ ∃ v, Truth c' v := by
  have hstep : ∀ c₁ e c₂, (c₁.disk.delay = c.disk.delay ∧ ∃ v, Truth c₁ v) → Orderly c₁ e →
      watchStep c₁ e = some c₂ → c₂.disk.delay = c.disk.delay ∧ ∃ v, Truth c₂ v := by
    rintro c₁ e c₂ ⟨hdelay, v, hv⟩ hg hs
    obtain ⟨hsame, hnext⟩ := hv.step hg hs
    exact ⟨hsame.trans hdelay, hnext⟩
  exact hrun.invariant hstep ⟨rfl, w, h⟩

/-- **The thread wakes up in time**, and not before: when the first of the writes that are not
durable is over. -/
theorem wakes (h : Truth c w) {p : UInt64 × UInt64} (hp : p ∈ c.begun)
    (hpending : ¬ p.2 ≤ c.disk.lastDurable) :
    IsLeast {t | ∃ q ∈ c.begun, ¬ q.2 ≤ c.disk.lastDurable ∧ (c.disk.overAt q.1).toNat = t}
      (c.looked.toNat + (c.disk.nextSleepUs c.looked).toNat) := by
  have hnoted : ∀ q ∈ c.begun, ¬ q.2 ≤ c.disk.lastDurable →
      c.disk.overAt q.1 ∈ c.disk.logsBeingWritten := by
    intro q hq hlast
    rw [h.durable q hq, UInt64.not_le] at hlast
    obtain ⟨i, hi, -⟩ := h.begun_note q hq hlast
    exact TreeMaps.mem_of_eq_some hi
  have hbegun : ∀ time ∈ c.disk.logsBeingWritten,
      c.looked < time ∧ ∃ q ∈ c.begun, c.disk.overAt q.1 = time := by
    intro time htime
    obtain ⟨hlater, q, hq, hover, -⟩ :=
      h.note_begun time _ (Std.ExtTreeMap.getElem?_eq_some_getElem htime)
    exact ⟨hlater, q, hq, hover⟩
  obtain ⟨first, hfirst, hleast, hsleep⟩ :=
    SlowDisk.nextSleepUs_spec (hnoted p hp hpending) fun time htime => (hbegun time htime).1
  rw [hsleep]
  constructor
  · obtain ⟨hlater, q, hq, hover⟩ := hbegun first hfirst
    refine ⟨q, hq, ?_, congrArg UInt64.toNat hover⟩
    rw [h.durable q hq, UInt64.not_le, hover]
    exact hlater
  · rintro t ⟨q, hq, hlast, rfl⟩
    exact UInt64.le_iff_toNat_le.mp (hleast _ (hnoted q hq hlast))

/-- Every entry of the log is a write that has begun. -/
theorem exists_begun (h : Truth c w) {i : UInt64} (hi : i ≠ 0) (hin : i ∈ c.disk.store.logs) :
    ∃ p ∈ c.begun, p.2 = i := by
  rw [Std.ExtTreeMap.mem_iff_isSome_getElem?, h.noted.holds.lookup i hi, Window.isSome_get_iff]
    at hin
  obtain ⟨p, hp, hpi⟩ := h.all _ hin.1 hin.2
  exact ⟨p, hp, UInt64.toNat_inj.mp hpi⟩

end Truth

/-- **An entry is durable from the moment on when the thread sees that its write is over**, and the
thread wakes up when the first of the others is over. -/
theorem durable_exact (dummy : LogEntry) {delayMs : UInt64} (hdelay : delayMs ≠ 0)
    {es : List DiskEvent} {c : WatchedDisk}
    (hrun : Run watchStep Orderly ⟨SlowDisk.start dummy delayMs, [], 0⟩ es c) :
    (∀ i, i ≠ 0 → i ∈ c.disk.store.logs → ∃ p ∈ c.begun, p.2 = i) ∧
    (∀ p ∈ c.begun, p.2 ≤ c.disk.lastDurableIndex ↔
      p.1.toNat + delayMs.toNat * 1000 ≤ c.looked.toNat) ∧
    ∀ p ∈ c.begun, ¬ p.2 ≤ c.disk.lastDurableIndex →
      IsLeast {t | ∃ q ∈ c.begun, ¬ q.2 ≤ c.disk.lastDurableIndex ∧
          q.1.toNat + delayMs.toNat * 1000 = t}
        (c.looked.toNat + (c.disk.nextSleepUs c.looked).toNat) := by
  obtain ⟨hsame, w, h⟩ := (Truth.start dummy hdelay).run hrun
  have hkept : c.disk.delay = delayMs := hsame
  have hover := h.overAt
  rw [hkept] at hover
  rw [SlowDisk.lastDurableIndex, if_neg h.noted.delayed]
  refine ⟨fun i hi hin => h.exists_begun hi hin, fun p hp => ?_, fun p hp hpending => ?_⟩
  · rw [h.durable p hp, UInt64.le_iff_toNat_le, hover p hp]
  · refine ⟨?_, ?_⟩
    · obtain ⟨q, hq, hlast, ht⟩ := (h.wakes hp hpending).1
      exact ⟨q, hq, hlast, (hover q hq).symm.trans ht⟩
    · rintro t ⟨q, hq, hlast, ht⟩
      exact (h.wakes hp hpending).2 ⟨q, hq, hlast, (hover q hq).trans ht⟩

/-- Of three entries, the thread looks when the first two are written. -/
theorem durable_exact_books : ∃ c,
    Run watchStep Orderly ⟨SlowDisk.start (entryOf "") 100, [], 0⟩
      [.call 5000000 (.append (entryOf "books 3")), .call 5000000 (.append (entryOf "books 4")),
        .call 5050000 (.append (entryOf "books 5")), .turn 5100000] c ∧
    c.begun = [(5000000, 1), (5000000, 2), (5050000, 3)] ∧
    (2 : UInt64) ≤ c.disk.lastDurableIndex ∧ ¬ (3 : UInt64) ≤ c.disk.lastDurableIndex := by
  have hroom : ∀ n, n < 10 → n + 1 < 2 ^ 64 := by
    intro n hn
    omega
  have hlook : (0 : UInt64) ≤ 5100000 := by decide
  have hsame : (5000000 : UInt64) ≤ 5000000 := by decide
  have hlater : (5000000 : UInt64) ≤ 5050000 := by decide
  have hrun : ∃ c, Run watchStep Orderly ⟨SlowDisk.start (entryOf "") 100, [], 0⟩
      [.call 5000000 (.append (entryOf "books 3")), .call 5000000 (.append (entryOf "books 4")),
        .call 5050000 (.append (entryOf "books 5")), .turn 5100000] c ∧
      c.begun = [(5000000, 1), (5000000, 2), (5050000, 3)] ∧ c.looked = 5100000 :=
    ⟨_, Run.cons ⟨hroom 1 (by decide), by decide, List.forall_mem_nil _, by decide⟩ rfl
      (Run.cons ⟨hroom 2 (by decide), by decide, List.forall_mem_singleton.mpr hsame,
        by decide⟩ rfl
      (Run.cons ⟨hroom 3 (by decide), by decide,
        List.forall_mem_cons.mpr ⟨hlater, List.forall_mem_singleton.mpr hlater⟩, by decide⟩ rfl
      (Run.cons hlook rfl (Run.refl _)))), by decide, by decide⟩
  obtain ⟨c, hrun, hbegun, hlooked⟩ := hrun
  obtain ⟨-, hexact, -⟩ := durable_exact (entryOf "") (by decide) hrun
  have hsecond := hexact (5000000, 2) (by rw [hbegun]; decide)
  have hthird := hexact (5050000, 3) (by rw [hbegun]; decide)
  rw [hlooked] at hsecond hthird
  exact ⟨c, hrun, hbegun, hsecond.mpr (by decide), fun h => absurd (hthird.mp h) (by decide)⟩

end ReplicatedMapReduce
