/-
# A member of the cluster

A member has a log store and a state machine, and NuRaft goes back and forth between them: it
appends what the leader sends, one entry at a time or as a pack, overwrites what the leader
disagrees with, reads the entry after the last committed one and commits it, asks for a snapshot now
and then, and has the log compacted up to a snapshot.  `Member` puts the two together.  A call of
the log store is one event here, that of `apply_pack`, too; what gets in between its parts is the
subject of `LogRuns.lean`.

`Driven` is what is relied on.  Of NuRaft: only what is not committed is overwritten, the entries
that are committed are those the cluster agreed on, and the log is not compacted beyond the last
snapshot.  And of `commit`, that it finds in an entry the payload the entry was made from, in the
memory of the member and at the moment of the commit (`Member.DecodesNext`).  NuRaft gives the
members the same bytes, and these do not determine a payload: what is said here of members is said
of those that decode what was meant, which another process than that of the leader has no reason to
(`replicas_diverge`).  The payloads are taken to own their strings, as in `Replica.lean`.

Then nothing is ever lost that is still needed (`InStep`): of the entries behind the last snapshot
and up to the last commit, every one is still in the log store, and is the one that was committed.
So whoever has the last snapshot, or no snapshot if there is none, gets with the entries in the log
store back to where the member is (`lastSnapshot_enough`).  Log and snapshots are both in memory; a
process that has ended has neither.
-/
import ReplicatedMapReduce.EntryCommits
import ReplicatedMapReduce.AsyncSnapshot

namespace ReplicatedMapReduce

open Memory Runs

/-! ## 1. The last snapshot -/

namespace StateMachine

/-- Every snapshot is filed under its own index. -/
def FiledByIndex (sm : StateMachine) : Prop :=
  ∀ (i : UInt64) (ctx : SnapshotCtx), sm.snapshots[i]? = some ctx → ctx.snapshot.lastLogIdx = i

/-- The index of the last snapshot, 0 if there is none. -/
def lastSnapshotIdx (sm : StateMachine) : UInt64 := sm.lastSnapshot.elim 0 Snapshot.lastLogIdx

theorem FiledByIndex.createSnapshotInternal {sm : StateMachine} (h : sm.FiledByIndex)
    (ss : Snapshot) : (sm.createSnapshotInternal ss).FiledByIndex := by
  intro i ctx hctx
  by_cases hi : ss.lastLogIdx = i
  · rw [← hi, getElem?_createSnapshotInternal_self] at hctx
    split at hctx
    · exact absurd hctx (by simp)
    · cases hctx
      exact hi
  · exact h i ctx (getElem?_createSnapshotInternal_of_ne hi hctx)

/-- The last snapshot, where it is. -/
theorem lastSnapshot_eq_some {sm : StateMachine} {s : Snapshot} (h : sm.lastSnapshot = some s) :
    ∃ (i : UInt64) (ctx : SnapshotCtx), sm.snapshots[i]? = some ctx ∧ ctx.snapshot = s ∧
      ∀ j ∈ sm.snapshots, j ≤ i := by
  rw [lastSnapshot, Option.map_eq_some_iff] at h
  obtain ⟨⟨i, ctx⟩, hlast, rfl⟩ := h
  obtain ⟨hctx, hmax⟩ := TreeMaps.of_getLast?_toList hlast
  refine ⟨i, ctx, hctx, rfl, fun j hj => ?_⟩
  rcases hmax j hj with rfl | hlt
  · exact UInt64.le_refl _
  · rw [Std.compare_eq_lt] at hlt
    exact UInt64.le_of_lt hlt

/-- **A snapshot that is not behind the others is the last one.** -/
theorem lastSnapshot_createSnapshotInternal {sm : StateMachine} {ss : Snapshot}
    (hnew : ∀ i ∈ sm.snapshots, i ≤ ss.lastLogIdx) :
    (sm.createSnapshotInternal ss).lastSnapshot = some ss := by
  have hnone : TreeMaps.keysAbove sm.snapshots ss.lastLogIdx = [] := by
    refine List.eq_nil_iff_forall_not_mem.mpr ?_
    intro i hi
    obtain ⟨hmem, hlt⟩ := TreeMaps.mem_keysAbove.mp hi
    rw [Std.compare_eq_lt] at hlt
    exact absurd (hnew i hmem) (UInt64.not_le.mpr hlt)
  have hself :
      (sm.createSnapshotInternal ss).snapshots[ss.lastLogIdx]? = some ⟨ss, sm.kvStore⟩ := by
    rw [getElem?_createSnapshotInternal_self, hnone]
    rfl
  obtain ⟨s, hs⟩ : ∃ s, (sm.createSnapshotInternal ss).lastSnapshot = some s := by
    rw [← Option.ne_none_iff_exists', ne_eq, lastSnapshot, Option.map_eq_none_iff,
      List.getLast?_eq_none_iff, Std.ExtTreeMap.toList_eq_nil_iff]
    intro hempty
    rw [hempty] at hself
    exact absurd hself (by simp)
  obtain ⟨i, ctx, hctx, rfl, hmax⟩ := lastSnapshot_eq_some hs
  have hge : ss.lastLogIdx ≤ i := hmax _ (TreeMaps.mem_of_eq_some hself)
  have hi : i = ss.lastLogIdx := by
    by_contra hne
    have hold := getElem?_createSnapshotInternal_of_ne (fun he => hne he.symm) hctx
    exact hne (UInt64.le_antisymm (hnew i (TreeMaps.mem_of_eq_some hold)) hge)
  rw [hi, hself] at hctx
  cases hctx
  exact hs

end StateMachine

/-! ## 2. A member and its events -/

/-- A log store, and the replica that commits its entries. -/
structure Member where
  logStore : InmemLogStore
  replica : Replica
  deriving DecidableEq

/-- A new member, with synchronous snapshots. -/
def Member.init (dummy : LogEntry) : Member := ⟨InmemLogStore.init dummy, Replica.init false⟩

/-- The index after the last committed one. -/
def Member.nextCommit (m : Member) : UInt64 := m.replica.sm.lastCommittedIdx + 1

inductive MemberEvent
  | append (entry : LogEntry)
  | writeAt (index : UInt64) (entry : LogEntry)
  /-- A pack of the entries behind the last one is received. -/
  | sync (data : Str)
  /-- The entry after the last committed one is read from the log store and committed, with the
  local `payload` at an address of the member's memory. -/
  | commitNext (payload : Addr) (mem : Mem)
  | createSnapshot (s : Snapshot)
  | compact (lastLogIndex : UInt64)

def memberStep [NuRaft] [LogBuffers] (m : Member) : MemberEvent → Option Member
  | .append entry => some { m with logStore := (m.logStore.append entry).2 }
  | .writeAt index entry => some { m with logStore := m.logStore.writeAt index entry }
  | .sync data =>
    some { m with logStore := (m.logStore.applyPack m.logStore.nextSlot data).1 }
  | .commitNext payload mem =>
    match m.logStore.entryAt m.nextCommit with
    | .error _ => none
    | .ok entry =>
      (commitEntry m.replica ⟨m.nextCommit, entry, payload, mem⟩).map fun replica =>
        { m with replica }
  | .createSnapshot s =>
    (step m.replica (.createSnapshot s)).map fun replica => { m with replica }
  | .compact lastLogIndex =>
    (m.logStore.compact lastLogIndex).map fun logStore => { m with logStore }

/-- What the member commits next is decoded to the payload that was meant. -/
def Member.DecodesNext (log : ℕ → Entry) (m : Member) (payload : Addr) (mem : Mem) : Prop :=
  ∀ entry, m.logStore.entryAt m.nextCommit = .ok entry →
    entry.decode payload mem = .ok (log m.nextCommit.toNat)

section Driven

variable (raftLog : ℕ → LogEntry) (log : ℕ → Entry)

/-- What is relied on.  `raftLog` are the entries that the cluster has agreed on, and `log` is what
they were made from. -/
def Driven [LogBuffers] (m : Member) : MemberEvent → Prop
  | .append _ => m.logStore.nextSlot.toNat + 1 < 2 ^ 64
  | .writeAt index _ =>
    m.replica.sm.lastCommittedIdx < index ∧ index ≤ m.logStore.nextSlot ∧
      index.toNat + 1 < 2 ^ 64
  | .sync data =>
    (InmemLogStore.unpack data).1 ≠ [] ∧
      m.logStore.nextSlot.toNat + (InmemLogStore.unpack data).1.length < 2 ^ 64
  | .commitNext payload mem =>
    m.nextCommit < m.logStore.nextSlot ∧
      (∀ entry, m.logStore.entryAt m.nextCommit = .ok entry →
        entry.Same (raftLog m.nextCommit.toNat)) ∧
      m.DecodesNext log payload mem
  | .createSnapshot s => s.lastLogIdx = m.replica.sm.lastCommittedIdx
  | .compact lastLogIndex => lastLogIndex ≤ m.replica.sm.lastSnapshotIdx

/-- **The log store and the state machine are in step**: the log goes beyond the last commit, what
it has of the committed entries is what was agreed on, and it has all of them behind the last
snapshot. -/
structure InStep (m : Member) (w : Window LogEntry) : Prop where
  recorded : Recorded log m.replica
  filed : m.replica.sm.FiledByIndex
  holds : Holds m.logStore w
  ahead : m.replica.sm.lastCommittedIdx.toNat < w.next
  agrees : ∀ i entry, i ≤ m.replica.sm.lastCommittedIdx.toNat → w.get i = some entry →
    entry.Same (raftLog i)
  covers : w.first ≤ m.replica.sm.lastSnapshotIdx.toNat + 1

end Driven

variable {raftLog : ℕ → LogEntry} {log : ℕ → Entry} {m m' : Member} {w : Window LogEntry}

/-! ## 3. One event -/

theorem inStep_init (raftLog : ℕ → LogEntry) (log : ℕ → Entry) (dummy : LogEntry) :
    InStep raftLog log (Member.init dummy) ⟨1, []⟩ where
  recorded := recorded_init log
  filed := by
    intro i ctx hctx
    exact absurd hctx (by simp [Member.init, Replica.init, StateMachine.init])
  holds := holds_init dummy
  ahead := Nat.one_pos
  agrees := by
    intro i entry _ hget
    rw [Window.get_of_nil rfl] at hget
    exact absurd hget (by simp)
  covers := Nat.le_add_left 1 _

/-- **What is committed next is what the entry is decoded to.** -/
theorem memberStep_commitNext [NuRaft] [LogBuffers] {entry : LogEntry} {e : Entry} {payload : Addr}
    {mem : Mem} (hentry : m.logStore.entryAt m.nextCommit = .ok entry)
    (hdec : entry.decode payload mem = .ok e) :
    memberStep m (.commitNext payload mem)
      = (step m.replica (e.commitAt m.nextCommit)).map fun replica => { m with replica } := by
  simp only [memberStep, hentry]
  rw [commitEntry_of_decode hdec]

namespace InStep

/-- No snapshot is ahead of the last commit. -/
theorem lastSnapshotIdx_le (h : InStep raftLog log m w) :
    m.replica.sm.lastSnapshotIdx.toNat ≤ m.replica.sm.lastCommittedIdx.toNat := by
  rw [StateMachine.lastSnapshotIdx]
  cases hlast : m.replica.sm.lastSnapshot with
  | none => exact Nat.zero_le _
  | some s =>
    obtain ⟨i, ctx, hctx, rfl, -⟩ := StateMachine.lastSnapshot_eq_some hlast
    rw [Option.elim_some, h.filed i ctx hctx]
    exact h.recorded.notAhead i (TreeMaps.mem_of_eq_some hctx)

theorem toNat_nextCommit (h : InStep raftLog log m w) :
    m.nextCommit.toNat = m.replica.sm.lastCommittedIdx.toNat + 1 := by
  have hahead := h.ahead
  have hlt := h.holds.next_lt
  exact toNat_succ (by omega)

/-- Where there is one more entry, it is read. -/
theorem entryAt_nextCommit (h : InStep raftLog log m w)
    (hnext : m.nextCommit < m.logStore.nextSlot) :
    ∃ entry, w.get m.nextCommit.toNat = some entry ∧
      m.logStore.entryAt m.nextCommit = .ok entry := by
  have hcommit := h.toNat_nextCommit
  have hsnap := h.lastSnapshotIdx_le
  have hcovers := h.covers
  rw [UInt64.lt_iff_toNat_lt, h.holds.toNat_nextSlot] at hnext
  obtain ⟨entry, hentry⟩ : ∃ entry, w.get m.nextCommit.toNat = some entry :=
    Option.isSome_iff_exists.mp (Window.isSome_get_iff.mpr (by omega))
  obtain ⟨dummy, hdummy⟩ := h.holds.dummy
  refine ⟨entry, hentry, ?_⟩
  rw [(h.holds.entryAt_eq (Holds.toNat_ne_zero.mpr (by omega)) hdummy).1, hentry, Option.getD_some]

/-- What concerns the log store alone. -/
theorem moveLog (h : InStep raftLog log m w) {logStore : InmemLogStore} {v : Window LogEntry}
    (hv : Holds logStore v) (hahead : m.replica.sm.lastCommittedIdx.toNat < v.next)
    (hget : ∀ i, i ≤ m.replica.sm.lastCommittedIdx.toNat → v.get i = w.get i ∨ v.get i = none)
    (hcovers : v.first ≤ m.replica.sm.lastSnapshotIdx.toNat + 1) :
    InStep raftLog log { m with logStore } v := by
  refine ⟨h.recorded, h.filed, hv, hahead, fun i entry hi hentry => ?_, hcovers⟩
  rcases hget i hi with hsame | hnone
  · exact h.agrees i entry hi (hsame ▸ hentry)
  · rw [hnone] at hentry
    exact absurd hentry (by simp)

section NuRaft

variable [NuRaft] [LogBuffers]

theorem commitNext (h : InStep raftLog log m w) {payload : Addr} {mem : Mem}
    (he : Driven raftLog log m (.commitNext payload mem))
    (hs : memberStep m (.commitNext payload mem) = some m') : InStep raftLog log m' w := by
  obtain ⟨hnext, hagreed, hdec⟩ := he
  obtain ⟨entry, hget, hentry⟩ := h.entryAt_nextCommit hnext
  have hcommit := h.toNat_nextCommit
  rw [memberStep_commitNext hentry (hdec entry hentry), Option.map_eq_some_iff] at hs
  obtain ⟨u, hu, rfl⟩ := hs
  obtain ⟨hc, -⟩ := step_commitAt hu
  have hrecorded : Recorded log u := h.recorded.commitsNext ⟨m.nextCommit, hcommit, rfl⟩ hu
  have hlast : u.sm.lastSnapshot = m.replica.sm.lastSnapshot := by
    rw [StateMachine.lastSnapshot, StateMachine.lastSnapshot, hc.snapshots]
  have hlastIdx : u.sm.lastSnapshotIdx = m.replica.sm.lastSnapshotIdx := by
    rw [StateMachine.lastSnapshotIdx, StateMachine.lastSnapshotIdx, hlast]
  rw [UInt64.lt_iff_toNat_lt, h.holds.toNat_nextSlot] at hnext
  refine ⟨hrecorded, ?_, h.holds, ?_, fun i e hi hi' => ?_, ?_⟩
  · rw [StateMachine.FiledByIndex, hc.snapshots]
    exact h.filed
  · rw [hc.lastCommittedIdx]
    exact hnext
  · rw [hc.lastCommittedIdx, hcommit] at hi
    rcases Nat.lt_or_ge i m.nextCommit.toNat with hlt | hge
    · exact h.agrees i e (by omega) hi'
    · obtain rfl : i = m.nextCommit.toNat := by omega
      rw [hget] at hi'
      cases hi'
      exact hagreed entry hentry
  · rw [hlastIdx]
    exact h.covers

theorem createSnapshot (h : InStep raftLog log m w) {s : Snapshot}
    (he : Driven raftLog log m (.createSnapshot s))
    (hs : memberStep m (.createSnapshot s) = some m') : InStep raftLog log m' w := by
  simp only [memberStep, Option.map_eq_some_iff] at hs
  obtain ⟨u, hu, rfl⟩ := hs
  have hrecorded : Recorded log u := h.recorded.requestsSnapshot ⟨s, he, rfl⟩ hu
  have hsnap := h.lastSnapshotIdx_le
  have hcovers := h.covers
  obtain rfl := step_createSnapshot_sync h.recorded.sync hu
  have hidx : (m.replica.sm.createSnapshotInternal s).lastSnapshotIdx
      = m.replica.sm.lastCommittedIdx := by
    have hnew : ∀ i ∈ m.replica.sm.snapshots, i ≤ s.lastLogIdx := by
      intro i hi
      rw [UInt64.le_iff_toNat_le, he]
      exact h.recorded.notAhead i hi
    rw [StateMachine.lastSnapshotIdx, StateMachine.lastSnapshot_createSnapshotInternal hnew,
      Option.elim_some, he]
  refine ⟨hrecorded, h.filed.createSnapshotInternal s, h.holds, h.ahead, h.agrees, ?_⟩
  dsimp only
  rw [hidx]
  omega

theorem append (h : InStep raftLog log m w) {entry : LogEntry}
    (he : Driven raftLog log m (.append entry))
    (hs : memberStep m (.append entry) = some m') :
    InStep raftLog log m' (w.append entry) := by
  have hahead := h.ahead
  rw [Driven, h.holds.toNat_nextSlot] at he
  cases hs
  refine h.moveLog (h.holds.append entry he).2 ?_ (fun i hi => Or.inl ?_) h.covers
  · rw [Window.next_append]
    omega
  · rw [Window.get_append, if_neg (by omega)]

/-- Whether or not the pack is read to its end, it is put behind the last entry. -/
theorem sync (h : InStep raftLog log m w) {data : Str} (he : Driven raftLog log m (.sync data))
    (hs : memberStep m (.sync data) = some m') :
    InStep raftLog log m' (w.patch w.next (InmemLogStore.unpack data).1) := by
  obtain ⟨hne, hroom⟩ := he
  have hnext := h.holds.toNat_nextSlot
  have hahead := h.ahead
  have hcovers := h.covers
  have hle := w.first_le_next
  have htouch : w.Touches w.next (InmemLogStore.unpack data).1.length :=
    Or.inr ⟨Nat.le_refl _, by omega⟩
  have hholds := h.holds.applyPack_nextSlot hne (hnext ▸ hroom)
  cases hs
  refine h.moveLog hholds ?_ (fun i hi => Or.inl ?_) ?_
  · rw [Window.next_patch htouch]
    split <;> omega
  · rw [Window.get_patch htouch, if_neg (by omega)]
  · rw [Window.first_patch]
    split
    · rename_i hempty
      rw [Window.next, hempty, List.length_nil]
      exact hcovers
    · omega

/-- **Step lemma.**  Every event keeps the log store and the state machine in step. -/
theorem event {e : MemberEvent} (h : InStep raftLog log m w) (he : Driven raftLog log m e)
    (hs : memberStep m e = some m') : ∃ v, InStep raftLog log m' v := by
  have hahead := h.ahead
  have hsnap := h.lastSnapshotIdx_le
  have hcovers := h.covers
  cases e with
  | append entry => exact ⟨_, h.append he hs⟩
  | writeAt index entry =>
    obtain ⟨hcommitted, hnext, hroom⟩ := he
    rw [UInt64.lt_iff_toNat_lt] at hcommitted
    rw [UInt64.le_iff_toNat_le, h.holds.toNat_nextSlot] at hnext
    have hfirst : w.first ≤ index.toNat := by omega
    cases hs
    refine ⟨_, h.moveLog (h.holds.writeAt entry hfirst hnext hroom) ?_ (fun i hi => Or.inl ?_)
      hcovers⟩
    · rw [Window.next_overwrite hfirst hnext]
      omega
    · rw [Window.get_overwrite hfirst hnext, if_neg (by omega), if_pos (by omega)]
  | sync data => exact ⟨_, h.sync he hs⟩
  | commitNext payload mem => exact ⟨w, h.commitNext he hs⟩
  | createSnapshot s => exact ⟨w, h.createSnapshot he hs⟩
  | compact lastLogIndex =>
    rw [Driven, UInt64.le_iff_toNat_le] at he
    simp only [memberStep, Option.map_eq_some_iff] at hs
    obtain ⟨logStore, hcompact, rfl⟩ := hs
    obtain ⟨s', hs', hholds⟩ := h.holds.compact (InmemLogStore.lt_of_compact hcompact)
    obtain rfl : s' = logStore := Option.some.inj (hs'.symm.trans hcompact)
    refine ⟨_, h.moveLog hholds ?_ (fun i hi => ?_) ?_⟩
    · rw [Window.next_compact]
      omega
    · rw [Window.get_compact]
      split
      · exact Or.inr rfl
      · exact Or.inl rfl
    · rw [Window.first_compact]
      omega

end NuRaft

end InStep

section NuRaft

variable [NuRaft] [LogBuffers]

/-- **Run lemma.** -/
theorem inStep_of_run {dummy : LogEntry} {es : List MemberEvent}
    (hrun : Run memberStep (Driven raftLog log) (Member.init dummy) es m) :
    ∃ w, InStep raftLog log m w := by
  have hstep : ∀ m e m', (∃ w, InStep raftLog log m w) → Driven raftLog log m e →
      memberStep m e = some m' → ∃ w, InStep raftLog log m' w := by
    rintro m e m' ⟨w, hw⟩ he hs
    exact hw.event he hs
  exact hrun.invariant hstep ⟨_, inStep_init raftLog log dummy⟩

/-! ## 4. From the last snapshot on -/

omit [NuRaft] [LogBuffers] in
/-- What the log store returns from any index on that it reaches back to. -/
theorem InStep.logEntries_eq (h : InStep raftLog log m w) {i : UInt64}
    (hfirst : w.first ≤ i.toNat + 1) (hi : i ≤ m.replica.sm.lastCommittedIdx) :
    m.logStore.logEntries (i + 1) m.nextCommit
      = .ok (w.slice (i.toNat + 1) (m.replica.sm.lastCommittedIdx.toNat + 1)) := by
  rw [UInt64.le_iff_toNat_le] at hi
  have hcommit := h.toNat_nextCommit
  have hahead := h.ahead
  have hlt := h.holds.next_lt
  have hstart : (i + 1).toNat = i.toNat + 1 := toNat_succ (by omega)
  have hle : i + 1 ≤ m.nextCommit := by
    rw [UInt64.le_iff_toNat_le]
    omega
  rw [h.holds.logEntries_eq (Holds.toNat_ne_zero.mpr (by omega)) hle, if_pos (Or.inr (by omega)),
    hstart, hcommit]

omit [LogBuffers] in
/-- **The log store is enough to catch up**, for a replica with the store of any index the log
reaches back to: the entries behind that index can be read, and every run that commits them leads to
the member's store and to its answers. -/
theorem InStep.catch_up (h : InStep raftLog log m w) {i : UInt64} (hfirst : w.first ≤ i.toNat + 1)
    (hi : i ≤ m.replica.sm.lastCommittedIdx) :
    ∃ entries, m.logStore.logEntries (i + 1) m.nextCommit = .ok entries ∧
      ∀ (q q' : Replica) (cs : List EntryCommit), q.sm.kvStore = storeAt log i.toNat →
        CommitsFrom i.toNat entries cs → Run commitEntry (fun _ c => c.Decodes log) q cs q' →
        q'.sm.kvStore = m.replica.sm.kvStore ∧
        ∀ (j : UInt64) (p : OpPayload), i < j → j ≤ m.replica.sm.lastCommittedIdx →
          log j.toNat = .payload p → p.type = .mapReduce →
          q'.sm.getMapReduceResults j = m.replica.sm.getMapReduceResults j := by
  refine ⟨_, h.logEntries_eq hfirst hi, fun q q' cs hq hcs hrun => ?_⟩
  rw [UInt64.le_iff_toNat_le] at hi
  have hahead := h.ahead
  have hlt := h.holds.next_lt
  have hlen : i.toNat + (w.slice (i.toNat + 1) (m.replica.sm.lastCommittedIdx.toNat + 1)).length
      = m.replica.sm.lastCommittedIdx.toNat := by
    rw [Window.length_slice hfirst (by omega)]
    omega
  obtain ⟨hstore, hans⟩ := hcs.run (by omega)
    (fun j h1 h2 => h.recorded.sound j (by omega) (by omega)) hq hrun
  rw [hlen] at hstore hans
  refine ⟨hstore.trans h.recorded.tracks.symm, fun j p hij hj hp htype => ?_⟩
  rw [UInt64.lt_iff_toNat_lt] at hij
  rw [UInt64.le_iff_toNat_le] at hj
  have hsound : p.Sound := by
    have hentry := h.recorded.sound j.toNat (by omega) hj
    rwa [hp] at hentry
  obtain ⟨results, -, hresults⟩ :=
    Entry.results_payload htype hsound (storeAt log (j.toNat - 1))
  have hresults' : resultsAt log j.toNat = some results := by rw [resultsAt, hp, hresults]
  rw [StateMachine.getMapReduceResults, StateMachine.getMapReduceResults,
    hans j results hij hj hresults', h.recorded.answered j results (by omega) hj hresults']

end NuRaft

/-- A member decodes the entries of `promptLog`. -/
theorem decodesNext_promptLog {i : ℕ} (h1 : 1 ≤ i) (h3 : i ≤ 3)
    (hentry : m.logStore.entryAt m.nextCommit = .ok (promptLog i))
    (hlog : log m.nextCommit.toNat = booksLog i) : m.DecodesNext log 8192 promptMem := by
  intro entry hentry'
  rw [hentry] at hentry'
  cases hentry'
  rw [hlog]
  exact decode_promptLog h1 h3

theorem driven_promptLog [LogBuffers] {i : ℕ} (h1 : 1 ≤ i) (h3 : i ≤ 3)
    (hslot : m.nextCommit < m.logStore.nextSlot)
    (hentry : m.logStore.entryAt m.nextCommit = .ok (promptLog i))
    (hraft : raftLog m.nextCommit.toNat = promptLog i)
    (hlog : log m.nextCommit.toNat = booksLog i) :
    Driven raftLog log m (.commitNext 8192 promptMem) := by
  refine ⟨hslot, fun entry hentry' => ?_, decodesNext_promptLog h1 h3 hentry hlog⟩
  rw [hentry] at hentry'
  cases hentry'
  rw [hraft]
  exact ⟨rfl, rfl, rfl⟩

theorem memberStep_promptLog [NuRaft] [LogBuffers] {i : ℕ} (h1 : 1 ≤ i) (h3 : i ≤ 3)
    (hentry : m.logStore.entryAt m.nextCommit = .ok (promptLog i)) {u : Replica}
    (hs : step m.replica ((booksLog i).commitAt m.nextCommit) = some u) :
    memberStep m (.commitNext 8192 promptMem) = some { m with replica := u } := by
  rw [memberStep_commitNext hentry (decode_promptLog h1 h3), hs, Option.map_some]

/-- A member commits three entries, with a snapshot after the first, and compacts that one away. -/
theorem run_promptLog (h1 : log 1 = booksLog 1) (h2 : log 2 = booksLog 2)
    (h3 : log 3 = booksLog 3) : ∃ m : Member,
    @Run _ _ (@memberStep littleEndian littleEndianEntries)
      (@Driven promptLog log littleEndianEntries) (Member.init (entryOf ""))
      [.append (promptLog 1), .append (promptLog 2), .append (promptLog 3),
        .commitNext 8192 promptMem, .createSnapshot ⟨1, 1⟩, .commitNext 8192 promptMem,
        .commitNext 8192 promptMem, .compact 1] m ∧
    m.logStore.startIdx = 2 ∧ m.replica.sm.lastSnapshotIdx = 1 ∧
    m.replica.sm.lastCommittedIdx = 3 ∧
    m.logStore.logEntries 2 4 = .ok [promptLog 2, promptLog 3] := by
  let := littleEndian
  let := littleEndianEntries
  have hroom : ∀ n, n < 10 → n + 1 < 2 ^ 64 := by
    intro n hn
    omega
  exact ⟨_, Run.cons (hroom 1 (by decide)) rfl (Run.cons (hroom 2 (by decide)) rfl
    (Run.cons (hroom 3 (by decide)) rfl
    (Run.cons (driven_promptLog (i := 1) (by decide) (by decide) (by decide) rfl rfl h1)
      (memberStep_promptLog (i := 1) (by decide) (by decide) rfl rfl)
    (Run.cons rfl rfl
    (Run.cons (driven_promptLog (i := 2) (by decide) (by decide) (by decide) rfl rfl h2)
      (memberStep_promptLog (i := 2) (by decide) (by decide) rfl rfl)
    (Run.cons (driven_promptLog (i := 3) (by decide) (by decide) (by decide) rfl rfl h3)
      (memberStep_promptLog (i := 3) (by decide) (by decide) rfl rfl)
    (Run.cons (by rw [Driven]; decide) rfl (Run.refl _)))))))), by decide, by decide, by decide,
    rfl⟩

end ReplicatedMapReduce
