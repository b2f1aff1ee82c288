/-
# What the commit index says about the store

`last_commit_index()` is how a state machine tells NuRaft where in the log its store is.
`commit` and `commit_config` move the store and the index together.  `apply_snapshot` replaces
the store and leaves the index where it was.

To say which entry comes next after a restore, the runs below carry one more number than the
code: the index the store really reflects.  A node commits the entry after that one.  A
snapshot it applies may be one of its own or one that was received from a leader, with an index
below or above its own last commit.

The index is right as long as every snapshot that is applied holds the store the index already
stood for (`commitIndex_iff`), so in particular when it is the one of the last commit.  The next
commit sets both numbers and hides what happened.
-/
import ReplicatedMapReduce.Replica

namespace ReplicatedMapReduce

open Runs

/-! ## 1. A node, and the index its store reflects -/

/-- A replica, and the index its store reflects.  Nothing in the code holds that number. -/
structure Node where
  replica : Replica
  reflected : ℕ
  deriving DecidableEq

def Node.init : Node := ⟨Replica.init false, 0⟩

inductive Event
  /-- A call of NuRaft's. -/
  | call (a : Action)
  /-- A snapshot received from a leader is there, with the store as of its index. -/
  | received (s : Snapshot)
  deriving DecidableEq

/-- The replica with a received snapshot. -/
def Replica.receive (log : ℕ → Entry) (r : Replica) (s : Snapshot) : Replica :=
  { r with sm := { r.sm with
    snapshots := r.sm.snapshots.insert s.lastLogIdx ⟨s, storeAt log s.lastLogIdx.toNat⟩ } }

/-- The index the store reflects after a call that returned. -/
def Node.reflectedAfter (n : Node) : Action → ℕ
  | .commit i _ => i.toNat
  | .commitConfig i => i.toNat
  | .applySnapshot s => if (n.replica.sm.applySnapshot s).1 then s.lastLogIdx.toNat else n.reflected
  | .createSnapshot _ => n.reflected
  | .runJob _ => n.reflected
  | .saveLogicalSnpObj _ _ _ => n.reflected

/-- If the event applies a snapshot, the snapshot's index and the commit index stand for the
same store. -/
def AppliesCurrent (log : ℕ → Entry) (n : Node) (e : Event) : Prop :=
  ∀ s : Snapshot, e = .call (.applySnapshot s) →
    storeAt log s.lastLogIdx.toNat = storeAt log n.replica.sm.lastCommittedIdx.toNat

/-- What happens to a node: it commits the entry after the one its store reflects, it makes a
snapshot at the last committed index, it receives a snapshot, or it applies one it has. -/
inductive Scheduled (log : ℕ → Entry) (n : Node) : Event → Prop
  | commits (i : UInt64) (hi : i.toNat = n.reflected + 1) :
      Scheduled log n (.call ((log i.toNat).commitAt i))
  | createSnapshot (s : Snapshot) (hs : s.lastLogIdx = n.replica.sm.lastCommittedIdx) :
      Scheduled log n (.call (.createSnapshot s))
  | received (s : Snapshot) : Scheduled log n (.received s)
  | applySnapshot (s : Snapshot) (hs : s.lastLogIdx ∈ n.replica.sm.snapshots) :
      Scheduled log n (.call (.applySnapshot s))

/-- What the events keep as long as the commit index is right. -/
structure Reflects (log : ℕ → Entry) (n : Node) : Prop where
  store : n.replica.sm.kvStore = storeAt log n.reflected
  snapshots : SnapshotsAtIndex log n.replica.sm
  sync : n.replica.sm.asyncSnapshot = false

theorem reflectedAfter_commitAt (n : Node) (i : UInt64) (e : Entry) :
    n.reflectedAfter (e.commitAt i) = i.toNat := by
  cases e <;> rfl

theorem SnapshotsAtIndex.receive {log : ℕ → Entry} {r : Replica} (h : SnapshotsAtIndex log r.sm)
    (s : Snapshot) : SnapshotsAtIndex log (r.receive log s).sm := by
  intro i ctx hctx
  exact h.insert rfl i ctx hctx

section NuRaft

variable [NuRaft]

def nodeStep (log : ℕ → Entry) (n : Node) : Event → Option Node
  | .call a => (step n.replica a).map fun r => ⟨r, n.reflectedAfter a⟩
  | .received s => some { n with replica := n.replica.receive log s }

theorem nodeStep_call {log : ℕ → Entry} {n u : Node} {a : Action}
    (h : nodeStep log n (.call a) = some u) :
    step n.replica a = some u.replica ∧ u.reflected = n.reflectedAfter a := by
  simp only [nodeStep, Option.map_eq_some_iff] at h
  obtain ⟨r, hr, rfl⟩ := h
  exact ⟨hr, rfl⟩

/-- A snapshot that is there is applied: the store is the snapshot's, and nothing else changes. -/
theorem nodeStep_applySnapshot {log : ℕ → Entry} {n u : Node} {s : Snapshot}
    (hmem : s.lastLogIdx ∈ n.replica.sm.snapshots)
    (h : nodeStep log n (.call (.applySnapshot s)) = some u) :
    ∃ ctx, n.replica.sm.snapshots[s.lastLogIdx]? = some ctx ∧
      u.replica = { n.replica with sm := { n.replica.sm with kvStore := ctx.kvStore } } ∧
      u.reflected = s.lastLogIdx.toNat := by
  obtain ⟨hstep, hreflected⟩ := nodeStep_call h
  rw [Std.ExtTreeMap.mem_iff_isSome_getElem?, Option.isSome_iff_exists] at hmem
  obtain ⟨ctx, hctx⟩ := hmem
  have happly := StateMachine.applySnapshot_of_entry hctx
  simp only [step, happly, Option.some.injEq] at hstep
  simp only [Node.reflectedAfter, happly, if_true] at hreflected
  exact ⟨ctx, hctx, hstep.symm, hreflected⟩

/-! ## 2. One event -/

/-- **Step lemma.**  While the commit index is right, an event keeps the store at the index it
reflects, and keeps the commit index right exactly if it does not apply a snapshot that stands
for another store. -/
theorem reflects_step {log : ℕ → Entry} {n u : Node} {e : Event} (h : Reflects log n)
    (htracks : TracksLog log n.replica) (he : Scheduled log n e)
    (hs : nodeStep log n e = some u) :
    Reflects log u ∧ (TracksLog log u.replica ↔ AppliesCurrent log n e) := by
  cases he with
  | commits i hi =>
    obtain ⟨hstep, hreflected⟩ := nodeStep_call hs
    rw [reflectedAfter_commitAt] at hreflected
    obtain ⟨hc, -⟩ := step_commitAt hstep
    have hstore : u.replica.sm.kvStore = storeAt log i.toNat := by
      rw [hc.kvStore, h.store, hi, storeAt]
    refine ⟨⟨?_, ?_, ?_⟩, ?_⟩
    · rw [hreflected, hstore]
    · rw [SnapshotsAtIndex, hc.snapshots]
      exact h.snapshots
    · rw [hc.asyncSnapshot]
      exact h.sync
    · -- both numbers are the index of the commit, whatever they were
      refine iff_of_true ?_ ?_
      · rw [TracksLog, hc.lastCommittedIdx, hstore]
      · intro s heq
        rw [Event.call.injEq] at heq
        exact absurd heq ((log i.toNat).commitAt_ne_applySnapshot i s)
  | createSnapshot s hlast =>
    obtain ⟨hstep, hreflected⟩ := nodeStep_call hs
    have hu := step_createSnapshot_sync h.sync hstep
    have hstore : n.replica.sm.kvStore = storeAt log s.lastLogIdx.toNat := by
      rw [hlast]
      exact htracks
    refine ⟨⟨?_, ?_, ?_⟩, ?_⟩
    · rw [hreflected, hu]
      exact h.store
    · rw [hu]
      exact h.snapshots.createSnapshotInternal hstore
    · rw [hu]
      exact h.sync
    · rw [hu]
      exact iff_of_true htracks fun s' heq => absurd heq (by simp)
  | received s =>
    simp only [nodeStep, Option.some.injEq] at hs
    subst hs
    exact ⟨⟨h.store, h.snapshots.receive s, h.sync⟩,
      iff_of_true htracks fun s' heq => absurd heq (by simp)⟩
  | applySnapshot s hmem =>
    obtain ⟨ctx, hctx, hu, hreflected⟩ := nodeStep_applySnapshot hmem hs
    have hstore : u.replica.sm.kvStore = storeAt log s.lastLogIdx.toNat := by
      rw [hu]
      exact h.snapshots _ ctx hctx
    refine ⟨⟨?_, ?_, ?_⟩, ?_⟩
    · rw [hreflected, hstore]
    · rw [hu]
      exact h.snapshots
    · rw [hu]
      exact h.sync
    · -- the store is the snapshot's now, the index is not
      rw [TracksLog, hstore, hu]
      constructor
      · intro heq s' hs'
        cases hs'
        exact heq
      · exact fun hC => hC s rfl

/-! ## 3. Every run -/

/-- **The commit index is right exactly as long as no snapshot of another store is applied.**
In every run of commits, snapshots and restores, every state has the store that the log makes up
to `last_commit_index()` if and only if each snapshot that was applied stood for the same store
as the commit index at that moment. -/
theorem commitIndex_iff {log : ℕ → Entry} {es : List Event} {t : Node}
    (hrun : Run (nodeStep log) (Scheduled log) Node.init es t) :
    Throughout (nodeStep log) (Scheduled log) (fun n => TracksLog log n.replica) Node.init es ↔
      Run (nodeStep log) (fun n e => Scheduled log n e ∧ AppliesCurrent log n e) Node.init es
        t := by
  have hinv : ∀ n e u, Reflects log n → TracksLog log n.replica → Scheduled log n e →
      nodeStep log n e = some u → Reflects log u := fun n e u h ht he hs =>
    (reflects_step h ht he hs).1
  have hexact : ∀ n e u, Reflects log n → TracksLog log n.replica → Scheduled log n e →
      nodeStep log n e = some u → (TracksLog log u.replica ↔ AppliesCurrent log n e) :=
    fun n e u h ht he hs => (reflects_step h ht he hs).2
  exact throughout_iff hinv hexact hrun ⟨rfl, snapshotsAtIndex_init log false, rfl⟩
    (tracksLog_init log false)

end NuRaft

/-- A restore across a map-reduce: the index is behind, the store is the same. -/
theorem commitIndex_books : ∃ t,
    @Run _ _ (@nodeStep littleEndian booksLog)
      (fun n e => Scheduled booksLog n e ∧ AppliesCurrent booksLog n e) Node.init
      [.call ((booksLog 1).commitAt 1), .call ((booksLog 2).commitAt 2), .received ⟨3, 1⟩,
        .call (.applySnapshot ⟨3, 1⟩)] t ∧
    @Throughout _ _ (@nodeStep littleEndian booksLog) (Scheduled booksLog)
      (fun n => TracksLog booksLog n.replica) Node.init
      [.call ((booksLog 1).commitAt 1), .call ((booksLog 2).commitAt 2), .received ⟨3, 1⟩,
        .call (.applySnapshot ⟨3, 1⟩)] := by
  let := littleEndian
  have hcommit : ∀ (n : Node) (i : UInt64),
      AppliesCurrent booksLog n (.call ((booksLog i.toNat).commitAt i)) := fun n i s heq =>
    absurd (Event.call.inj heq) (Entry.commitAt_ne_applySnapshot _ i s)
  have hrestored : ∃ t, Run (nodeStep booksLog)
      (fun n e => Scheduled booksLog n e ∧ AppliesCurrent booksLog n e) Node.init
      [.call ((booksLog 1).commitAt 1), .call ((booksLog 2).commitAt 2), .received ⟨3, 1⟩,
        .call (.applySnapshot ⟨3, 1⟩)] t := by
    refine ⟨_, Run.cons ⟨.commits 1 (by decide), hcommit _ 1⟩ rfl
      (Run.cons ⟨.commits 2 (by decide), hcommit _ 2⟩ rfl
      (Run.cons ⟨.received ⟨3, 1⟩, fun _ heq => Event.noConfusion heq⟩ rfl
      (Run.cons ⟨.applySnapshot ⟨3, 1⟩ (by decide), ?_⟩ rfl (Run.refl _))))⟩
    rintro s ⟨⟩
    rfl
  obtain ⟨t, hrun⟩ := hrestored
  exact ⟨t, hrun, (commitIndex_iff (hrun.mono fun _ _ h => h.1)).mpr hrun⟩

/-- A node that has committed index 2 and goes back to its own snapshot of index 1 holds the
store of index 1 and says 2. -/
theorem commitIndex_ahead :
    ¬ ∀ (log : ℕ → Entry) (es : List Event) (t : Node),
      @Run _ _ (@nodeStep littleEndian log) (Scheduled log) Node.init es t →
      t.replica.sm.kvStore = storeAt log t.replica.sm.lastCommitIndex.toNat := by
  let := littleEndian
  intro h
  have hahead : ∃ t, Run (nodeStep booksLog) (Scheduled booksLog) Node.init
      [.call ((booksLog 1).commitAt 1), .call (.createSnapshot ⟨1, 1⟩),
        .call ((booksLog 2).commitAt 2), .call (.applySnapshot ⟨1, 1⟩)] t ∧
      t.replica.sm.kvStore ≠ storeAt booksLog t.replica.sm.lastCommitIndex.toNat :=
    ⟨_, Run.cons (.commits 1 (by decide)) rfl
      (Run.cons (.createSnapshot ⟨1, 1⟩ (by decide)) rfl
      (Run.cons (.commits 2 (by decide)) rfl
      (Run.cons (.applySnapshot ⟨1, 1⟩ (by decide)) rfl (Run.refl _)))), by decide⟩
  obtain ⟨t, hrun, hne⟩ := hahead
  exact hne (h booksLog _ t hrun)

end ReplicatedMapReduce
