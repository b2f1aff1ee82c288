/-
# Snapshots taken in a thread of their own

With `async_snapshot_` set, `create_snapshot(s)` only starts a thread.  The copy of the store is
made when `create_snapshot_internal` runs there, and goes under the index of `s`, however many
entries have been committed in the meantime.  The synchronous path next to it copies the store
before it returns.

So an entry is at its index exactly if its job ran in time (`RunsInTime`): before any commit
that made a difference to the store, or so late that three greater indices are retained already
and the entry is evicted on the spot.  `asyncSnapshots_iff` says so for every interleaving of
commits, requests and jobs, and `asyncSnapshots_late` is the shortest one that goes wrong.
-/
import ReplicatedMapReduce.Replica

namespace ReplicatedMapReduce

open Runs TreeMaps

/-! ## 1. The condition -/

/-- If the action runs a job, no entry committed since the job's index made a difference to the
store, or the job's entry will not stay. -/
def RunsInTime (log : ℕ → Entry) (r : Replica) (a : Action) : Prop :=
  ∀ (k : ℕ) (ss : Snapshot), a = .runJob k → r.jobs[k]? = some ss →
    StateMachine.maxSnapshots ≤ (keysAbove r.sm.snapshots ss.lastLogIdx).length ∨
      storeAt log r.sm.lastCommittedIdx.toNat = storeAt log ss.lastLogIdx.toNat

/-- The entry a job writes, if it stays. -/
theorem getElem?_createSnapshotInternal_self (sm : StateMachine) (ss : Snapshot) :
    (sm.createSnapshotInternal ss).snapshots[ss.lastLogIdx]? =
      if StateMachine.maxSnapshots ≤ (keysAbove sm.snapshots ss.lastLogIdx).length then none
      else some ⟨ss, sm.kvStore⟩ := by
  rw [StateMachine.getElem?_createSnapshotInternal, length_keysAbove_insert_self,
    Std.ExtTreeMap.getElem?_insert_self]

/-- Every other entry is one that was there. -/
theorem getElem?_createSnapshotInternal_of_ne {sm : StateMachine} {ss : Snapshot} {i : UInt64}
    {ctx : SnapshotCtx} (hi : ss.lastLogIdx ≠ i)
    (h : (sm.createSnapshotInternal ss).snapshots[i]? = some ctx) :
    sm.snapshots[i]? = some ctx := by
  rw [StateMachine.getElem?_createSnapshotInternal] at h
  split at h
  · exact absurd h (by simp)
  · rwa [Std.ExtTreeMap.getElem?_insert,
      if_neg fun he => hi (Std.LawfulEqCmp.compare_eq_iff_eq.mp he)] at h

/-- **One job keeps the entries at their indices exactly when it runs in time.** -/
theorem snapshotsAtIndex_createSnapshotInternal_iff {log : ℕ → Entry} {sm : StateMachine}
    {ss : Snapshot} {n : ℕ} (h : SnapshotsAtIndex log sm) (hstore : sm.kvStore = storeAt log n) :
    SnapshotsAtIndex log (sm.createSnapshotInternal ss) ↔
      StateMachine.maxSnapshots ≤ (keysAbove sm.snapshots ss.lastLogIdx).length ∨
        storeAt log n = storeAt log ss.lastLogIdx.toNat := by
  constructor
  · intro hu
    rcases Nat.lt_or_ge (keysAbove sm.snapshots ss.lastLogIdx).length
      StateMachine.maxSnapshots with hlt | hle
    · have hself := getElem?_createSnapshotInternal_self sm ss
      rw [if_neg (Nat.not_le.mpr hlt)] at hself
      have hctx : sm.kvStore = storeAt log ss.lastLogIdx.toNat := hu _ _ hself
      exact Or.inr (hstore ▸ hctx)
    · exact Or.inl hle
  · rintro (hle | heq)
    · -- the new entry is evicted at once
      intro i ctx hctx
      rcases eq_or_ne ss.lastLogIdx i with rfl | hi
      · rw [getElem?_createSnapshotInternal_self, if_pos hle] at hctx
        exact absurd hctx (by simp)
      · exact h i ctx (getElem?_createSnapshotInternal_of_ne hi hctx)
    · exact h.createSnapshotInternal (hstore.trans heq)

/-! ## 2. Every interleaving -/

section NuRaft

variable [NuRaft]

/-- Commits at consecutive indices, requests for the index committed last, and jobs whenever
their thread gets to run. -/
def Interleaving (log : ℕ → Entry) (r : Replica) (a : Action) : Prop :=
  CommitsNext log r a ∨ RequestsSnapshot r a ∨ ∃ k, a = .runJob k

/-- What the interleavings keep, whether or not the jobs run in time. -/
structure Asynchronous (log : ℕ → Entry) (r : Replica) : Prop where
  tracks : TracksLog log r
  async : r.sm.asyncSnapshot = true

theorem Asynchronous.step {log : ℕ → Entry} {r u : Replica} {a : Action}
    (h : Asynchronous log r) (ha : Interleaving log r a)
    (hs : ReplicatedMapReduce.step r a = some u) : Asynchronous log u := by
  rcases ha with hcommit | ⟨s, -, rfl⟩ | ⟨k, rfl⟩
  · refine ⟨h.tracks.commitsNext hcommit hs, ?_⟩
    obtain ⟨i, -, rfl⟩ := hcommit
    rw [(step_commitAt hs).1.asyncSnapshot]
    exact h.async
  · rw [step_createSnapshot_async h.async hs]
    exact ⟨h.tracks, h.async⟩
  · obtain ⟨ss, -, hu⟩ := step_runJob hs
    refine ⟨?_, ?_⟩
    · rw [TracksLog, hu]
      exact h.tracks
    · rw [hu]
      exact h.async

/-- **Step lemma.**  Of the steps of an interleaving only a job can put an entry where it does
not belong, and it does exactly when it does not run in time. -/
theorem snapshotsAtIndex_step_iff {log : ℕ → Entry} {r u : Replica} {a : Action}
    (h : Asynchronous log r) (hat : SnapshotsAtIndex log r.sm) (ha : Interleaving log r a)
    (hs : step r a = some u) : SnapshotsAtIndex log u.sm ↔ RunsInTime log r a := by
  rcases ha with ⟨i, -, rfl⟩ | ⟨s, -, rfl⟩ | ⟨k, rfl⟩
  · have hu : SnapshotsAtIndex log u.sm := by
      rw [SnapshotsAtIndex, (step_commitAt hs).1.snapshots]
      exact hat
    refine iff_of_true hu ?_
    intro k ss heq
    exact absurd heq ((log i.toNat).commitAt_ne_runJob i k)
  · rw [step_createSnapshot_async h.async hs]
    exact iff_of_true hat fun k ss heq => absurd heq (by simp)
  · obtain ⟨ss, hss, hu⟩ := step_runJob hs
    rw [hu, snapshotsAtIndex_createSnapshotInternal_iff hat h.tracks]
    constructor
    · intro hC k' ss' heq hss'
      cases heq
      rw [hss, Option.some.injEq] at hss'
      exact hss' ▸ hC
    · exact fun hC => hC k ss rfl hss

/-- **Asynchronous snapshots are at their index exactly as long as their jobs run in time.**
In every interleaving of commits, requests and jobs, every state has all entries of `snapshots_`
at their indices if and only if every job of the interleaving ran in time. -/
theorem asyncSnapshots_iff {log : ℕ → Entry} {as : List Action} {t : Replica}
    (hrun : Run step (Interleaving log) (Replica.init true) as t) :
    Throughout step (Interleaving log) (fun r => SnapshotsAtIndex log r.sm) (Replica.init true) as
      ↔ Run step (fun r a => Interleaving log r a ∧ RunsInTime log r a) (Replica.init true) as
          t := by
  have hinv : ∀ r a u, Asynchronous log r → SnapshotsAtIndex log r.sm → Interleaving log r a →
      step r a = some u → Asynchronous log u := fun r a u h _ ha hs => h.step ha hs
  have hexact : ∀ r a u, Asynchronous log r → SnapshotsAtIndex log r.sm → Interleaving log r a →
      step r a = some u → (SnapshotsAtIndex log u.sm ↔ RunsInTime log r a) :=
    fun r a u h hat ha hs => snapshotsAtIndex_step_iff h hat ha hs
  exact throughout_iff hinv hexact hrun ⟨tracksLog_init log true, rfl⟩
    (snapshotsAtIndex_init log true)

end NuRaft

/-- A job that runs before the next commit, and every state has its snapshots at their indices. -/
theorem asyncSnapshots_intime : ∃ t,
    @Run _ _ (@step littleEndian)
      (fun r a => Interleaving booksLog r a ∧ RunsInTime booksLog r a) (Replica.init true)
      [(booksLog 1).commitAt 1, .createSnapshot ⟨1, 1⟩, .runJob 0, (booksLog 2).commitAt 2] t ∧
    @Throughout _ _ (@step littleEndian) (@Interleaving booksLog)
      (fun r => SnapshotsAtIndex booksLog r.sm) (Replica.init true)
      [(booksLog 1).commitAt 1, .createSnapshot ⟨1, 1⟩, .runJob 0, (booksLog 2).commitAt 2] ∧
    (t.sm.snapshots[(1 : UInt64)]?).isSome = true := by
  let := littleEndian
  have hnoJob : ∀ (r : Replica) (a : Action), (∀ k, a ≠ .runJob k) → RunsInTime booksLog r a :=
    fun r a ha k ss heq => absurd heq (ha k)
  have hintime : ∃ t, Run step (fun r a => Interleaving booksLog r a ∧ RunsInTime booksLog r a)
      (Replica.init true)
      [(booksLog 1).commitAt 1, .createSnapshot ⟨1, 1⟩, .runJob 0, (booksLog 2).commitAt 2] t ∧
      (t.sm.snapshots[(1 : UInt64)]?).isSome = true := by
    refine ⟨_, Run.cons ⟨Or.inl ⟨1, by decide, rfl⟩, hnoJob _ _ fun _ => Action.noConfusion⟩ rfl
      (Run.cons ⟨Or.inr (Or.inl ⟨⟨1, 1⟩, by decide, rfl⟩), hnoJob _ _ fun _ => Action.noConfusion⟩
        rfl
      (Run.cons ⟨Or.inr (Or.inr ⟨0, rfl⟩), ?_⟩ rfl
      (Run.cons ⟨Or.inl ⟨2, by decide, rfl⟩, hnoJob _ _ fun _ => Action.noConfusion⟩ rfl
      (Run.refl _)))), by decide⟩
    rintro k ss ⟨⟩ ⟨⟩
    exact Or.inr rfl
  obtain ⟨t, hrun, hsome⟩ := hintime
  exact ⟨t, hrun, (asyncSnapshots_iff (hrun.mono fun _ _ h => h.1)).mpr hrun, hsome⟩

/-- One commit between the request and the job, and the snapshot of index 1 holds the store of
index 2. -/
theorem asyncSnapshots_late :
    ¬ ∀ (log : ℕ → Entry) (as : List Action) (t : Replica),
      @Run _ _ (@step littleEndian) (@Interleaving log) (Replica.init true) as t →
      SnapshotsAtIndex log t.sm := by
  let := littleEndian
  intro h
  have hlate : ∃ t, Run step (Interleaving booksLog) (Replica.init true)
      [(booksLog 1).commitAt 1, .createSnapshot ⟨1, 1⟩, (booksLog 2).commitAt 2, .runJob 0]
        t ∧
      ∃ ctx, t.sm.snapshots[(1 : UInt64)]? = some ctx ∧ ctx.kvStore ≠ storeAt booksLog 1 :=
    ⟨_, Run.cons (Or.inl ⟨1, by decide, rfl⟩) rfl
      (Run.cons (Or.inr (Or.inl ⟨⟨1, 1⟩, by decide, rfl⟩)) rfl
      (Run.cons (Or.inl ⟨2, by decide, rfl⟩) rfl
      (Run.cons (Or.inr (Or.inr ⟨0, rfl⟩)) rfl (Run.refl _)))), _, rfl, by decide⟩
  obtain ⟨t, hrun, ctx, hctx, hne⟩ := hlate
  exact hne (h booksLog _ t hrun 1 ctx hctx)

end ReplicatedMapReduce
