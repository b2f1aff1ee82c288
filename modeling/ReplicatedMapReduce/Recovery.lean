/-
# Recovery: a snapshot and the rest of the log

A node that restarts, or falls behind, takes a snapshot and commits the entries after it again.
With synchronous snapshots this is the same as never having stopped.

* While the node runs, four facts hold together (`Recorded`): its store is what the log makes of
  the empty one, so is the store of every snapshot at the snapshot's own index, no snapshot is
  ahead of the last commit, and every map-reduce answered so far was answered on the store of the
  index before it.  `create_snapshot_internal` copies the store at the moment it runs, and in
  synchronous mode that is the moment of the request, when the last committed index is the
  snapshot's.  Overwriting an entry and evicting one only ever removes facts.
* Committing the entries `i + 1, ..., n` from ANY state whose store is the one of index `i`
  leads to the store of index `n` and to the same answers (`run_recommits`), because an entry
  reads nothing of the state but the store.

`recovery` puts the two together.  The node that recovers need not be the one that ran: all
that is asked of it is that it has the snapshot.
-/
import ReplicatedMapReduce.Replica

namespace ReplicatedMapReduce

open Runs

/-! ## 1. What a node that follows the log knows -/

/-- The map the entry at index `j` computes, on the store of the index before. -/
def resultsAt (log : ℕ → Entry) (j : ℕ) : Option Results :=
  (log j).results (storeAt log (j - 1))

/-- Every map-reduce between `i` (excluded) and `n` has been answered as the log defines it. -/
def Answered (log : ℕ → Entry) (i n : ℕ) (sm : StateMachine) : Prop :=
  ∀ (j : UInt64) (m : Results), i < j.toNat → j.toNat ≤ n → resultsAt log j.toNat = some m →
    sm.mapReduceResults[j]? = some m

/-- **The invariant of a node with synchronous snapshots.** -/
structure Recorded (log : ℕ → Entry) (r : Replica) : Prop where
  tracks : TracksLog log r
  snapshots : SnapshotsAtIndex log r.sm
  notAhead : ∀ i : UInt64, i ∈ r.sm.snapshots → i.toNat ≤ r.sm.lastCommittedIdx.toNat
  sound : ∀ j, 1 ≤ j → j ≤ r.sm.lastCommittedIdx.toNat → (log j).Sound
  answered : Answered log 0 r.sm.lastCommittedIdx.toNat r.sm
  sync : r.sm.asyncSnapshot = false

theorem recorded_init (log : ℕ → Entry) : Recorded log (Replica.init false) where
  tracks := tracksLog_init log false
  snapshots := snapshotsAtIndex_init log false
  notAhead := by
    intro i hi
    exact absurd hi (by simp [Replica.init, StateMachine.init])
  sound := by
    intro j h1 hj
    have hzero : (Replica.init false).sm.lastCommittedIdx.toNat = 0 := rfl
    omega
  answered := by
    intro j m h1 hj
    have hzero : (Replica.init false).sm.lastCommittedIdx.toNat = 0 := rfl
    omega
  sync := rfl

/-- Committing the entry at `n + 1` on the store of index `n` answers it, and disturbs no other
answer. -/
theorem Answered.commitAt {log : ℕ → Entry} {i n : ℕ} {sm sm' : StateMachine} {k : UInt64}
    (h : Answered log i n sm) (hstore : sm.kvStore = storeAt log n) (hk : k.toNat = n + 1)
    (hc : Committed sm k (log k.toNat) sm') : Answered log i (n + 1) sm' := by
  intro j m hi hj hm
  rw [hc.results]
  split
  · rename_i hkj
    have hm' : (log k.toNat).results sm.kvStore = some m := by
      rw [hstore, hkj, ← hm, resultsAt]
      exact congrArg (fun n => (log j.toNat).results (storeAt log n)) (by rw [← hkj]; omega)
    rw [hm', Option.some_or]
  · rename_i hkj
    have hne : j.toNat ≠ n + 1 := fun hj' => hkj (UInt64.toNat_inj.mp (hk.trans hj'.symm))
    exact h j m hi (by omega) hm

section NuRaft

variable [NuRaft]

theorem Recorded.commitsNext {log : ℕ → Entry} {r u : Replica} {a : Action}
    (h : Recorded log r) (ha : CommitsNext log r a) (hs : step r a = some u) :
    Recorded log u := by
  have htracks : TracksLog log u := h.tracks.commitsNext ha hs
  obtain ⟨i, hi, rfl⟩ := ha
  obtain ⟨hc, -⟩ := step_commitAt hs
  have hlast : u.sm.lastCommittedIdx.toNat = r.sm.lastCommittedIdx.toNat + 1 := by
    rw [hc.lastCommittedIdx, hi]
  refine ⟨htracks, ?_, ?_, ?_, ?_, ?_⟩
  · rw [SnapshotsAtIndex, hc.snapshots]
    exact h.snapshots
  · rw [hc.snapshots]
    intro j hj
    have hle := h.notAhead j hj
    omega
  · intro j h1 hj
    rcases Nat.lt_or_ge r.sm.lastCommittedIdx.toNat j with hlt | hle
    · have hsound : (log i.toNat).Sound := (step_commitAt_isSome_iff r i _).mp ⟨u, hs⟩
      rwa [show j = i.toNat by omega]
    · exact h.sound j h1 hle
  · rw [hlast]
    exact h.answered.commitAt h.tracks hi hc
  · rw [hc.asyncSnapshot]
    exact h.sync

theorem Recorded.requestsSnapshot {log : ℕ → Entry} {r u : Replica} {a : Action}
    (h : Recorded log r) (ha : RequestsSnapshot r a) (hs : step r a = some u) :
    Recorded log u := by
  obtain ⟨s, hlast, rfl⟩ := ha
  rw [step_createSnapshot_sync h.sync hs]
  refine ⟨h.tracks, ?_, ?_, h.sound, h.answered, h.sync⟩
  · -- the store is copied now, and now is the index of the snapshot
    exact h.snapshots.createSnapshotInternal (by rw [hlast]; exact h.tracks)
  · intro i hi
    rw [Std.ExtTreeMap.mem_iff_isSome_getElem?,
      StateMachine.getElem?_createSnapshotInternal] at hi
    split at hi
    · exact absurd hi (by simp)
    · rw [← Std.ExtTreeMap.mem_iff_isSome_getElem?, Std.ExtTreeMap.mem_insert,
        Std.LawfulEqCmp.compare_eq_iff_eq] at hi
      rcases hi with rfl | hi
      · rw [hlast]
        exact le_rfl
      · exact h.notAhead i hi

/-- A node takes the log entry by entry, and a snapshot now and then. -/
def FollowsLog (log : ℕ → Entry) (r : Replica) (a : Action) : Prop :=
  CommitsNext log r a ∨ RequestsSnapshot r a

theorem recorded_of_run {log : ℕ → Entry} {as : List Action} {r : Replica}
    (hrun : Run step (FollowsLog log) (Replica.init false) as r) : Recorded log r := by
  refine hrun.invariant ?_ (recorded_init log)
  rintro s a u hr (ha | ha) hs
  · exact hr.commitsNext ha hs
  · exact hr.requestsSnapshot ha hs

/-! ## 2. Committing the rest of the log again -/

/-- The commits of the entries after index `i`, up to index `n`. -/
def recommits (log : ℕ → Entry) (i n : ℕ) : List Action :=
  (List.range' (i + 1) (n - i)).map fun j => (log j).commitAt (UInt64.ofNat j)

/-- **From the store of index `i`, the entries up to `n` lead to the store of index `n` and to
the answers in between.** -/
theorem run_recommits {log : ℕ → Entry} {i k : ℕ} (hk : i + k < 2 ^ 64)
    (hsound : ∀ j, i < j → j ≤ i + k → (log j).Sound) {q : Replica}
    (hq : q.sm.kvStore = storeAt log i) :
    ∃ q', Run step (fun _ _ => True) q (recommits log i (i + k)) q' ∧
      q'.sm.kvStore = storeAt log (i + k) ∧ Answered log i (i + k) q'.sm := by
  induction k with
  | zero =>
    refine ⟨q, ?_, hq, fun j m h1 h2 => ?_⟩
    · rw [recommits, show i + 0 - i = 0 by omega]
      exact Run.refl q
    · omega
  | succ k ih =>
    obtain ⟨q1, hrun, hstore, hans⟩ := ih (by omega) fun j h1 h2 => hsound j h1 (by omega)
    have hidx : (UInt64.ofNat (i + k + 1)).toNat = i + k + 1 :=
      UInt64.toNat_ofNat_of_lt' (by omega)
    obtain ⟨q', hstep⟩ := (step_commitAt_isSome_iff q1 (UInt64.ofNat (i + k + 1))
      (log (i + k + 1))).mpr (hsound _ (by omega) (by omega))
    obtain ⟨hc, -⟩ := step_commitAt hstep
    refine ⟨q', ?_, ?_, ?_⟩
    · have hacts : recommits log i (i + (k + 1)) = recommits log i (i + k) ++
          [(log (i + k + 1)).commitAt (UInt64.ofNat (i + k + 1))] := by
        simp only [recommits, Nat.add_sub_cancel_left, List.range'_1_concat, List.map_append,
          List.map_cons, List.map_nil]
        rw [show i + 1 + k = i + k + 1 by omega]
      rw [hacts]
      exact hrun.append (Run.cons trivial hstep (Run.refl q'))
    · rw [hc.kvStore, hstore]
      rfl
    · exact hans.commitAt hstore hidx (by rw [hidx]; exact hc)

/-! ## 3. Recovery -/

/-- **A snapshot and the rest of the log are worth the whole log.**  Let a node follow the log
with synchronous snapshots, and let `s` be one of the snapshots it retains at the end.  Any node
that has this snapshot, the same one included, gets by applying it and committing the entries
after it exactly the store of the first node, and the same results for every map-reduce after
the snapshot. -/
theorem recovery {log : ℕ → Entry} {as : List Action} {r q : Replica}
    (hrun : Run step (FollowsLog log) (Replica.init false) as r) {s : Snapshot}
    {ctx : SnapshotCtx} (hr : r.sm.snapshots[s.lastLogIdx]? = some ctx)
    (hq : q.sm.snapshots[s.lastLogIdx]? = some ctx) :
    (q.sm.applySnapshot s).1 = true ∧
    ∃ q', Run step (fun _ _ => True) q
        (.applySnapshot s :: recommits log s.lastLogIdx.toNat r.sm.lastCommittedIdx.toNat) q' ∧
      q'.sm.kvStore = r.sm.kvStore ∧
      ∀ (j : UInt64) (p : OpPayload), s.lastLogIdx < j → j ≤ r.sm.lastCommittedIdx →
        log j.toNat = .payload p → p.type = .mapReduce →
        q'.sm.getMapReduceResults j = r.sm.getMapReduceResults j := by
  have h : Recorded log r := recorded_of_run hrun
  have hle : s.lastLogIdx.toNat ≤ r.sm.lastCommittedIdx.toNat :=
    h.notAhead _ (Std.ExtTreeMap.mem_iff_isSome_getElem?.mpr (by rw [hr]; rfl))
  obtain ⟨k, hk⟩ := Nat.exists_eq_add_of_le hle
  have happly := StateMachine.applySnapshot_of_entry hq
  have hstep : step q (.applySnapshot s)
      = some { q with sm := { q.sm with kvStore := ctx.kvStore } } := by
    rw [step, happly]
  have hsnap : ctx.kvStore = storeAt log s.lastLogIdx.toNat := h.snapshots _ ctx hr
  have hlt : s.lastLogIdx.toNat + k < 2 ^ 64 := hk ▸ r.sm.lastCommittedIdx.toNat_lt
  obtain ⟨q', hrun', hstore, hans⟩ :=
    run_recommits (q := { q with sm := { q.sm with kvStore := ctx.kvStore } }) hlt
      (fun j h1 h2 => h.sound j (by omega) (by omega)) hsnap
  refine ⟨by rw [happly], q', ?_, ?_, ?_⟩
  · rw [hk]
    exact Run.cons trivial hstep hrun'
  · rw [hstore, ← hk]
    exact h.tracks.symm
  · intro j p hsj hj hp htype
    have hsj' : s.lastLogIdx.toNat < j.toNat := UInt64.lt_iff_toNat_lt.mp hsj
    have hj' : j.toNat ≤ r.sm.lastCommittedIdx.toNat := UInt64.le_iff_toNat_le.mp hj
    have hsound : p.Sound := by
      have := h.sound j.toNat (by omega) hj'
      rwa [hp] at this
    obtain ⟨m, -, hm⟩ := Entry.results_payload htype hsound (storeAt log (j.toNat - 1))
    have hres : resultsAt log j.toNat = some m := by rw [resultsAt, hp, hm]
    rw [StateMachine.getMapReduceResults, StateMachine.getMapReduceResults,
      hans j m hsj' (by omega) hres, h.answered j m (by omega) hj' hres]

end NuRaft

theorem recovery_books : ∃ r q', @Run _ _ (@step littleEndian) (@FollowsLog booksLog)
    (Replica.init false) [(booksLog 1).commitAt 1, .createSnapshot ⟨1, 1⟩,
      (booksLog 2).commitAt 2, (booksLog 3).commitAt 3] r ∧
    @Run _ _ (@step littleEndian) (fun _ _ => True) r
      (.applySnapshot ⟨1, 1⟩ :: recommits booksLog 1 3) q' ∧
    q'.sm.kvStore = r.sm.kvStore ∧
    q'.sm.getMapReduceResults 3 = r.sm.getMapReduceResults 3 := by
  let := littleEndian
  have hfollows : ∃ r, Run step (FollowsLog booksLog) (Replica.init false)
      [(booksLog 1).commitAt 1, .createSnapshot ⟨1, 1⟩, (booksLog 2).commitAt 2,
        (booksLog 3).commitAt 3] r ∧
      (r.sm.snapshots[(1 : UInt64)]?).isSome = true ∧ r.sm.lastCommittedIdx = 3 :=
    ⟨_, Run.cons (Or.inl ⟨1, by decide, rfl⟩) rfl
      (Run.cons (Or.inr ⟨⟨1, 1⟩, by decide, rfl⟩) rfl
      (Run.cons (Or.inl ⟨2, by decide, rfl⟩) rfl
      (Run.cons (Or.inl ⟨3, by decide, rfl⟩) rfl (Run.refl _)))), by decide, by decide⟩
  obtain ⟨r, hrun, hsome, hlast⟩ := hfollows
  obtain ⟨ctx, hctx⟩ := Option.isSome_iff_exists.mp hsome
  obtain ⟨-, q', hrun', hstore, hresults⟩ := recovery (s := ⟨1, 1⟩) hrun hctx hctx
  rw [hlast] at hrun' hresults
  exact ⟨r, q', hrun, hrun', hstore, hresults 3 _ (by decide) (by decide) rfl rfl⟩

end ReplicatedMapReduce
