/-
# One replica, step by step

NuRaft drives a state machine by calling it, and the state machine drives itself a little: with
`async_snapshot_` set, `create_snapshot` starts a detached thread for each request, and
`create_snapshot_internal` runs whenever that thread gets to it.  A `Replica` is the state machine
together with the jobs that were started and have not run; an `Action` is one call of NuRaft's or
one job running, and an interleaving is a list of actions.  That is coarser than the source: there
is one commit thread, and what a job does to `snapshots_` is under `snapshots_lock_`, but `commit`
changes `kv_store_` without that lock.  A commit in the middle of a job, while it copies the store,
is not part of the model.

The first half is what the entries of the log mean: `Entry.apply` is the effect of one entry on
a store, `Entry.results` is the map it computes, and `storeAt log i` is the store that the
entries up to index `i` make of the empty one.  This is the meaning the replicas are supposed to
agree on; it knows nothing of snapshots, commit indices or threads.  `commit_spec` connects it
to `commit`, and `TracksLog` says of a replica that it is where the log says.
-/
import ReplicatedMapReduce.StateMachine
import ReplicatedMapReduce.Foundation.Runs

namespace ReplicatedMapReduce

open Runs

/-! ## 1. What a log means -/

/-- An entry of the log: a payload for `commit`, or a configuration for `commit_config`. -/
inductive Entry
  | payload (p : OpPayload)
  | config
  deriving DecidableEq

/-- The effect of a payload on the store. -/
def OpPayload.apply (p : OpPayload) (s : KeyValueStore) : KeyValueStore :=
  match p.type with
  | .insertValue => s.insert p.key p.value
  | .deleteValue => (s.removeValue p.key p.value).2
  | .deleteKey => (s.removeKey p.key).2
  | .mapReduce => s
  | .unknown _ => s

/-- What a map-reduce of the payload's operations over its keys answers on a store. -/
def OpPayload.mapReduce (p : OpPayload) (s : KeyValueStore) : Except StdException Results :=
  (MapReduce.new s).performMapReduce p.mapOp p.reduceOp p.keys

/-- The payload can be committed: if it is a map-reduce, its operations exist. -/
def OpPayload.Sound (p : OpPayload) : Prop :=
  p.type = .mapReduce → MapReduce.Existing p.mapOp p.reduceOp

instance (p : OpPayload) : Decidable p.Sound := inferInstanceAs (Decidable (_ → _))

def Entry.apply : Entry → KeyValueStore → KeyValueStore
  | .payload p, s => p.apply s
  | .config, s => s

/-- The map an entry computes, if it is a map-reduce and returns. -/
def Entry.results : Entry → KeyValueStore → Option Results
  | .payload p, s => if p.type = .mapReduce then (p.mapReduce s).toOption else none
  | .config, _ => none

def Entry.Sound : Entry → Prop
  | .payload p => p.Sound
  | .config => True

/-- The store that the entries with index at most `i` make of the empty store, in order.  The
first entry has index 1. -/
def storeAt (log : ℕ → Entry) : ℕ → KeyValueStore
  | 0 => ∅
  | i + 1 => (log (i + 1)).apply (storeAt log i)

/-- The log of the runs on concrete inputs: two insertions, a map-reduce, configurations. -/
def booksLog : ℕ → Entry
  | 1 => .payload { type := .insertValue, key := str "books", value := 3 }
  | 2 => .payload { type := .insertValue, key := str "books", value := 4 }
  | 3 => .payload { type := .mapReduce, key := str "NULL", value := 0, mapOp := str "square",
                    reduceOp := str "sum", keys := [str "books"] }
  | _ => .config

/-- A map-reduce whose operations exist computes something on every store. -/
theorem Entry.results_payload {p : OpPayload} (htype : p.type = .mapReduce) (hp : p.Sound)
    (s : KeyValueStore) :
    ∃ results, p.mapReduce s = .ok results ∧ (Entry.payload p).results s = some results := by
  obtain ⟨results, h⟩ :=
    (MapReduce.performMapReduce_returns_iff s p.mapOp p.reduceOp p.keys).mpr (hp htype)
  have h' : p.mapReduce s = .ok results := h
  refine ⟨results, h', ?_⟩
  rw [Entry.results, if_pos htype, h']
  rfl

/-! ## 2. The replica -/

/-- A state machine, and the snapshots whose job has not run yet. -/
structure Replica where
  sm : StateMachine
  jobs : List Snapshot
  deriving DecidableEq

def Replica.init (asyncSnapshot : Bool) : Replica := ⟨StateMachine.init asyncSnapshot, []⟩

inductive Action
  | commit (logIdx : UInt64) (payload : OpPayload)
  | commitConfig (logIdx : UInt64)
  | createSnapshot (s : Snapshot)
  /-- The `k`-th of the jobs still outstanding runs `create_snapshot_internal`. -/
  | runJob (k : ℕ)
  | saveLogicalSnpObj (s : Snapshot) (objId : UInt64) (data : Str)
  | applySnapshot (s : Snapshot)
  deriving DecidableEq

/-- The action that commits an entry. -/
def Entry.commitAt (i : UInt64) : Entry → Action
  | .payload p => .commit i p
  | .config => .commitConfig i

theorem Entry.commitAt_ne_runJob (e : Entry) (i : UInt64) (k : ℕ) :
    e.commitAt i ≠ .runJob k := by
  cases e <;> exact Action.noConfusion

theorem Entry.commitAt_ne_applySnapshot (e : Entry) (i : UInt64) (s : Snapshot) :
    e.commitAt i ≠ .applySnapshot s := by
  cases e <;> exact Action.noConfusion

/-- The store of a replica is what the log makes of the empty one, up to the last committed
index. -/
def TracksLog (log : ℕ → Entry) (r : Replica) : Prop :=
  r.sm.kvStore = storeAt log r.sm.lastCommittedIdx.toNat

/-- Every retained snapshot holds the store as of its own index. -/
def SnapshotsAtIndex (log : ℕ → Entry) (sm : StateMachine) : Prop :=
  ∀ (i : UInt64) (ctx : SnapshotCtx), sm.snapshots[i]? = some ctx →
    ctx.kvStore = storeAt log i.toNat

theorem tracksLog_init (log : ℕ → Entry) (asyncSnapshot : Bool) :
    TracksLog log (Replica.init asyncSnapshot) := rfl

theorem snapshotsAtIndex_init (log : ℕ → Entry) (asyncSnapshot : Bool) :
    SnapshotsAtIndex log (StateMachine.init asyncSnapshot) := by
  intro i ctx h
  exact absurd h (by simp [StateMachine.init])

/-- One more entry at its index. -/
theorem SnapshotsAtIndex.insert {log : ℕ → Entry} {sm : StateMachine}
    (h : SnapshotsAtIndex log sm) {k : UInt64} {new : SnapshotCtx}
    (hnew : new.kvStore = storeAt log k.toNat) (i : UInt64) (ctx : SnapshotCtx)
    (hctx : (sm.snapshots.insert k new)[i]? = some ctx) : ctx.kvStore = storeAt log i.toNat := by
  rw [Std.ExtTreeMap.getElem?_insert] at hctx
  split at hctx
  · rename_i hi
    rw [Std.LawfulEqCmp.compare_eq_iff_eq] at hi
    cases hctx
    rw [← hi]
    exact hnew
  · exact h i ctx hctx

/-- **Creating a snapshot keeps every entry at its index**, if the store is the one of the index
the new entry goes to. -/
theorem SnapshotsAtIndex.createSnapshotInternal {log : ℕ → Entry} {sm : StateMachine}
    (h : SnapshotsAtIndex log sm) {ss : Snapshot}
    (hstore : sm.kvStore = storeAt log ss.lastLogIdx.toNat) :
    SnapshotsAtIndex log (sm.createSnapshotInternal ss) := by
  intro i ctx hctx
  rw [StateMachine.getElem?_createSnapshotInternal] at hctx
  split at hctx
  · exact absurd hctx (by simp)
  · exact h.insert hstore i ctx hctx

/-! ## 3. What `commit` does -/

/-- Everything committing an entry does to the state machine. -/
structure Committed (sm : StateMachine) (i : UInt64) (e : Entry) (sm' : StateMachine) :
    Prop where
  kvStore : sm'.kvStore = e.apply sm.kvStore
  lastCommittedIdx : sm'.lastCommittedIdx = i
  snapshots : sm'.snapshots = sm.snapshots
  asyncSnapshot : sm'.asyncSnapshot = sm.asyncSnapshot
  results : ∀ j : UInt64, sm'.mapReduceResults[j]? =
    if i = j then (e.results sm.kvStore).or sm.mapReduceResults[j]? else sm.mapReduceResults[j]?

theorem commitConfig_spec (sm : StateMachine) (i : UInt64) :
    Committed sm i .config (sm.commitConfig i) := by
  refine ⟨rfl, rfl, rfl, rfl, fun j => ?_⟩
  simp [StateMachine.commitConfig, Entry.results]

section NuRaft

variable [NuRaft]

/-- **What a `commit` that returns did, and its reply.** -/
theorem commit_spec {sm sm' : StateMachine} {i : UInt64} {p : OpPayload} {ret : Str}
    (h : sm.commit i p = .ok (sm', ret)) :
    Committed sm i (.payload p) sm' ∧
      ret = StateMachine.reply i (decide (p.type = .mapReduce)) := by
  unfold StateMachine.commit at h
  split at h <;> rename_i htype
  case h_4 =>
    dsimp only at h
    split at h
    · rename_i results hresults
      have hmr : p.mapReduce sm.kvStore = .ok results := hresults
      cases h
      refine ⟨⟨?_, rfl, rfl, rfl, fun j => ?_⟩, by simp [htype]⟩
      · simp [Entry.apply, OpPayload.apply, htype, StateMachine.addMapReduceResult]
      · simp [StateMachine.addMapReduceResult, Entry.results, htype, hmr, Except.toOption,
          Std.ExtTreeMap.getElem?_insert]
    · exact absurd h (by simp)
  all_goals
    cases h
    refine ⟨⟨?_, rfl, rfl, rfl, fun j => ?_⟩, by simp [htype]⟩
    · simp [Entry.apply, OpPayload.apply, htype]
    · simp [Entry.results, htype]

/-- **`commit` returns exactly when it is not asked for an operation that does not exist**,
whatever the state. -/
theorem commit_returns_iff (sm : StateMachine) (i : UInt64) (p : OpPayload) :
    (∃ sm' ret, sm.commit i p = .ok (sm', ret)) ↔ p.Sound := by
  rw [OpPayload.Sound,
    ← MapReduce.performMapReduce_returns_iff sm.kvStore p.mapOp p.reduceOp p.keys]
  unfold StateMachine.commit
  split <;> rename_i htype
  case h_4 =>
    dsimp only
    cases hm : (MapReduce.new sm.kvStore).performMapReduce p.mapOp p.reduceOp p.keys <;>
      simp [htype]
  all_goals simp [htype]

/-! ## 4. The steps of a replica -/

/-- One action.  `none`: the call does not return, or there is no such job. -/
def step (r : Replica) : Action → Option Replica
  | .commit logIdx payload =>
    match r.sm.commit logIdx payload with
    | .ok (sm, _) => some { r with sm }
    | .error _ => none
  | .commitConfig logIdx => some { r with sm := r.sm.commitConfig logIdx }
  | .createSnapshot s =>
    let (sm, started) := r.sm.createSnapshot s
    some { sm, jobs := r.jobs ++ started }
  | .runJob k =>
    match r.jobs[k]? with
    | none => none
    | some ss => some { sm := r.sm.createSnapshotInternal ss, jobs := r.jobs.eraseIdx k }
  | .saveLogicalSnpObj s objId data =>
    match r.sm.saveLogicalSnpObj s objId data with
    | .ok sm => some { r with sm }
    | .error _ => none
  | .applySnapshot s => some { r with sm := (r.sm.applySnapshot s).2 }

theorem step_commit {r u : Replica} {i : UInt64} {p : OpPayload}
    (h : step r (.commit i p) = some u) :
    ∃ sm ret, r.sm.commit i p = .ok (sm, ret) ∧ u = { r with sm } := by
  simp only [step] at h
  split at h
  · rename_i sm ret hcommit
    cases h
    exact ⟨sm, ret, hcommit, rfl⟩
  · exact absurd h (by simp)

/-- **What committing an entry does to a replica**, whichever kind of entry it is. -/
theorem step_commitAt {r u : Replica} {i : UInt64} {e : Entry}
    (h : step r (e.commitAt i) = some u) : Committed r.sm i e u.sm ∧ u.jobs = r.jobs := by
  cases e with
  | payload p =>
    obtain ⟨sm, ret, hcommit, rfl⟩ := step_commit h
    exact ⟨(commit_spec hcommit).1, rfl⟩
  | config =>
    simp only [Entry.commitAt, step, Option.some.injEq] at h
    subst h
    exact ⟨commitConfig_spec r.sm i, rfl⟩

/-- **Whether an entry can be committed does not depend on the replica.** -/
theorem step_commitAt_isSome_iff (r : Replica) (i : UInt64) (e : Entry) :
    (∃ u, step r (e.commitAt i) = some u) ↔ e.Sound := by
  cases e with
  | payload p =>
    rw [Entry.Sound, ← commit_returns_iff r.sm i p]
    simp only [Entry.commitAt, step]
    cases r.sm.commit i p with
    | ok res =>
      obtain ⟨sm', ret⟩ := res
      simp
    | error e => simp
  | config => simp [Entry.commitAt, step, Entry.Sound]

/-- With `async_snapshot_` unset a request is carried out at once, with it set it only starts
a job. -/
theorem step_createSnapshot_sync {r u : Replica} {s : Snapshot}
    (hsync : r.sm.asyncSnapshot = false) (h : step r (.createSnapshot s) = some u) :
    u = { r with sm := r.sm.createSnapshotInternal s } := by
  simp only [step, StateMachine.createSnapshot, hsync, Bool.not_false, if_true,
    Option.some.injEq, List.append_nil] at h
  exact h.symm

theorem step_createSnapshot_async {r u : Replica} {s : Snapshot}
    (hasync : r.sm.asyncSnapshot = true) (h : step r (.createSnapshot s) = some u) :
    u = { r with jobs := r.jobs ++ [s] } := by
  simp only [step, StateMachine.createSnapshot, hasync, Bool.not_true, Bool.false_eq_true,
    if_false, Option.some.injEq] at h
  exact h.symm

/-- A job that runs is one of the outstanding ones. -/
theorem step_runJob {r u : Replica} {k : ℕ} (h : step r (.runJob k) = some u) :
    ∃ ss, r.jobs[k]? = some ss ∧ u.sm = r.sm.createSnapshotInternal ss := by
  simp only [step] at h
  split at h
  · exact absurd h (by simp)
  · rename_i ss hss
    cases h
    exact ⟨ss, hss, rfl⟩

theorem step_saveLogicalSnpObj {r u : Replica} {s : Snapshot} {objId : UInt64} {data : Str}
    (h : step r (.saveLogicalSnpObj s objId data) = some u) :
    ∃ sm, r.sm.saveLogicalSnpObj s objId data = .ok sm ∧ u = { r with sm } := by
  simp only [step] at h
  split at h
  · rename_i sm hsave
    cases h
    exact ⟨sm, hsave, rfl⟩
  · exact absurd h (by simp)

/-- Only the store is replaced, if anything is. -/
theorem step_applySnapshot {r u : Replica} {s : Snapshot}
    (h : step r (.applySnapshot s) = some u) :
    ∃ t, u = { r with sm := { r.sm with kvStore := t } } := by
  simp only [step, Option.some.injEq] at h
  obtain ⟨t, ht⟩ := r.sm.applySnapshot_store s
  exact ⟨t, by rw [← h, ht]⟩

/-! ## 5. Runs that follow a log -/

/-- The action commits the entry the log has at the index after the last committed one. -/
def CommitsNext (log : ℕ → Entry) (r : Replica) (a : Action) : Prop :=
  ∃ i : UInt64, i.toNat = r.sm.lastCommittedIdx.toNat + 1 ∧ a = (log i.toNat).commitAt i

/-- Snapshots are requested for the index committed last. -/
def RequestsSnapshot (r : Replica) (a : Action) : Prop :=
  ∃ s : Snapshot, s.lastLogIdx = r.sm.lastCommittedIdx ∧ a = .createSnapshot s

/-- Committing the next entry of the log keeps the store on the log. -/
theorem TracksLog.commitsNext {log : ℕ → Entry} {r u : Replica} {a : Action}
    (h : TracksLog log r) (ha : CommitsNext log r a) (hs : step r a = some u) :
    TracksLog log u := by
  obtain ⟨i, hi, rfl⟩ := ha
  obtain ⟨hc, -⟩ := step_commitAt hs
  rw [TracksLog, hc.kvStore, hc.lastCommittedIdx, hi, storeAt, h]

end NuRaft

end ReplicatedMapReduce
