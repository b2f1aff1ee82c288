/-
# `mr_state_machine`

The state NuRaft replicates, and the calls NuRaft makes on it: `commit` and `commit_config` for
the entries of the log, `create_snapshot`, `read_logical_snp_obj`, `save_logical_snp_obj` and
`apply_snapshot` for snapshots, and the queries.  Every one is a function from the state before
to the state after, one call at a time.

`commit` is here from the point where `dec_log` has produced a payload; how the bytes of an
entry become one is the subject of `LogCodec.lean`.  A payload is a value, that is, one that owns
its strings.  The local `payload` of the source is a raw copy and does not, so its destruction at
the end of `commit` frees what belongs to another object; that is no part of `commit` here, nor
anywhere in the model.  The text codec of a snapshot is written
out here, and studied in `SnapshotText.lean`.

Where the source can fail without returning, so can the definition: `commit` lets the exceptions
of `performMapReduce` through, and `saveLogicalSnpObj` uses the result of its lookup
unconditionally.
-/
import ReplicatedMapReduce.MapReduce
import ReplicatedMapReduce.Foundation.Getline

namespace ReplicatedMapReduce

/-! ## 1. The data of a log entry -/

/-- `enum op_type : int`.  The four named values, and every other value an `int` can have. -/
inductive OpType
  | insertValue
  | deleteValue
  | deleteKey
  | mapReduce
  | unknown (code : {c : Int32 // c ≠ 0 ∧ c ≠ 1 ∧ c ≠ 2 ∧ c ≠ 3})
  deriving DecidableEq

/-- The `int` behind the enumeration, read as its value. -/
def OpType.ofCode (c : Int32) : OpType :=
  if h0 : c = 0 then .insertValue
  else if h1 : c = 1 then .deleteValue
  else if h2 : c = 2 then .deleteKey
  else if h3 : c = 3 then .mapReduce
  else .unknown ⟨c, h0, h1, h2, h3⟩

structure OpPayload where
  type : OpType
  key : Str
  value : Int32
  mapOp : Str := []
  reduceOp : Str := []
  keys : List Str := []
  deriving DecidableEq

/-- What the code uses of `nuraft::snapshot`. -/
structure Snapshot where
  lastLogIdx : UInt64
  lastLogTerm : UInt64
  deriving DecidableEq

/-- `struct snapshot_ctx`. -/
structure SnapshotCtx where
  snapshot : Snapshot
  kvStore : KeyValueStore
  deriving DecidableEq

/-- The members of `mr_state_machine`, without the mutex. -/
structure StateMachine where
  kvStore : KeyValueStore
  mapReduceResults : Map UInt64 Results
  lastCommittedIdx : UInt64
  snapshots : Map UInt64 SnapshotCtx
  asyncSnapshot : Bool
  deriving DecidableEq

/-! ## 2. The text of a snapshot -/

/-- What `serialize_kv_store` writes for one pair. -/
def serializePair (kv : Str × List Int32) : Str :=
  kv.1 ++ str ":" ++ kv.2.flatMap (fun val => printValue val ++ str ",") ++ str ";"

def serializeKvStore (kvStore : KeyValueStore) : Str := kvStore.getAll.flatMap serializePair

/-- One turn of the innermost loop: an empty string and one without a number are skipped,
any other failure of `stoi` leaves the function. -/
def readValue (values : List Int32) (valueStr : Str) : Except StdException (List Int32) :=
  if valueStr = [] then .ok values
  else
    match stoi valueStr with
    | .ok value => .ok (values ++ [value])
    | .error .invalidArgument => .ok values
    | .error e => .error e

/-- One turn of the outer loop of `deserialize_kv_store`. -/
def readPair (newKvStore : KeyValueStore) (keyValuePair : Str) :
    Except StdException KeyValueStore :=
  match Getline.getline ':'.toUInt8 keyValuePair with
  | none => .ok newKvStore
  | some (key, kvStream) =>
    match (Getline.lines ','.toUInt8 kvStream).foldlM readValue [] with
    | .ok values => .ok (newKvStore.insertMany key values)
    | .error e => .error e

def deserializeKvStore (data : Str) : Except StdException KeyValueStore :=
  (Getline.lines ';'.toUInt8 data).foldlM readPair ∅

/-! ## 3. The calls -/

namespace StateMachine

/-- The constructor. -/
def init (asyncSnapshot : Bool) : StateMachine := ⟨∅, ∅, 0, ∅, asyncSnapshot⟩

def addMapReduceResult (sm : StateMachine) (logIdx : UInt64) (results : Results) : StateMachine :=
  { sm with mapReduceResults := sm.mapReduceResults.insert logIdx results }

section NuRaft

variable [NuRaft]

/-- The reply buffer of `commit`: the index, and the flag as one byte. -/
def reply (logIdx : UInt64) (hasMapReduceResults : Bool) : Str :=
  NuRaft.putU64 logIdx ++ NuRaft.putU8 (if hasMapReduceResults then 1 else 0)

/-- `commit` of a payload that owns its strings, after `dec_log`: the state afterwards and the
reply.  What `performMapReduce` throws leaves `commit` before anything was assigned. -/
def commit (sm : StateMachine) (logIdx : UInt64) (payload : OpPayload) :
    Except Fault (StateMachine × Str) :=
  match payload.type with
  | .insertValue =>
    let kvStore := sm.kvStore.insert payload.key payload.value
    .ok ({ sm with kvStore, lastCommittedIdx := logIdx }, reply logIdx false)
  | .deleteValue =>
    let kvStore := (sm.kvStore.removeValue payload.key payload.value).2
    .ok ({ sm with kvStore, lastCommittedIdx := logIdx }, reply logIdx false)
  | .deleteKey =>
    let kvStore := (sm.kvStore.removeKey payload.key).2
    .ok ({ sm with kvStore, lastCommittedIdx := logIdx }, reply logIdx false)
  | .mapReduce =>
    let mr := MapReduce.new sm.kvStore
    match mr.performMapReduce payload.mapOp payload.reduceOp payload.keys with
    | .ok mapReduceResults =>
      .ok ({ sm.addMapReduceResult logIdx mapReduceResults with lastCommittedIdx := logIdx },
        reply logIdx true)
    | .error e => .error (.thrown e)
  | .unknown _ => .ok ({ sm with lastCommittedIdx := logIdx }, reply logIdx false)

/-- `read_logical_snp_obj`: `data_out`, `none` for a null pointer or where it is not set, and
`is_last_obj` where it is set. -/
def readLogicalSnpObj (sm : StateMachine) (s : Snapshot) (objId : UInt64) :
    Option Str × Option Bool :=
  match sm.snapshots[s.lastLogIdx]? with
  | none => (none, some true)
  | some ctx =>
    let kvStoreSerialized := serializeKvStore ctx.kvStore
    if objId = 0 then (some (NuRaft.putRaw kvStoreSerialized), some true) else (none, none)

/-- `save_logical_snp_obj`.  `entry->second` is used without asking whether the lookup found
anything. -/
def saveLogicalSnpObj (sm : StateMachine) (s : Snapshot) (objId : UInt64) (data : Str) :
    Except Fault StateMachine :=
  if objId = 0 then
    match NuRaft.getStr data with
    | .error e => .error (.thrown e)
    | .ok kvStoreSerialized =>
      match deserializeKvStore kvStoreSerialized with
      | .error e => .error (.thrown e)
      | .ok kvStore =>
        match sm.snapshots[s.lastLogIdx]? with
        | none => .error .endDereferenced
        | some entry =>
          .ok { sm with snapshots := sm.snapshots.insert s.lastLogIdx { entry with kvStore } }
  else .ok sm

end NuRaft

def commitConfig (sm : StateMachine) (logIdx : UInt64) : StateMachine :=
  { sm with lastCommittedIdx := logIdx }

def applySnapshot (sm : StateMachine) (s : Snapshot) : Bool × StateMachine :=
  match sm.snapshots[s.lastLogIdx]? with
  | none => (false, sm)
  | some ctx => (true, { sm with kvStore := ctx.kvStore })

/-- `last_snapshot`: the last entry of the map. -/
def lastSnapshot (sm : StateMachine) : Option Snapshot :=
  (sm.snapshots.toList.getLast?).map fun entry => entry.2.snapshot

def lastCommitIndex (sm : StateMachine) : UInt64 := sm.lastCommittedIdx

def getMapReduceResults (sm : StateMachine) (logIdx : UInt64) : Results :=
  (sm.mapReduceResults[logIdx]?).getD ∅

def maxSnapshots : ℕ := 3

/-- The eviction loop: `ii` turns are left, `entry` is the iterator, as the keys from it on. -/
def evict : ℕ → List UInt64 → Map UInt64 SnapshotCtx → Map UInt64 SnapshotCtx
  | 0, _, snapshots => snapshots
  | _ + 1, [], snapshots => snapshots
  | ii + 1, idx :: entry, snapshots => evict ii entry (snapshots.erase idx)

/-- `create_snapshot_internal`.  The bound `num - MAX_SNAPSHOTS` is signed, and no turn is taken
when it is negative, as with the truncated subtraction here. -/
def createSnapshotInternal (sm : StateMachine) (ss : Snapshot) : StateMachine :=
  let snapshots := sm.snapshots.insert ss.lastLogIdx ⟨ss, sm.kvStore⟩
  { sm with snapshots := evict (snapshots.size - maxSnapshots) snapshots.keys snapshots }

/-- `create_snapshot`: the state afterwards, and the snapshots whose
`create_snapshot_internal` a new thread was started for.  The clone of `s` equals `s`. -/
def createSnapshot (sm : StateMachine) (s : Snapshot) : StateMachine × List Snapshot :=
  if !sm.asyncSnapshot then (sm.createSnapshotInternal s, []) else (sm, [s])

/-! ## 4. What the eviction loop leaves -/

theorem evict_eq (n : ℕ) (entry : List UInt64) (snapshots : Map UInt64 SnapshotCtx) :
    evict n entry snapshots = (entry.take n).foldl (fun m idx => m.erase idx) snapshots := by
  induction n generalizing entry snapshots with
  | zero => rfl
  | succ n ih =>
    cases entry with
    | nil => rfl
    | cons idx entry => exact ih entry (snapshots.erase idx)

/-- **An entry survives `create_snapshot_internal` exactly when fewer than three indices are
greater.**  Everything else about it is as the insertion left it. -/
theorem getElem?_createSnapshotInternal (sm : StateMachine) (ss : Snapshot) (i : UInt64) :
    (sm.createSnapshotInternal ss).snapshots[i]? =
      if maxSnapshots ≤
          (TreeMaps.keysAbove (sm.snapshots.insert ss.lastLogIdx ⟨ss, sm.kvStore⟩) i).length
      then none
      else (sm.snapshots.insert ss.lastLogIdx ⟨ss, sm.kvStore⟩)[i]? := by
  simp only [createSnapshotInternal]
  generalize sm.snapshots.insert ss.lastLogIdx ⟨ss, sm.kvStore⟩ = m
  rw [evict_eq, TreeMaps.getElem?_foldl_erase, ← Std.ExtTreeMap.length_keys]
  by_cases hi : i ∈ m.keys
  · simp only [TreeMaps.mem_take_keys_iff hi]
  · have hnone : m[i]? = none :=
      Std.ExtTreeMap.getElem?_eq_none fun h => hi (Std.ExtTreeMap.mem_keys.mpr h)
    rw [if_neg fun h => hi (List.mem_of_mem_take h), hnone, ite_self]

/-! ## 5. What a call that returned did -/

/-- `save_logical_snp_obj` changes one entry, and that one was there before. -/
theorem saveLogicalSnpObj_ok [NuRaft] {sm sm' : StateMachine} {s : Snapshot} {objId : UInt64}
    {data : Str} (h : sm.saveLogicalSnpObj s objId data = .ok sm') :
    (objId ≠ 0 ∧ sm' = sm) ∨
    ∃ text kvStore entry, objId = 0 ∧ NuRaft.getStr data = .ok text ∧
      deserializeKvStore text = .ok kvStore ∧ sm.snapshots[s.lastLogIdx]? = some entry ∧
      sm' = { sm with
        snapshots := sm.snapshots.insert s.lastLogIdx { entry with kvStore := kvStore } } := by
  unfold saveLogicalSnpObj at h
  split at h
  · rename_i hobj
    split at h
    · exact absurd h (by simp)
    · rename_i text htext
      split at h
      · exact absurd h (by simp)
      · rename_i kvStore hstore
        split at h
        · exact absurd h (by simp)
        · rename_i entry hentry
          cases h
          exact Or.inr ⟨text, kvStore, entry, hobj, htext, hstore, hentry, rfl⟩
  · rename_i hobj
    cases h
    exact Or.inl ⟨hobj, rfl⟩

/-- `apply_snapshot`, where there is an entry. -/
theorem applySnapshot_of_entry {sm : StateMachine} {s : Snapshot} {ctx : SnapshotCtx}
    (h : sm.snapshots[s.lastLogIdx]? = some ctx) :
    sm.applySnapshot s = (true, { sm with kvStore := ctx.kvStore }) := by
  simp only [applySnapshot, h]

/-- Nothing but the store is ever replaced by `apply_snapshot`. -/
theorem applySnapshot_store (sm : StateMachine) (s : Snapshot) :
    ∃ t, (sm.applySnapshot s).2 = { sm with kvStore := t } := by
  unfold applySnapshot
  split
  · exact ⟨sm.kvStore, rfl⟩
  · exact ⟨_, rfl⟩

end StateMachine

end ReplicatedMapReduce
