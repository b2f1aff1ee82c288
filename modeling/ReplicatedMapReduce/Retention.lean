/-
# Which snapshots are retained

`create_snapshot_internal` files the new snapshot under its index and then erases entries from
the front of the map until three are left.  Jobs run in any order, so an index can come late or
twice, and the new entry can be the one that is erased.

The retained indices are the three greatest created so far, and `created` is what makes this a
statement about histories: the list of all entries a run has ever created, in order.  The map
has forgotten most of them, but the greatest indices can be kept up to date by looking at
nothing but the greatest so far and the new one (`Greatest.greatest_insert`), which is what the
eviction loop does.  So after every run the map is the last entry at each of the three greatest
indices (`Retains`), and everything else the retention does follows from that equation.
-/
import ReplicatedMapReduce.SnapshotTransfer
import ReplicatedMapReduce.Foundation.Greatest

namespace ReplicatedMapReduce

open Runs Greatest

/-! ## 1. The entries a run creates -/

/-- The entry an action creates: with `async_snapshot_` unset a request does, otherwise its
job. -/
def Replica.created (r : Replica) : Action → Option SnapshotCtx
  | .createSnapshot s => if r.sm.asyncSnapshot then none else some ⟨s, r.sm.kvStore⟩
  | .runJob k => (r.jobs[k]?).map fun ss => ⟨ss, r.sm.kvStore⟩
  | .commit _ _ => none
  | .commitConfig _ => none
  | .saveLogicalSnpObj _ _ _ => none
  | .applySnapshot _ => none

/-- The index of an entry, as a number. -/
def SnapshotCtx.index (ctx : SnapshotCtx) : ℕ := ctx.snapshot.lastLogIdx.toNat

/-- The indices of a history of entries. -/
def indices (history : List SnapshotCtx) : Finset ℕ := (history.map SnapshotCtx.index).toFinset

/-- The last entry of a history that was created at an index. -/
def latest (history : List SnapshotCtx) (i : UInt64) : Option SnapshotCtx :=
  history.reverse.find? (·.snapshot.lastLogIdx = i)

theorem mem_indices {history : List SnapshotCtx} {n : ℕ} :
    n ∈ indices history ↔ ∃ ctx ∈ history, ctx.index = n := by
  rw [indices, List.mem_toFinset, List.mem_map]

theorem indices_append_singleton (history : List SnapshotCtx) (ctx : SnapshotCtx) :
    indices (history ++ [ctx]) = insert ctx.index (indices history) := by
  refine Finset.ext ?_
  intro n
  simp only [mem_indices, Finset.mem_insert, List.mem_append, List.mem_singleton]
  constructor
  · rintro ⟨c, hc | rfl, rfl⟩
    · exact Or.inr ⟨c, hc, rfl⟩
    · exact Or.inl rfl
  · rintro (rfl | ⟨c, hc, rfl⟩)
    · exact ⟨ctx, Or.inr rfl, rfl⟩
    · exact ⟨c, Or.inl hc, rfl⟩

theorem latest_append_singleton (history : List SnapshotCtx) (ctx : SnapshotCtx) (i : UInt64) :
    latest (history ++ [ctx]) i
      = if ctx.snapshot.lastLogIdx = i then some ctx else latest history i := by
  rw [latest, List.reverse_append, List.reverse_singleton, List.singleton_append,
    List.find?_cons]
  split <;> simp_all [latest]

/-- There is a last entry at every index of the history, and it is at that index. -/
theorem latest_of_mem_indices {history : List SnapshotCtx} {i : UInt64}
    (h : i.toNat ∈ indices history) :
    ∃ ctx, latest history i = some ctx ∧ ctx.snapshot.lastLogIdx = i := by
  obtain ⟨c, hc, hci⟩ := mem_indices.mp h
  have hidx : c.snapshot.lastLogIdx = i := UInt64.toNat_inj.mp hci
  have hsome : (latest history i).isSome = true := by
    rw [latest, List.find?_isSome]
    exact ⟨c, List.mem_reverse.mpr hc, decide_eq_true hidx⟩
  obtain ⟨ctx, hctx⟩ := Option.isSome_iff_exists.mp hsome
  refine ⟨ctx, hctx, ?_⟩
  rw [latest] at hctx
  simpa using List.find?_some hctx

section NuRaft

variable [NuRaft]

/-- The entries a run creates, in order. -/
def creations (r : Replica) : List Action → List SnapshotCtx
  | [] => []
  | a :: as =>
    match step r a with
    | none => []
    | some u => (r.created a).toList ++ creations u as

/-- **What an action does to the map**: the one that creates an entry runs
`create_snapshot_internal`, the others leave the map alone. -/
theorem step_snapshots {r u : Replica} {a : Action} (ha : OwnCall a) (hs : step r a = some u) :
    (∃ ss, r.created a = some ⟨ss, r.sm.kvStore⟩ ∧ u.sm = r.sm.createSnapshotInternal ss) ∨
      (r.created a = none ∧ u.sm.snapshots = r.sm.snapshots) := by
  cases a with
  | commit i p =>
    have hcommit : step r ((Entry.payload p).commitAt i) = some u := hs
    exact Or.inr ⟨rfl, (step_commitAt hcommit).1.snapshots⟩
  | commitConfig i =>
    have hcommit : step r (Entry.config.commitAt i) = some u := hs
    exact Or.inr ⟨rfl, (step_commitAt hcommit).1.snapshots⟩
  | createSnapshot s =>
    cases hasync : r.sm.asyncSnapshot with
    | false =>
      rw [step_createSnapshot_sync hasync hs]
      exact Or.inl ⟨s, by simp [Replica.created, hasync], rfl⟩
    | true =>
      rw [step_createSnapshot_async hasync hs]
      exact Or.inr ⟨by simp [Replica.created, hasync], rfl⟩
  | runJob k =>
    obtain ⟨ss, hss, hu⟩ := step_runJob hs
    exact Or.inl ⟨ss, by simp [Replica.created, hss], hu⟩
  | saveLogicalSnpObj s objId data => exact absurd ha id
  | applySnapshot s =>
    obtain ⟨t, rfl⟩ := step_applySnapshot hs
    exact Or.inr ⟨rfl, rfl⟩

end NuRaft

/-! ## 2. What is retained -/

/-- **The map is the last entry at each of the three greatest indices of the history.** -/
def Retains (history : List SnapshotCtx) (sm : StateMachine) : Prop :=
  ∀ (i : UInt64) (ctx : SnapshotCtx), sm.snapshots[i]? = some ctx ↔
    i.toNat ∈ greatest StateMachine.maxSnapshots (indices history) ∧ latest history i = some ctx

/-- The indices in the map, as numbers. -/
def mapIndices (m : Map UInt64 SnapshotCtx) : Finset ℕ := (m.keys.map UInt64.toNat).toFinset

theorem mem_mapIndices {m : Map UInt64 SnapshotCtx} {n : ℕ} :
    n ∈ mapIndices m ↔ ∃ i ∈ m, i.toNat = n := by
  simp only [mapIndices, List.mem_toFinset, List.mem_map, Std.ExtTreeMap.mem_keys]

theorem toNat_mem_mapIndices {m : Map UInt64 SnapshotCtx} {i : UInt64} :
    i.toNat ∈ mapIndices m ↔ i ∈ m := by
  rw [mem_mapIndices]
  constructor
  · rintro ⟨j, hj, hji⟩
    exact UInt64.toNat_inj.mp hji ▸ hj
  · exact fun hi => ⟨i, hi, rfl⟩

theorem mapIndices_insert (m : Map UInt64 SnapshotCtx) (i : UInt64) (ctx : SnapshotCtx) :
    mapIndices (m.insert i ctx) = insert i.toNat (mapIndices m) := by
  refine Finset.ext ?_
  intro n
  simp only [Finset.mem_insert, mem_mapIndices, Std.ExtTreeMap.mem_insert,
    Std.LawfulEqCmp.compare_eq_iff_eq]
  constructor
  · rintro ⟨j, rfl | hj, rfl⟩
    · exact Or.inl rfl
    · exact Or.inr ⟨j, hj, rfl⟩
  · rintro (rfl | ⟨j, hj, rfl⟩)
    · exact ⟨i, Or.inl rfl, rfl⟩
    · exact ⟨j, Or.inr hj, rfl⟩

theorem compare_eq_lt_iff {i j : UInt64} : compare i j = .lt ↔ i.toNat < j.toNat := by
  rw [Std.compare_eq_lt, UInt64.lt_iff_toNat_lt]

/-- The greater keys, counted as numbers. -/
theorem length_keysAbove_eq (m : Map UInt64 SnapshotCtx) (i : UInt64) :
    (TreeMaps.keysAbove m i).length = (above (mapIndices m) i.toNat).card := by
  have hnodup : ((TreeMaps.keysAbove m i).map UInt64.toNat).Nodup :=
    (List.filter_sublist.nodup Std.ExtTreeMap.nodup_keys).map fun a b => UInt64.toNat_inj.mp
  have hset : ((TreeMaps.keysAbove m i).map UInt64.toNat).toFinset
      = above (mapIndices m) i.toNat := by
    refine Finset.ext ?_
    intro n
    simp only [List.mem_toFinset, List.mem_map, TreeMaps.mem_keysAbove, mem_above,
      mem_mapIndices, compare_eq_lt_iff]
    constructor
    · rintro ⟨j, ⟨hj, hlt⟩, rfl⟩
      exact ⟨⟨j, hj, rfl⟩, hlt⟩
    · rintro ⟨⟨j, hj, rfl⟩, hlt⟩
      exact ⟨j, ⟨hj, hlt⟩, rfl⟩
  rw [← hset, List.toFinset_card_of_nodup hnodup, List.length_map]

/-- **What `create_snapshot_internal` leaves**: of the entries with the new one, those at the
three greatest indices. -/
theorem createSnapshotInternal_getElem?_iff (sm : StateMachine) (ss : Snapshot) (i : UInt64)
    (ctx : SnapshotCtx) :
    (sm.createSnapshotInternal ss).snapshots[i]? = some ctx ↔
      i.toNat ∈ greatest StateMachine.maxSnapshots
          (insert ss.lastLogIdx.toNat (mapIndices sm.snapshots)) ∧
        (sm.snapshots.insert ss.lastLogIdx ⟨ss, sm.kvStore⟩)[i]? = some ctx := by
  rw [StateMachine.getElem?_createSnapshotInternal, length_keysAbove_eq, mem_greatest,
    ← mapIndices_insert, toNat_mem_mapIndices]
  generalize sm.snapshots.insert ss.lastLogIdx ⟨ss, sm.kvStore⟩ = m
  constructor
  · intro h
    split at h
    · exact absurd h (by simp)
    · rename_i hlt
      exact ⟨⟨TreeMaps.mem_of_eq_some h, Nat.lt_of_not_le hlt⟩, h⟩
  · rintro ⟨⟨-, hlt⟩, h⟩
    rw [if_neg (Nat.not_le.mpr hlt), h]

/-- Where the map is as it should be, its indices are the greatest of the history. -/
theorem Retains.mapIndices_eq {history : List SnapshotCtx} {sm : StateMachine}
    (h : Retains history sm) :
    mapIndices sm.snapshots = greatest StateMachine.maxSnapshots (indices history) := by
  refine Finset.ext ?_
  intro n
  constructor
  · intro hn
    obtain ⟨i, hi, rfl⟩ := mem_mapIndices.mp hn
    exact ((h i _).mp (Std.ExtTreeMap.getElem?_eq_some_getElem hi)).1
  · intro hn
    obtain ⟨c, -, rfl⟩ := mem_indices.mp (mem_greatest.mp hn).1
    obtain ⟨ctx, hctx, -⟩ := latest_of_mem_indices (i := c.snapshot.lastLogIdx)
      (mem_greatest.mp hn).1
    exact toNat_mem_mapIndices.mpr (TreeMaps.mem_of_eq_some ((h _ ctx).mpr ⟨hn, hctx⟩))

/-- **Step lemma.**  One more creation. -/
theorem Retains.createSnapshotInternal {history : List SnapshotCtx} {sm : StateMachine}
    (h : Retains history sm) (ss : Snapshot) :
    Retains (history ++ [⟨ss, sm.kvStore⟩]) (sm.createSnapshotInternal ss) := by
  intro i ctx
  have hgreatest : greatest StateMachine.maxSnapshots
        (insert ss.lastLogIdx.toNat (mapIndices sm.snapshots))
      = greatest StateMachine.maxSnapshots (indices (history ++ [⟨ss, sm.kvStore⟩])) := by
    rw [h.mapIndices_eq, greatest_insert, indices_append_singleton]
    rfl
  rw [createSnapshotInternal_getElem?_iff, hgreatest, latest_append_singleton,
    Std.ExtTreeMap.getElem?_insert]
  refine and_congr_right fun hi => ?_
  simp only [Std.LawfulEqCmp.compare_eq_iff_eq]
  split
  · exact Iff.rfl
  · rename_i hne
    rw [h i ctx]
    refine and_iff_right ?_
    -- an old index that is among the greatest now was among the greatest before
    rw [indices_append_singleton] at hi
    have hold : i.toNat ∈ indices history := by
      rcases Finset.mem_insert.mp (mem_greatest.mp hi).1 with heq | hmem
      · exact absurd (UInt64.toNat_inj.mp heq).symm hne
      · exact hmem
    by_contra hnot
    exact not_mem_greatest_of_subset (Finset.subset_insert _ _) hold hnot hi

/-! ## 3. Every history -/

/-- What is retained after a history of creations, as it can be observed.  The first three
fields say that the indices in the map are the three greatest. -/
structure Retention (history : List SnapshotCtx) (sm : StateMachine) : Prop where
  created : ∀ i ∈ sm.snapshots, i.toNat ∈ indices history
  size : sm.snapshots.size = min 3 (indices history).card
  greatest : ∀ i ∈ sm.snapshots, ∀ j : UInt64, j.toNat ∈ indices history →
    j ∉ sm.snapshots → j < i
  entries : ∀ (i : UInt64) (ctx : SnapshotCtx), sm.snapshots[i]? = some ctx →
    latest history i = some ctx ∧ ctx.snapshot.lastLogIdx = i
  lastSnapshot_none : sm.lastSnapshot = none ↔ history = []
  lastSnapshot_some : ∀ s : Snapshot, sm.lastSnapshot = some s →
    ∃ ctx, sm.snapshots[s.lastLogIdx]? = some ctx ∧ ctx.snapshot = s ∧
      ∀ n ∈ indices history, n ≤ s.lastLogIdx.toNat

theorem Retains.mem_iff {history : List SnapshotCtx} {sm : StateMachine} (h : Retains history sm)
    (i : UInt64) :
    i ∈ sm.snapshots ↔ i.toNat ∈ greatest StateMachine.maxSnapshots (indices history) := by
  rw [← h.mapIndices_eq, toNat_mem_mapIndices]

theorem Retains.size_eq {history : List SnapshotCtx} {sm : StateMachine}
    (h : Retains history sm) :
    sm.snapshots.size = min StateMachine.maxSnapshots (indices history).card := by
  have hnodup : (sm.snapshots.keys.map UInt64.toNat).Nodup :=
    Std.ExtTreeMap.nodup_keys.map fun a b => UInt64.toNat_inj.mp
  rw [← card_greatest, ← h.mapIndices_eq, mapIndices, List.toFinset_card_of_nodup hnodup,
    List.length_map, Std.ExtTreeMap.length_keys]

/-- The greatest index of all is retained. -/
theorem Retains.exists_greatest {history : List SnapshotCtx} {sm : StateMachine}
    (h : Retains history sm) (hne : history ≠ []) :
    ∃ i ∈ sm.snapshots, ∀ n ∈ indices history, n ≤ i.toNat := by
  obtain ⟨c, hc⟩ := List.exists_mem_of_ne_nil history hne
  have hnonempty : (indices history).Nonempty := ⟨c.index, mem_indices.mpr ⟨c, hc, rfl⟩⟩
  have hmax : (indices history).max' hnonempty
      ∈ greatest StateMachine.maxSnapshots (indices history) :=
    mem_greatest_of_forall_le (by decide) (Finset.max'_mem _ hnonempty)
      fun n hn => Finset.le_max' _ n hn
  rw [← h.mapIndices_eq, mem_mapIndices] at hmax
  obtain ⟨i, hi, heq⟩ := hmax
  exact ⟨i, hi, fun n hn => heq ▸ Finset.le_max' _ n hn⟩

/-- `last_snapshot` is a null pointer exactly before the first creation. -/
theorem Retains.lastSnapshot_eq_none_iff {history : List SnapshotCtx} {sm : StateMachine}
    (h : Retains history sm) : sm.lastSnapshot = none ↔ history = [] := by
  rw [StateMachine.lastSnapshot, Option.map_eq_none_iff, List.getLast?_eq_none_iff,
    Std.ExtTreeMap.toList_eq_nil_iff]
  constructor
  · intro hempty
    by_contra hne
    obtain ⟨i, hi, -⟩ := h.exists_greatest hne
    rw [hempty] at hi
    exact absurd hi Std.ExtTreeMap.not_mem_empty
  · rintro rfl
    refine Std.ExtTreeMap.eq_empty_iff_forall_not_mem.mpr ?_
    intro i hi
    exact absurd (mem_greatest.mp ((h.mem_iff i).mp hi)).1 (by simp [indices])

theorem Retains.observed {history : List SnapshotCtx} {sm : StateMachine}
    (h : Retains history sm) : Retention history sm := by
  have hentries : ∀ (i : UInt64) (ctx : SnapshotCtx), sm.snapshots[i]? = some ctx →
      latest history i = some ctx ∧ ctx.snapshot.lastLogIdx = i := by
    intro i ctx hctx
    obtain ⟨hi, hlatest⟩ := (h i ctx).mp hctx
    obtain ⟨ctx', hctx', hidx⟩ := latest_of_mem_indices (mem_greatest.mp hi).1
    rw [hlatest, Option.some.injEq] at hctx'
    exact ⟨hlatest, hctx' ▸ hidx⟩
  have hgreater : ∀ i ∈ sm.snapshots, ∀ j : UInt64, j.toNat ∈ indices history →
      j ∉ sm.snapshots → j < i := by
    intro i hi j hj hnot
    rw [h.mem_iff] at hi hnot
    exact UInt64.lt_iff_toNat_lt.mpr (lt_of_mem_greatest hi hj hnot)
  refine ⟨fun i hi => (mem_greatest.mp ((h.mem_iff i).mp hi)).1, h.size_eq, hgreater, hentries,
    h.lastSnapshot_eq_none_iff, fun s hs => ?_⟩
  have hne : history ≠ [] := by
    rintro rfl
    rw [h.lastSnapshot_eq_none_iff.mpr rfl] at hs
    exact absurd hs (by simp)
  rw [StateMachine.lastSnapshot, Option.map_eq_some_iff] at hs
  obtain ⟨⟨i, ctx⟩, hlast, rfl⟩ := hs
  obtain ⟨hctx, hmax⟩ := TreeMaps.of_getLast?_toList hlast
  have hidx : ctx.snapshot.lastLogIdx = i := (hentries i ctx hctx).2
  obtain ⟨j, hj, hgreatest⟩ := h.exists_greatest hne
  have hji : j.toNat ≤ i.toNat := by
    rcases hmax j hj with rfl | hlt
    · exact le_refl _
    · exact (compare_eq_lt_iff.mp hlt).le
  refine ⟨ctx, hidx ▸ hctx, rfl, fun n hn => ?_⟩
  rw [hidx]
  exact (hgreatest n hn).trans hji

section NuRaft

variable [NuRaft]

/-- **Run lemma.**  A run that starts with the map as it should be ends so, with what it created
added to the history. -/
theorem Retains.run {history : List SnapshotCtx} {r t : Replica} {as : List Action}
    (hrun : Run step (fun _ a => OwnCall a) r as t) :
    Retains history r.sm → Retains (history ++ creations r as) t.sm := by
  induction hrun generalizing history with
  | refl r =>
    intro h
    rw [creations, List.append_nil]
    exact h
  | @cons r u t a as ha hs _ ih =>
    intro h
    rw [creations, hs]
    dsimp only
    rcases step_snapshots ha hs with ⟨ss, hcreated, hu⟩ | ⟨hcreated, hu⟩
    · have hu' : Retains (history ++ [⟨ss, r.sm.kvStore⟩]) u.sm := by
        rw [hu]
        exact h.createSnapshotInternal ss
      rw [hcreated, ← List.append_assoc]
      exact ih hu'
    · have hu' : Retains history u.sm := by
        rw [Retains, hu]
        exact h
      rw [hcreated]
      exact ih hu'

/-- **Snapshot retention.**  After every run of own calls from the initial state the map holds
the last entry at each of the three greatest indices created so far, and `last_snapshot` is the
one at the greatest.  An index that was created and is not in the map is not in it after any
continuation of the run.  Creating a snapshot changes nothing else. -/
theorem retention {asyncSnapshot : Bool} {as bs : List Action} {u t : Replica}
    (hrun : Run step (fun _ a => OwnCall a) (Replica.init asyncSnapshot) as u)
    (hrest : Run step (fun _ a => OwnCall a) u bs t) :
    Retention (creations (Replica.init asyncSnapshot) as) u.sm ∧
    (∀ i : UInt64, i.toNat ∈ indices (creations (Replica.init asyncSnapshot) as) →
      i ∉ u.sm.snapshots → i ∉ t.sm.snapshots) ∧
    ∀ (sm : StateMachine) (ss : Snapshot),
      (sm.createSnapshotInternal ss).kvStore = sm.kvStore ∧
      (sm.createSnapshotInternal ss).mapReduceResults = sm.mapReduceResults ∧
      (sm.createSnapshotInternal ss).lastCommittedIdx = sm.lastCommittedIdx := by
  have hinit : Retains [] (Replica.init asyncSnapshot).sm := by
    intro i ctx
    simp [Replica.init, StateMachine.init, latest]
  have hu := hinit.run hrun
  rw [List.nil_append] at hu
  have ht := hu.run hrest
  refine ⟨hu.observed, fun i hcreated hevicted => ?_, fun sm ss => ⟨rfl, rfl, rfl⟩⟩
  rw [hu.mem_iff] at hevicted
  rw [ht.mem_iff]
  refine not_mem_greatest_of_subset ?_ hcreated hevicted
  intro n hn
  obtain ⟨ctx, hctx, rfl⟩ := mem_indices.mp hn
  exact mem_indices.mpr ⟨ctx, List.mem_append_left _ hctx, rfl⟩

end NuRaft

/-- Requests for the indices 2, 3, 4 and 1, whose jobs then run in this order: the last one is
evicted at once. -/
def lateJobs : List Action :=
  [.createSnapshot ⟨2, 1⟩, .createSnapshot ⟨3, 1⟩, .createSnapshot ⟨4, 1⟩, .createSnapshot ⟨1, 1⟩,
    .runJob 0, .runJob 0, .runJob 0, .runJob 0]

theorem retention_late : ∃ u t : Replica,
    Retention (@creations littleEndian (Replica.init true) lateJobs) u.sm ∧
    u.sm.snapshots.keys = [2, 3, 4] ∧ (1 : UInt64) ∉ t.sm.snapshots := by
  let := littleEndian
  have hrun : ∃ u, Run step (fun _ a => OwnCall a) (Replica.init true) lateJobs u ∧
      u.sm.snapshots.keys = [2, 3, 4] ∧ ∃ t,
        Run step (fun _ a => OwnCall a) u [.createSnapshot ⟨1, 2⟩, .runJob 0] t :=
    ⟨_, Run.cons trivial rfl (Run.cons trivial rfl (Run.cons trivial rfl (Run.cons trivial rfl
      (Run.cons trivial rfl (Run.cons trivial rfl (Run.cons trivial rfl (Run.cons trivial rfl
      (Run.refl _)))))))), by decide, _, Run.cons trivial rfl (Run.cons trivial rfl (Run.refl _))⟩
  obtain ⟨u, hrun, hkeys, t, hrest⟩ := hrun
  obtain ⟨hretention, hevicted, -⟩ := retention hrun hrest
  refine ⟨u, t, hretention, hkeys, hevicted 1 (by decide) ?_⟩
  rw [← Std.ExtTreeMap.mem_keys, hkeys]
  decide

end ReplicatedMapReduce
