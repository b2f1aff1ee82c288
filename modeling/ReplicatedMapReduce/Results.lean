/-
# Map-reduce results are read later than they are computed

`commit` computes the map of a map-reduce entry and files it under the entry's index; the reply
carries only the index and a flag, and `handle_result` looks the map up when it gets to run, on a
state machine that may have gone on in the meantime.

So the filed map must not move.  `map_reduce_results_` is written in one place only, and only at
the index that is being committed: every other action leaves the entry at `i` alone
(`step_mapReduceResults`), and therefore so does every run that does not commit `i` again
(`run_mapReduceResults`).  That is all `results_pointInTime` needs, whatever else happens to the
store: insertions, deletions, snapshots, evictions, restores.
-/
import ReplicatedMapReduce.Server

namespace ReplicatedMapReduce

open Runs

/-- The indices at which payloads are committed. -/
def commitIndices (as : List Action) : List UInt64 :=
  as.filterMap fun
    | .commit i _ => some i
    | _ => none

theorem commitIndices_append (as bs : List Action) :
    commitIndices (as ++ bs) = commitIndices as ++ commitIndices bs :=
  List.filterMap_append

theorem commitIndices_commit (i : UInt64) (p : OpPayload) (bs : List Action) :
    commitIndices (.commit i p :: bs) = i :: commitIndices bs := rfl

section NuRaft

variable [NuRaft]

/-! ## 1. Nothing else touches a result -/

/-- **Step lemma.**  An action that does not commit a payload at `i` leaves the result at `i`
alone. -/
theorem step_mapReduceResults {r u : Replica} {a : Action} {i : UInt64}
    (hs : step r a = some u) (ha : i ∉ commitIndices [a]) :
    u.sm.mapReduceResults[i]? = r.sm.mapReduceResults[i]? := by
  cases a with
  | commit j p =>
    have hne : ¬ j = i := by
      intro hji
      exact ha (by simp [commitIndices, hji])
    have hcommit : step r ((Entry.payload p).commitAt j) = some u := hs
    obtain ⟨hc, -⟩ := step_commitAt hcommit
    rw [hc.results, if_neg hne]
  | commitConfig j =>
    simp only [step, Option.some.injEq] at hs
    subst hs
    rfl
  | createSnapshot s =>
    simp only [step, StateMachine.createSnapshot, Option.some.injEq] at hs
    subst hs
    dsimp only
    split <;> rfl
  | runJob k =>
    obtain ⟨ss, -, hu⟩ := step_runJob hs
    rw [hu]
    rfl
  | saveLogicalSnpObj s objId data =>
    obtain ⟨sm, hsave, rfl⟩ := step_saveLogicalSnpObj hs
    rcases StateMachine.saveLogicalSnpObj_ok hsave with
      ⟨-, rfl⟩ | ⟨text, t, entry, -, -, -, -, rfl⟩
    · rfl
    · rfl
  | applySnapshot s =>
    obtain ⟨t, rfl⟩ := step_applySnapshot hs
    rfl

/-- **Run lemma.**  A run that does not commit a payload at `i` leaves the result at `i` alone. -/
theorem run_mapReduceResults {guard : Replica → Action → Prop} {r t : Replica}
    {as : List Action} (hrun : Run step guard r as t) {i : UInt64} (hi : i ∉ commitIndices as) :
    t.sm.mapReduceResults[i]? = r.sm.mapReduceResults[i]? := by
  induction hrun with
  | refl => rfl
  | @cons r u t a as _ hs _ ih =>
    rw [← List.singleton_append, commitIndices_append, List.mem_append, not_or] at hi
    rw [ih hi.2, step_mapReduceResults hs hi.1]

/-! ## 2. What the client gets -/

/-- What a `commit` answers at once and files for later. -/
theorem commit_answers {sm sm' : StateMachine} {i : UInt64} {p : OpPayload} {ret : Str}
    (h : sm.commit i p = .ok (sm', ret)) :
    decodeReply ret = .ok (i, decide (p.type = .mapReduce)) ∧
    (p.type = .mapReduce → sm'.kvStore = sm.kvStore ∧
      p.mapReduce sm.kvStore = .ok (sm'.getMapReduceResults i)) := by
  obtain ⟨hc, rfl⟩ := commit_spec h
  refine ⟨decodeReply_reply i _, fun htype => ⟨?_, ?_⟩⟩
  · rw [hc.kvStore, Entry.apply, OpPayload.apply, htype]
  · have hsound : p.Sound := (commit_returns_iff sm i p).mp ⟨sm', _, h⟩
    obtain ⟨results, hok, hresults⟩ := Entry.results_payload htype hsound sm.kvStore
    rw [hok, StateMachine.getMapReduceResults, hc.results, if_pos rfl, hresults]
    rfl

/-- What was filed is found as long as the index is not committed again. -/
theorem getMapReduceResults_later {guard : Replica → Action → Prop} {r t : Replica}
    {as : List Action} (hrun : Run step guard r as t) {i : UInt64} (hi : i ∉ commitIndices as) :
    t.sm.getMapReduceResults i = r.sm.getMapReduceResults i := by
  rw [StateMachine.getMapReduceResults, run_mapReduceResults hrun hi]
  rfl

/-- What `handle_result` prints, whenever it gets to run: the index, and for a map-reduce the map
of the moment of the commit. -/
theorem handleResult_later {guard : Replica → Action → Prop} {r t : Replica} {sm : StateMachine}
    {i : UInt64} {p : OpPayload} {ret : Str} {as : List Action}
    (hcommit : r.sm.commit i p = .ok (sm, ret)) (hrun : Run step guard { r with sm } as t)
    (hi : i ∉ commitIndices as) :
    handleResult t.sm ⟨true, ret⟩ = .ok (.succeeded i
      (if p.type = .mapReduce then (p.mapReduce r.sm.kvStore).toOption else none)) := by
  obtain ⟨hreply, hmr⟩ := commit_answers hcommit
  unfold handleResult
  simp only [Bool.not_true, Bool.false_eq_true, if_false, hreply, decide_eq_true_eq]
  split
  · rename_i htype
    rw [(hmr htype).2, getMapReduceResults_later hrun hi]
    rfl
  · rfl

/-- **Results are those of the moment of the commit, at every later moment.**  In a run that
commits no index twice, the reply of a commit carries its index and whether there are results;
a map-reduce leaves the store alone, and however the run goes on, the results found under its
index are what `performMapReduce` gives on the store before it. -/
theorem results_pointInTime {asyncSnapshot : Bool} {as bs : List Action} {i : UInt64}
    {p : OpPayload} {t : Replica}
    (hrun : Run step (fun _ _ => True) (Replica.init asyncSnapshot) (as ++ .commit i p :: bs) t)
    (honce : (commitIndices (as ++ .commit i p :: bs)).Nodup) :
    ∃ r sm ret, Run step (fun _ _ => True) (Replica.init asyncSnapshot) as r ∧
      r.sm.commit i p = .ok (sm, ret) ∧
      Run step (fun _ _ => True) { r with sm } bs t ∧
      decodeReply ret = .ok (i, decide (p.type = .mapReduce)) ∧
      (p.type = .mapReduce → sm.kvStore = r.sm.kvStore ∧
        (MapReduce.new r.sm.kvStore).performMapReduce p.mapOp p.reduceOp p.keys
          = .ok (t.sm.getMapReduceResults i)) := by
  obtain ⟨r, hbefore, hrest⟩ := hrun.split
  cases hrest with
  | @cons _ u _ _ _ _ hs hafter =>
    have hi : i ∉ commitIndices bs := by
      rw [commitIndices_append, commitIndices_commit, List.nodup_append, List.nodup_cons] at honce
      exact honce.2.1.1
    obtain ⟨sm, ret, hcommit, rfl⟩ := step_commit hs
    obtain ⟨hreply, hmr⟩ := commit_answers hcommit
    refine ⟨r, sm, ret, hbefore, hcommit, hafter, hreply, fun htype => ?_⟩
    obtain ⟨hstore, hresults⟩ := hmr htype
    refine ⟨hstore, ?_⟩
    rw [getMapReduceResults_later hafter hi]
    exact hresults

end NuRaft

/-- The map-reduce at index 3, and an insertion and a snapshot after it. -/
theorem results_books : ∃ (r t : Replica) (sm : StateMachine) (ret : Str),
    @StateMachine.commit littleEndian r.sm 3 (booksPayload (str "square")) = .ok (sm, ret) ∧
    @decodeReply littleEndian ret = .ok (3, true) ∧ sm.kvStore = r.sm.kvStore ∧
    (MapReduce.new r.sm.kvStore).performMapReduce (str "square") (str "sum") [str "books"]
      = .ok (t.sm.getMapReduceResults 3) ∧
    t.sm.kvStore ≠ r.sm.kvStore := by
  let := littleEndian
  have hruns : ∃ t, Run step (fun _ _ => True) (Replica.init false)
      ([(booksLog 1).commitAt 1] ++ .commit 3 (booksPayload (str "square")) ::
        [(booksLog 2).commitAt 4, .createSnapshot ⟨4, 1⟩]) t ∧
      t.sm.kvStore = ⟨(∅ : Map _ _).insert (str "books") [3, 4]⟩ :=
    ⟨_, Run.cons trivial rfl (Run.cons trivial rfl (Run.cons trivial rfl
      (Run.cons trivial rfl (Run.refl _)))), by decide⟩
  obtain ⟨t, hrun, ht⟩ := hruns
  obtain ⟨r, sm, ret, hbefore, hcommit, -, hreply, hmr⟩ := results_pointInTime hrun (by decide)
  obtain ⟨hstore, hresults⟩ := hmr rfl
  refine ⟨r, t, sm, ret, hcommit, hreply, hstore, hresults, ?_⟩
  cases hbefore with
  | cons _ hs hrest =>
    cases hrest with
    | refl =>
      cases hs
      rw [ht]
      decide

end ReplicatedMapReduce
