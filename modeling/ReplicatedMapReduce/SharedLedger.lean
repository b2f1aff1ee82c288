/-
# One ledger

To its clients the cluster is one `Ledger`, although every member has a store of its own, gets to
the entries of the log in its own time, and forgets entries and snapshots when it likes.  The
commands the log has been agreed to hold are carried out on the ledger one after the other
(`ledgerAt`); a member is a view of it, as of its last commit, and answers every map-reduce it
still has an answer to with what the ledger was at the place of that command in the log
(`one_ledger`).
-/
import ReplicatedMapReduce.Service
import ReplicatedMapReduce.Cluster
import ReplicatedMapReduce.Foundation.Linearizability

namespace ReplicatedMapReduce

open Runs

/-! ## 1. The log as commands -/

/-- The log in which at each index a command has been agreed on, or a configuration. -/
def logOf (agreed : ℕ → Option Command) (i : ℕ) : Entry :=
  match agreed i with
  | some c => .payload c.payload
  | none => .config

/-- The ledger as a single server would keep it. -/
def ledgerObject : Linearizability.Object Command Ledger (Option Results) where
  init := fun _ => 0
  effect := Command.effect
  answers b c results := c.Answered b results

/-- The ledger after the commands up to an index. -/
def ledgerAt (agreed : ℕ → Option Command) (i : ℕ) : Ledger :=
  Linearizability.stateAt ledgerObject agreed i

theorem logOf_of_some {agreed : ℕ → Option Command} {i : ℕ} {c : Command}
    (h : agreed i = some c) : logOf agreed i = .payload c.payload := by
  rw [logOf, h]

/-- **The stores the log makes are the ledger.** -/
theorem ledger_storeAt (agreed : ℕ → Option Command) (i : ℕ) :
    (storeAt (logOf agreed) i).ledger = ledgerAt agreed i := by
  induction i with
  | zero => exact ledger_empty
  | succ i ih =>
    rw [storeAt, logOf, ledgerAt, Linearizability.stateAt]
    cases agreed (i + 1) with
    | some c =>
      rw [Entry.apply, c.ledger_apply, ih]
      rfl
    | none => exact ih

/-- What the log defines as the results of a command is what the command asks of the ledger. -/
theorem answered_resultsAt {agreed : ℕ → Option Command} {j : ℕ} {c : Command}
    (h : agreed j = some c) :
    c.Answered (ledgerAt agreed (j - 1)) (resultsAt (logOf agreed) j) := by
  rw [resultsAt, logOf_of_some h, ← ledger_storeAt]
  exact c.answered_of_payload _

/-! ## 2. The members -/

/-- **The cluster is one ledger.**  In every interleaving of the members' events, the store of each
member is the ledger as of its last commit.  The answer it has to a map-reduce it has committed is
what the ledger before that command comes to, whatever has been committed, made a snapshot of or
compacted since. -/
theorem one_ledger [NuRaft] [LogBuffers] {raftLog : ℕ → LogEntry}
    {agreed : ℕ → Option Command} {ι : Type} [DecidableEq ι] {dummy : ι → LogEntry}
    {es : List (ι × MemberEvent)} {c : ι → Member}
    (hrun : Run (interleave memberStep) (fun c e => Driven raftLog (logOf agreed) (c e.1) e.2)
      (fun k => Member.init (dummy k)) es c) (a : ι) :
    (c a).replica.sm.kvStore.ledger
      = ledgerAt agreed (c a).replica.sm.lastCommittedIdx.toNat ∧
    ∀ (j : UInt64) (m : MapOp) (r : ReduceOp) (keys : List Str), 0 < j →
      j ≤ (c a).replica.sm.lastCommittedIdx → agreed j.toNat = some (.mapReduce m r keys) →
      ∀ key : Str, ((c a).replica.sm.getMapReduceResults j)[key]? = if key ∈ keys
        then some (Int32.ofInt (r.totalBag ((ledgerAt agreed (j.toNat - 1) key).map m.exact)))
        else none := by
  obtain ⟨w, hw⟩ := inStep_of_run (hrun.project a)
  constructor
  · have htracks := hw.recorded.tracks
    rw [TracksLog] at htracks
    rw [htracks, ledger_storeAt]
  · intro j m r keys hpos hj hagreed key
    have hresults := hw.recorded.getMapReduceResults hpos hj (logOf_of_some hagreed) rfl
    obtain ⟨answer, hanswer, hget⟩ := answered_resultsAt hagreed
    rw [hresults, Option.some.injEq] at hanswer
    rw [hanswer, hget]

/-- The commands of the runs on concrete inputs. -/
def booksAgreed : ℕ → Option Command
  | 1 => some (.add (str "books") 3)
  | 2 => some (.add (str "books") 4)
  | 3 => some (.mapReduce .square .sum [str "books"])
  | _ => none

/-- A member that has forgotten the first entry still answers `3 * 3 + 4 * 4`. -/
theorem one_ledger_books : ∃ c : Unit → Member,
    (c ()).logStore.startIdx = 2 ∧
    ((c ()).replica.sm.getMapReduceResults 3)[str "books"]? = some 25 := by
  let := littleEndian
  let := littleEndianEntries
  obtain ⟨m, hrun, hstart, -, hlast, -⟩ := @run_promptLog (logOf booksAgreed) rfl rfl rfl
  have hcluster := Run.alone (k := ()) (s := fun _ => Member.init (entryOf "")) hrun
  obtain ⟨c, hc⟩ : ∃ c, c = Function.update (fun _ => Member.init (entryOf "")) () m := ⟨_, rfl⟩
  have hm : c () = m := by rw [hc, Function.update_self]
  rw [← hc] at hcluster
  have hcommitted : (3 : UInt64) ≤ (c ()).replica.sm.lastCommittedIdx := by
    rw [hm, hlast]
    decide
  have hanswer := (one_ledger hcluster ()).2 3 .square .sum [str "books"] (by decide) hcommitted
    rfl (str "books")
  exact ⟨c, by rw [hm, hstart], hanswer.trans (by decide)⟩

end ReplicatedMapReduce
