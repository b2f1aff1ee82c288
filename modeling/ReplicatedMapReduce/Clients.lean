/-
# The cluster as its clients see it

A client types a command at the prompt of some server.  `append_log` hands the payload to NuRaft,
which puts the entry behind everything that has been committed so far; `handle_result` prints the
answer when the entry has been committed, or some time later.  In between other clients are served
by the same server or another one, and members commit, make snapshots and compact their logs.

All this the clients cannot tell from a single server that carries out one command after the other,
each at some moment between the call and the answer: what they see is linearizable
(`history_linearizable`).  The place of a command in that order is its place in the log.

A call for whose entry the cluster never agrees on a place comes to nothing, and is not part of the
history; nor is an answer that something went wrong, from which a client learns nothing.
-/
import ReplicatedMapReduce.SharedLedger

namespace ReplicatedMapReduce

open Memory Runs Linearizability

/-! ## 1. Calls and answers -/

/-- The cluster, and what its clients have seen of it so far. -/
structure System (ι : Type) where
  members : ι → Member
  history : List (HistoryEvent ℕ Command (Option Results))

def System.init {ι : Type} (dummy : ι → LogEntry) : System ι := ⟨fun k => Member.init (dummy k), []⟩

inductive SystemEvent (ι : Type)
  | member (k : ι) (e : MemberEvent)
  /-- `append_log` is called for a command, and NuRaft gives its entry an index. -/
  | appendLog (logIdx : UInt64) (c : Command)
  /-- `handle_result` is called on a server. -/
  | handleResult (k : ι) (result : RaftResult)

section NuRaft

variable [NuRaft] [LogBuffers] {ι : Type} [DecidableEq ι]

def systemStep (s : System ι) : SystemEvent ι → Option (System ι)
  | .member k e =>
    (interleave memberStep s.members (k, e)).map fun members => { s with members }
  | .appendLog logIdx c => some { s with history := s.history ++ [.invoked logIdx.toNat c] }
  | .handleResult k result =>
    match handleResult (s.members k).replica.sm result with
    | .ok (.succeeded logIdx results) =>
      some { s with history := s.history ++ [.responded logIdx.toNat results] }
    | .ok .failed => some s
    | .error _ => none

theorem systemStep_member {s : System ι} {k : ι} {e : MemberEvent} {u : Member}
    (h : memberStep (s.members k) e = some u) :
    systemStep s (.member k e)
      = some { s with members := Function.update s.members k u } := by
  rw [systemStep, interleave_eq h, Option.map_some]

variable (raftLog : ℕ → LogEntry) (agreed : ℕ → Option Command)

/-- What is relied on, beside that of the members (`Driven`).  An entry is committed after it was
appended, it is appended once and behind everything that has been committed, and the result of a
call is what a commit of its entry replies, as soon as the server has made that commit. -/
def Conducted (s : System ι) : SystemEvent ι → Prop
  | .member k e =>
    Driven raftLog (logOf agreed) (s.members k) e ∧
      (∀ payload mem, e = .commitNext payload mem →
        ∀ c, agreed (s.members k).nextCommit.toNat = some c →
        HistoryEvent.invoked (s.members k).nextCommit.toNat c ∈ s.history)
  | .appendLog logIdx c =>
    agreed logIdx.toNat = some c ∧ (∀ c', HistoryEvent.invoked logIdx.toNat c' ∉ s.history) ∧
      ∀ k, (s.members k).replica.sm.lastCommittedIdx < logIdx
  | .handleResult k result =>
    result.ok = true → ∃ (logIdx : UInt64) (c : Command) (sm sm' : StateMachine), 0 < logIdx ∧
      logIdx ≤ (s.members k).replica.sm.lastCommittedIdx ∧ agreed logIdx.toNat = some c ∧
      sm.commit logIdx c.payload = .ok (sm', result.buf) ∧
      ∀ results, HistoryEvent.responded logIdx.toNat results ∉ s.history

variable {raftLog agreed}

/-! ## 2. What the history says -/

omit [NuRaft] [LogBuffers] in
/-- What a member that has committed a command shows for it is what the command asks. -/
theorem Recorded.answered_command {r : Replica} (h : Recorded (logOf agreed) r) {j : UInt64}
    (hpos : 0 < j) (hj : j ≤ r.sm.lastCommittedIdx) {c : Command}
    (hc : agreed j.toNat = some c) :
    c.Answered (ledgerAt agreed (j.toNat - 1))
      (if c.payload.type = .mapReduce then some (r.sm.getMapReduceResults j) else none) := by
  have hanswered := answered_resultsAt hc
  split
  · rename_i htype
    rwa [h.getMapReduceResults hpos hj (logOf_of_some hc) htype] at hanswered
  · rename_i htype
    rwa [resultsAt, logOf_of_some hc, Entry.results, if_neg htype] at hanswered

/-- How far a member has committed after an event. -/
theorem lastCommittedIdx_memberStep {m m' : Member} {e : MemberEvent}
    (hs : memberStep m e = some m') :
    m'.replica.sm.lastCommittedIdx = m.replica.sm.lastCommittedIdx ∨
      (∃ payload mem, e = .commitNext payload mem) ∧
        m'.replica.sm.lastCommittedIdx = m.nextCommit := by
  cases e with
  | append entry =>
    cases hs
    exact Or.inl rfl
  | writeAt index entry =>
    cases hs
    exact Or.inl rfl
  | sync data =>
    cases hs
    exact Or.inl rfl
  | commitNext payload mem =>
    right
    refine ⟨⟨payload, mem, rfl⟩, ?_⟩
    simp only [memberStep] at hs
    split at hs
    · exact absurd hs (by simp)
    · rw [Option.map_eq_some_iff] at hs
      obtain ⟨u, hu, rfl⟩ := hs
      exact lastCommittedIdx_commitEntry hu
  | createSnapshot s =>
    simp only [memberStep, step, StateMachine.createSnapshot, Option.map_some,
      Option.some.injEq] at hs
    subst hs
    left
    dsimp only
    split <;> rfl
  | compact lastLogIndex =>
    simp only [memberStep, Option.map_eq_some_iff] at hs
    obtain ⟨logStore, -, rfl⟩ := hs
    exact Or.inl rfl

/-- **What there is to see of the cluster**: a command has been called for when it is committed, and
is committed when it is answered, with what it asks; and the order of time is that of the log. -/
structure Consistent (raftLog : ℕ → LogEntry) (agreed : ℕ → Option Command) (s : System ι) :
    Prop where
  members : ∀ k, ∃ w, InStep raftLog (logOf agreed) (s.members k) w
  invoked : ∀ k i c, 0 < i → i ≤ (s.members k).replica.sm.lastCommittedIdx.toNat →
    agreed i = some c → HistoryEvent.invoked i c ∈ s.history
  committed : ∀ i results, HistoryEvent.responded i results ∈ s.history →
    ∃ k, i ≤ (s.members k).replica.sm.lastCommittedIdx.toNat
  answered : ∀ i results, HistoryEvent.responded i results ∈ s.history →
    0 < i ∧ ∃ c, agreed i = some c ∧ c.Answered (ledgerAt agreed (i - 1)) results
  inTime : ∀ i j, Precedes s.history i j → i < j

namespace Consistent

variable {s s' : System ι}

omit [NuRaft] [LogBuffers] [DecidableEq ι] in
theorem init (raftLog : ℕ → LogEntry) (agreed : ℕ → Option Command) (dummy : ι → LogEntry) :
    Consistent raftLog agreed (System.init dummy) where
  members k := ⟨_, inStep_init raftLog (logOf agreed) (dummy k)⟩
  invoked k i c hpos hle := absurd hpos (Nat.not_lt.mpr hle)
  committed i results hmem := absurd hmem List.not_mem_nil
  answered i results hmem := absurd hmem List.not_mem_nil
  inTime := by
    rintro i j ⟨res, op, hsub⟩
    exact absurd (List.sublist_nil.mp hsub) (List.cons_ne_nil _ _)

/-- A member commits, or does something else that has nothing to do with clients. -/
theorem member (h : Consistent raftLog agreed s) {k : ι} {e : MemberEvent}
    (hg : Conducted raftLog agreed s (.member k e))
    (hs : systemStep s (.member k e) = some s') : Consistent raftLog agreed s' := by
  obtain ⟨hdriven, hcalled⟩ := hg
  simp only [systemStep, Option.map_eq_some_iff] at hs
  obtain ⟨members, hmembers, rfl⟩ := hs
  obtain ⟨hmoved, hothers⟩ := interleave_eq_some hmembers
  obtain ⟨w, hw⟩ := h.members k
  obtain ⟨v, hv⟩ := hw.event hdriven hmoved
  have hlast := lastCommittedIdx_memberStep hmoved
  have hnext := hw.toNat_nextCommit
  refine ⟨fun l => ?_, fun l i c hpos hle hc => ?_, fun i results hmem => ?_, h.answered,
    h.inTime⟩
  · by_cases hl : l = k
    · rw [hl]
      exact ⟨v, hv⟩
    · dsimp only
      rw [hothers l hl]
      exact h.members l
  · dsimp only at hle
    by_cases hl : l = k
    · rw [hl] at hle
      rcases hlast with hsame | ⟨⟨payload, mem, hcommitNext⟩, hcommit⟩
      · rw [hsame] at hle
        exact h.invoked k i c hpos hle hc
      · rw [hcommit, hnext] at hle
        rcases Nat.le_or_eq_of_le_succ hle with hle | heq
        · exact h.invoked k i c hpos hle hc
        · -- the entry that is committed now
          rw [Nat.succ_eq_add_one, ← hnext] at heq
          rw [heq] at hc ⊢
          exact hcalled payload mem hcommitNext c hc
    · rw [hothers l hl] at hle
      exact h.invoked l i c hpos hle hc
  · obtain ⟨l, hle⟩ := h.committed i results hmem
    refine ⟨l, ?_⟩
    dsimp only
    by_cases hl : l = k
    · rw [hl] at hle ⊢
      rcases hlast with hsame | ⟨-, hcommit⟩
      · rw [hsame]
        exact hle
      · rw [hcommit, hnext]
        exact Nat.le_succ_of_le hle
    · rw [hothers l hl]
      exact hle

omit [DecidableEq ι] in
/-- A command is called for. -/
theorem appendLog (h : Consistent raftLog agreed s) {logIdx : UInt64} {c : Command}
    (hg : Conducted raftLog agreed s (.appendLog logIdx c)) :
    Consistent raftLog agreed
      { s with history := s.history ++ [.invoked logIdx.toNat c] } := by
  obtain ⟨-, -, hbehind⟩ := hg
  have hold : ∀ i results, HistoryEvent.responded i results
      ∈ s.history ++ [HistoryEvent.invoked logIdx.toNat c] →
      HistoryEvent.responded i results ∈ s.history := by
    intro i results hmem
    simpa using hmem
  refine ⟨h.members,
    fun k i c' hpos hle hc' => List.mem_append_left _ (h.invoked k i c' hpos hle hc'),
    fun i results hmem => h.committed i results (hold i results hmem),
    fun i results hmem => h.answered i results (hold i results hmem), fun i j hprecedes => ?_⟩
  rcases precedes_append_iff.mp hprecedes with hprecedes | ⟨⟨c', hc'⟩, results, hmem⟩
  · exact h.inTime i j hprecedes
  · -- what has been answered has been committed, and the new entry is behind that
    obtain ⟨k, hle⟩ := h.committed i results hmem
    cases hc'
    exact lt_of_le_of_lt hle (UInt64.lt_iff_toNat_lt.mp (hbehind k))

/-- An answer is printed. -/
theorem handleResult (h : Consistent raftLog agreed s) {k : ι} {result : RaftResult}
    (hg : Conducted raftLog agreed s (.handleResult k result))
    (hs : systemStep s (.handleResult k result) = some s') :
    Consistent raftLog agreed s' := by
  cases hok : result.ok with
  | false =>
    simp only [systemStep, ReplicatedMapReduce.handleResult, hok, Bool.not_false, if_true,
      Option.some.injEq] at hs
    exact hs ▸ h
  | true =>
    obtain ⟨logIdx, c, sm, sm', hpos, hle, hc, hcommit, -⟩ := hg hok
    obtain ⟨hreply, -⟩ := commit_answers hcommit
    simp only [systemStep, ReplicatedMapReduce.handleResult, hok, Bool.not_true,
      Bool.false_eq_true, if_false, hreply, decide_eq_true_eq, Option.some.injEq] at hs
    subst hs
    obtain ⟨w, hw⟩ := h.members k
    have hanswered := hw.recorded.answered_command hpos hle hc
    refine ⟨h.members,
      fun k i c' hi hle' hc' => List.mem_append_left _ (h.invoked k i c' hi hle' hc'),
      fun i results hmem => ?_, fun i results hmem => ?_, fun i j hprecedes => ?_⟩
    · rcases List.mem_append.mp hmem with hmem | hmem
      · exact h.committed i results hmem
      · cases List.mem_singleton.mp hmem
        exact ⟨k, UInt64.le_iff_toNat_le.mp hle⟩
    · rcases List.mem_append.mp hmem with hmem | hmem
      · exact h.answered i results hmem
      · cases List.mem_singleton.mp hmem
        exact ⟨UInt64.lt_iff_toNat_lt.mp hpos, c, hc, hanswered⟩
    · rcases precedes_append_iff.mp hprecedes with hprecedes | ⟨⟨c', hc'⟩, -⟩
      · exact h.inTime i j hprecedes
      · cases hc'

/-- **Step lemma.** -/
theorem step (h : Consistent raftLog agreed s) {e : SystemEvent ι}
    (hg : Conducted raftLog agreed s e) (hs : systemStep s e = some s') :
    Consistent raftLog agreed s' := by
  cases e with
  | member k e => exact h.member hg hs
  | appendLog logIdx c =>
    cases hs
    exact h.appendLog hg
  | handleResult k result => exact h.handleResult hg hs

end Consistent

/-- **What the clients see is linearizable**, in every interleaving of their calls, the answers they
get on whatever server, and the events of the members. -/
theorem history_linearizable {dummy : ι → LogEntry} {es : List (SystemEvent ι)} {s : System ι}
    (hrun : Run systemStep (Conducted raftLog agreed) (System.init dummy) es s) :
    Linearizable ledgerObject s.history := by
  have h : Consistent raftLog agreed s :=
    hrun.invariant (fun _ _ _ hi hg hs => hi.step hg hs) (Consistent.init raftLog agreed dummy)
  refine linearizable_of_log h.answered (fun i results hmem j c hpos hle hc => ?_) h.inTime
  obtain ⟨k, hk⟩ := h.committed i results hmem
  exact h.invoked k j c hpos (Nat.le_trans hle hk) hc

end NuRaft

/-- A map-reduce, and an insertion behind it in the log. -/
def booksCalls : ℕ → Option Command
  | 1 => some (.mapReduce .square .sum [str "books"])
  | 2 => some (.add (str "books") 3)
  | _ => none

/-- The entries that are appended for them. -/
def callsLog : ℕ → LogEntry
  | 1 => promptLog 3
  | 2 => promptLog 1
  | _ => entryOf ""

theorem called_of_nextCommit {agreed : ℕ → Option Command} {m : Member} {i : ℕ} {c : Command}
    {history : List (HistoryEvent ℕ Command (Option Results))} (hi : m.nextCommit.toNat = i)
    (hc : agreed i = some c) (hmem : HistoryEvent.invoked i c ∈ history) :
    ∀ c', agreed m.nextCommit.toNat = some c' →
      HistoryEvent.invoked m.nextCommit.toNat c' ∈ history := by
  intro c' hc'
  rw [hi, hc, Option.some.injEq] at hc'
  rw [hi, ← hc']
  exact hmem

/-- The insertion is answered first, and yet the map-reduce does not see it. -/
theorem history_linearizable_books : ∃ s : System Unit,
    s.history = [.invoked 1 (.mapReduce .square .sum [str "books"]),
      .invoked 2 (.add (str "books") 3), .responded 2 none,
      .responded 1 (some ((∅ : Map Str Int32).insert (str "books") 0))] ∧
    Linearizable ledgerObject s.history := by
  let := littleEndian
  let := littleEndianEntries
  have hroom : ∀ n, n < 10 → n + 1 < 2 ^ 64 := by
    intro n hn
    omega
  have hrun : ∃ s, Run systemStep (Conducted callsLog booksCalls)
      (System.init fun _ : Unit => entryOf "")
      [.appendLog 1 (.mapReduce .square .sum [str "books"]), .appendLog 2 (.add (str "books") 3),
        .member () (.append (callsLog 1)), .member () (.append (callsLog 2)),
        .member () (.commitNext 8192 promptMem), .member () (.commitNext 8192 promptMem),
        .handleResult () ⟨true, StateMachine.reply 2 false⟩,
        .handleResult () ⟨true, StateMachine.reply 1 true⟩] s ∧
      s.history = [.invoked 1 (.mapReduce .square .sum [str "books"]),
        .invoked 2 (.add (str "books") 3), .responded 2 none,
        .responded 1 (some ((∅ : Map Str Int32).insert (str "books") 0))] := by
    have hbehind : (0 : UInt64) < 1 ∧ (0 : UInt64) < 2 := by decide
    have hother : ¬ 1 = leValue ((StateMachine.reply 2 false).take 8) % 2 ^ 64 := by decide
    refine ⟨_, Run.cons ⟨rfl, by simp [System.init], fun _ => hbehind.1⟩ rfl
      (Run.cons ⟨rfl, by simp [System.init], fun _ => hbehind.2⟩ rfl
      (Run.cons ⟨hroom 1 (by decide), by simp⟩ rfl
      (Run.cons ⟨hroom 2 (by decide), by simp⟩ rfl
      (Run.cons ⟨driven_promptLog (i := 3) (by decide) (by decide) (by decide) rfl rfl rfl,
          fun _ _ _ => called_of_nextCommit rfl rfl (by decide)⟩
        (systemStep_member (memberStep_promptLog (i := 3) (by decide) (by decide) rfl rfl))
      (Run.cons ⟨driven_promptLog (i := 1) (by decide) (by decide) (by decide) rfl rfl rfl,
          fun _ _ _ => called_of_nextCommit rfl rfl (by decide)⟩
        (systemStep_member (memberStep_promptLog (i := 1) (by decide) (by decide) rfl rfl))
      (Run.cons (fun _ => ⟨2, .add (str "books") 3, StateMachine.init false, _, by decide,
        by decide, rfl, rfl, by simp [System.init]⟩) rfl
      (Run.cons (fun _ => ⟨1, .mapReduce .square .sum [str "books"], StateMachine.init false, _,
        by decide, by decide, rfl, rfl, by simpa [System.init] using hother⟩) rfl
      (Run.refl _)))))))), by decide⟩
  obtain ⟨s, hrun, hhistory⟩ := hrun
  exact ⟨s, hhistory, history_linearizable hrun⟩

end ReplicatedMapReduce
