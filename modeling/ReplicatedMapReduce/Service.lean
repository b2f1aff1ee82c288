/-
# The service

What the program is for, from the client's side.  A store is a `Ledger`, a bag of numbers under each
key.  There are four commands: one adds a number, one takes a number out, one empties a key, and
`mapReduce` asks for the sum or the product of the squares, doubles or triples of what is under some
keys.  Answers are `int`s, so they are the exact numbers modulo `2 ^ 32`.

`script_served` says that this is what a client gets who types commands at the prompt of a leader.
It takes the bytes of the lines, however spaced, through `tokenize`, `do_cmd` and the handlers to
the payloads; the payloads through `commit`, mixed with whatever else NuRaft asks of the state
machine; and the replies through `handle_result`, which may get to run long after, when later
commands have been committed.  Only a snapshot must not be applied in the meantime.  Between the
prompt and `commit` the payloads are handed over as they are, as values that own their strings: the
log entries they are copied into and out of (`LogCodec.lean`) are left out.
-/
import ReplicatedMapReduce.CommandLine
import ReplicatedMapReduce.Arithmetic
import ReplicatedMapReduce.Results
import Mathlib.Algebra.BigOperators.Group.Multiset.Basic

namespace ReplicatedMapReduce

open Runs Words

/-! ## 1. Commands and their meaning -/

/-- A bag of numbers under each key. -/
abbrev Ledger := Bags Str ℤ

/-- The commands on the store. -/
inductive Command
  | add (key : Str) (value : Int32)
  | remove (key : Str) (value : Int32)
  | removeKey (key : Str)
  | mapReduce (m : MapOp) (r : ReduceOp) (keys : List Str)
  deriving DecidableEq

/-- A whole bag at once. -/
def ReduceOp.totalBag : ReduceOp → Multiset ℤ → ℤ
  | sum => Multiset.sum
  | product => Multiset.prod

namespace Command

def effect : Command → Ledger → Ledger
  | add key value, b => b.add key value.toInt
  | remove key value, b => b.remove key value.toInt
  | removeKey key, b => b.clear key
  | mapReduce _ _ _, b => b

/-- The results the client is to be shown: for a map-reduce one number under each of its keys, and
none for the other commands. -/
def Answered (b : Ledger) (results : Option Results) : Command → Prop
  | add _ _ => results = none
  | remove _ _ => results = none
  | removeKey _ => results = none
  | mapReduce m r keys => ∃ answer, results = some answer ∧ ∀ key : Str, answer[key]? =
      if key ∈ keys then some (Int32.ofInt (r.totalBag ((b key).map m.exact))) else none

/-- The payload of the command. -/
def payload : Command → OpPayload
  | add key value => { type := .insertValue, key, value }
  | remove key value => { type := .deleteValue, key, value }
  | removeKey key => { type := .deleteKey, key, value := 0 }
  | mapReduce m r keys => mapReducePayload m.name r.name keys

/-- The tokens that stand for a command: those of the help text, with any numeral for a number. -/
inductive Written : Command → List Str → Prop
  | store {c : Command} {tokens : List Str} : Documented tokens c.payload → Written c tokens
  | mapReduce {m : MapOp} {r : ReduceOp} {keys : List Str} :
      keys ≠ [] → (∀ key ∈ keys, Plain key) →
      Written (.mapReduce m r keys) (mapReducePayload m.name r.name keys).tokens

/-- A line for a command: its tokens, with as many spaces as one likes. -/
def Shows (line : Str) (c : Command) : Prop :=
  ∃ tokens, c.Written tokens ∧ Spaced ' '.toUInt8 tokens line ∧ '\n'.toUInt8 ∉ line ∧
    (0 : UInt8) ∉ line ∧ line.length < 1000

/-- What a sequence of commands makes of an empty ledger. -/
def ledgerAfter (cs : List Command) : Ledger := cs.foldl (fun b c => c.effect b) fun _ => 0

end Command

/-! ## 2. The store as a ledger -/

def KeyValueStore.ledger (s : KeyValueStore) : Ledger := s.bags.map Int32.toInt

theorem toInt_injective : Function.Injective Int32.toInt := fun _ _ h => Int32.toInt_inj.mp h

theorem ledger_empty : (∅ : KeyValueStore).ledger = Command.ledgerAfter [] := by
  funext key
  simp [KeyValueStore.ledger, Bags.map, KeyValueStore.bags, KeyValueStore.values,
    Command.ledgerAfter]

/-- **The payload of a command does to the store what the command does to the ledger.** -/
theorem Command.ledger_apply (c : Command) (s : KeyValueStore) :
    (c.payload.apply s).ledger = c.effect s.ledger := by
  rw [KeyValueStore.ledger, bags_apply]
  cases c with
  | add key value => exact Bags.map_add Int32.toInt s.bags key value
  | remove key value => exact Bags.map_remove toInt_injective s.bags key value
  | removeKey key => exact Bags.map_clear Int32.toInt s.bags key
  | mapReduce m r keys => rfl

theorem exactMapReduce_eq_totalBag (m : MapOp) (r : ReduceOp) (s : KeyValueStore) (key : Str) :
    exactMapReduce m r (s.integers key) = r.totalBag ((s.ledger key).map m.exact) := by
  have hbag : (s.ledger key).map m.exact = ↑((s.integers key).map m.exact) := rfl
  rw [hbag, exactMapReduce]
  cases r with
  | sum => exact (Multiset.sum_coe _).symm
  | product => exact (Multiset.prod_coe _).symm

/-- **And it answers what the command asks.** -/
theorem Command.answered_of_payload (c : Command) (s : KeyValueStore) :
    c.Answered s.ledger
      (if c.payload.type = .mapReduce then (c.payload.mapReduce s).toOption else none) := by
  cases c with
  | add key value => rfl
  | remove key value => rfl
  | removeKey key => rfl
  | mapReduce m r keys =>
    obtain ⟨results, hok, hget⟩ := performMapReduce_getElem? s m r keys
    have hmr : (Command.mapReduce m r keys).payload.mapReduce s = .ok results := hok
    refine ⟨results, ?_, fun key => ?_⟩
    · rw [hmr]
      rfl
    · rw [hget, exactMapReduce_eq_totalBag]

/-- It can always be committed. -/
theorem Command.sound_payload (c : Command) : c.payload.Sound := by
  intro htype
  cases c with
  | add key value => exact OpType.noConfusion htype
  | remove key value => exact OpType.noConfusion htype
  | removeKey key => exact OpType.noConfusion htype
  | mapReduce m r keys =>
    have hm : m.name ∈ MapReduce.mapOps := by cases m <;> decide
    have hr : r.name ∈ MapReduce.reduceOps := by cases r <;> decide
    exact ⟨hm, hr⟩

theorem Command.ledger_foldl (cs : List Command) (s : KeyValueStore) :
    ((cs.map Command.payload).foldl (fun s p => p.apply s) s).ledger
      = cs.foldl (fun b c => c.effect b) s.ledger := by
  induction cs generalizing s with
  | nil => rfl
  | cons c cs ih => rw [List.map_cons, List.foldl_cons, ih, c.ledger_apply, List.foldl_cons]

/-! ## 3. From the lines to the payloads -/

theorem Command.Written.doCmd {c : Command} {tokens : List Str} (h : c.Written tokens) :
    doCmd tokens = .ok (.reaction (.appendLog c.payload)) := by
  cases h with
  | store hdocumented => exact doCmd_documented hdocumented
  | @mapReduce m r keys hkeys hplain =>
    have hm : m.name ≠ [] := by cases m <;> decide
    have hr : r.name ≠ [] := by cases r <;> decide
    exact doCmd_mapReduce_groups hm hr hkeys hplain

/-- The text of a script. -/
def scriptText (script : List (Str × Command)) : Str :=
  Getline.unlines '\n'.toUInt8 (script.map Prod.fst)

/-- **A script appends the payloads of its commands**, and then its end is reached. -/
theorem loop_script {script : List (Str × Command)} (h : ∀ e ∈ script, e.2.Shows e.1) :
    loop (scriptText script)
      = ⟨(script.map fun e => e.2.payload).map fun p => .reaction (.appendLog p),
          .getlineFailed⟩ := by
  have hlines : ∀ l ∈ script.map Prod.fst, '\n'.toUInt8 ∉ l ∧ l.length < 1000 := by
    intro l hl
    obtain ⟨e, he, rfl⟩ := List.mem_map.mp hl
    obtain ⟨tokens, -, -, hline, -, hlen⟩ := h e he
    exact ⟨hline, hlen⟩
  rw [scriptText, loop_unlines hlines]
  refine doCmds_appendLog ?_
  rw [List.map_map, List.forall₂_map_left_iff, List.forall₂_map_right_iff, List.forall₂_same]
  intro e he
  obtain ⟨tokens, hwritten, hspaced, -, hnul, -⟩ := h e he
  rw [Function.comp_apply, tokenize_of_spaced hnul hspaced]
  exact hwritten.doCmd

/-- The payloads a script appends. -/
theorem appended_script {script : List (Str × Command)} (hscript : ∀ e ∈ script, e.2.Shows e.1) :
    (loop (scriptText script)).appended = (script.map Prod.snd).map Command.payload := by
  rw [loop_script hscript, appended_mk, List.map_map]
  rfl

/-! ## 4. From the payloads to the answers -/

def Action.payload? : Action → Option OpPayload
  | .commit _ p => some p
  | .commitConfig _ => none
  | .createSnapshot _ => none
  | .runJob _ => none
  | .saveLogicalSnpObj _ _ _ => none
  | .applySnapshot _ => none

/-- The payloads that are committed, in order. -/
def committedPayloads (as : List Action) : List OpPayload := as.filterMap Action.payload?

/-- Nothing but `apply_snapshot` replaces the store. -/
def KeepsStore (_r : Replica) (a : Action) : Prop := ∀ s, a ≠ .applySnapshot s

section NuRaft

variable [NuRaft]

/-- **Step lemma.**  Only a commit changes the store. -/
theorem step_kvStore {r u : Replica} {a : Action} (ha : KeepsStore r a) (hs : step r a = some u) :
    u.sm.kvStore = a.payload?.elim r.sm.kvStore fun p => p.apply r.sm.kvStore := by
  cases a with
  | commit i p =>
    have hcommit : step r ((Entry.payload p).commitAt i) = some u := hs
    exact (step_commitAt hcommit).1.kvStore
  | commitConfig i =>
    cases hs
    rfl
  | createSnapshot s =>
    simp only [step, StateMachine.createSnapshot, Option.some.injEq] at hs
    subst hs
    dsimp only
    split <;> rfl
  | runJob k =>
    obtain ⟨ss, -, hu⟩ := step_runJob hs
    rw [hu]
    rfl
  | saveLogicalSnpObj s objId data =>
    obtain ⟨sm, hsave, rfl⟩ := step_saveLogicalSnpObj hs
    rcases StateMachine.saveLogicalSnpObj_ok hsave with
      ⟨-, rfl⟩ | ⟨text, t, entry, -, -, -, -, rfl⟩
    · rfl
    · rfl
  | applySnapshot s => exact absurd rfl (ha s)

/-- **Run lemma.**  The store is what the committed payloads make of it. -/
theorem run_kvStore {r t : Replica} {as : List Action} (hrun : Run step KeepsStore r as t) :
    t.sm.kvStore = (committedPayloads as).foldl (fun s p => p.apply s) r.sm.kvStore := by
  induction hrun with
  | refl => rfl
  | @cons r u t a as hg hs _ ih =>
    rw [ih, step_kvStore hg hs, committedPayloads, committedPayloads, List.filterMap_cons]
    cases a.payload? <;> rfl

/-- If the payloads are those of some commands, the ledger is what these make of it. -/
theorem ledger_of_run {asyncSnapshot : Bool} {t : Replica} {as : List Action} {cs : List Command}
    (hrun : Run step KeepsStore (Replica.init asyncSnapshot) as t)
    (hcs : committedPayloads as = cs.map Command.payload) :
    t.sm.kvStore.ledger = Command.ledgerAfter cs := by
  have hinit : (Replica.init asyncSnapshot).sm.kvStore.ledger = Command.ledgerAfter [] :=
    ledger_empty
  rw [run_kvStore hrun, hcs, Command.ledger_foldl, hinit]
  rfl

/-- **What a client is answered.**  In a run that commits initial parts of the payloads of some
commands, no index twice and without applying a snapshot, the reply of each commit tells, whenever
it is handled, the index and the results its command asks of the ledger that the commands before it
have made; and the store is the ledger that all commands so far have made. -/
theorem served_of_run {cs : List Command} {asyncSnapshot : Bool} {as bs : List Action} {i : UInt64}
    {p : OpPayload} {t : Replica}
    (hrun : Run step KeepsStore (Replica.init asyncSnapshot) (as ++ .commit i p :: bs) t)
    (honce : (commitIndices (as ++ .commit i p :: bs)).Nodup)
    (hsession : committedPayloads (as ++ .commit i p :: bs) <+: cs.map Command.payload) :
    ∃ r sm ret c results, Run step KeepsStore (Replica.init asyncSnapshot) as r ∧
      r.sm.commit i p = .ok (sm, ret) ∧ cs[(committedPayloads as).length]? = some c ∧
      handleResult t.sm ⟨true, ret⟩ = .ok (.succeeded i results) ∧
      c.Answered (Command.ledgerAfter (cs.take (committedPayloads as).length)) results ∧
      t.sm.kvStore.ledger
        = Command.ledgerAfter (cs.take (committedPayloads (as ++ .commit i p :: bs)).length) := by
  have hwhole : committedPayloads (as ++ .commit i p :: bs)
      = committedPayloads as ++ p :: committedPayloads bs := List.filterMap_append
  have htake := List.prefix_iff_eq_take.mp hsession
  rw [← List.map_take] at htake
  obtain ⟨c, hc, rfl⟩ : ∃ c, cs[(committedPayloads as).length]? = some c ∧ c.payload = p := by
    obtain ⟨rest, hrest⟩ := hsession
    have hget : (cs.map Command.payload)[(committedPayloads as).length]? = some p := by
      rw [← hrest, hwhole, List.append_assoc, List.getElem?_append_right (le_refl _), Nat.sub_self]
      rfl
    rw [List.getElem?_map, Option.map_eq_some_iff] at hget
    exact hget
  have hbefore : committedPayloads as
      = (cs.take (committedPayloads as).length).map Command.payload := by
    have hprefix := (List.prefix_append (committedPayloads as)
      (c.payload :: committedPayloads bs)).trans (hwhole ▸ hsession)
    rw [List.map_take]
    exact List.prefix_iff_eq_take.mp hprefix
  obtain ⟨r, hrunAs, hrest⟩ := hrun.split
  cases hrest with
  | @cons _ u _ _ _ _ hs hafter =>
    have hi : i ∉ commitIndices bs := by
      rw [commitIndices_append, commitIndices_commit, List.nodup_append, List.nodup_cons]
        at honce
      exact honce.2.1.1
    obtain ⟨sm, ret, hcommit, rfl⟩ := step_commit hs
    have hreport := handleResult_later hcommit hafter hi
    refine ⟨r, sm, ret, c, _, hrunAs, hcommit, hc, hreport, ?_, ledger_of_run hrun htake⟩
    rw [← ledger_of_run hrunAs hbefore]
    exact c.answered_of_payload r.sm.kvStore

/-- **Commands are served.**  A script typed at the prompt is read to its end, and no payload it
appends makes `commit` throw.  In every run of the state machine that commits initial parts of them,
no index twice and without applying a snapshot, the reply of each commit tells the client, whenever
it is handled, the index and the results the command asks of the ledger that the commands before it
have made; and the store is the ledger that all commands so far have made. -/
theorem script_served {script : List (Str × Command)} (hscript : ∀ e ∈ script, e.2.Shows e.1) :
    (loop (scriptText script)).ending = .getlineFailed ∧
    (∀ p ∈ (loop (scriptText script)).appended, ∀ (sm : StateMachine) (i : UInt64),
      ∃ sm' ret, sm.commit i p = .ok (sm', ret)) ∧
    ∀ (asyncSnapshot : Bool) (as bs : List Action) (i : UInt64) (p : OpPayload) (t : Replica),
      Run step KeepsStore (Replica.init asyncSnapshot) (as ++ .commit i p :: bs) t →
      (commitIndices (as ++ .commit i p :: bs)).Nodup →
      committedPayloads (as ++ .commit i p :: bs) <+: (loop (scriptText script)).appended →
      ∃ r sm ret c results, Run step KeepsStore (Replica.init asyncSnapshot) as r ∧
        r.sm.commit i p = .ok (sm, ret) ∧
        (script.map Prod.snd)[(committedPayloads as).length]? = some c ∧
        handleResult t.sm ⟨true, ret⟩ = .ok (.succeeded i results) ∧
        c.Answered (Command.ledgerAfter
          ((script.map Prod.snd).take (committedPayloads as).length)) results ∧
        t.sm.kvStore.ledger = Command.ledgerAfter
          ((script.map Prod.snd).take (committedPayloads (as ++ .commit i p :: bs)).length) := by
  refine ⟨by rw [loop_script hscript], fun p hp sm i => ?_,
    fun asyncSnapshot as bs i p t hrun honce hsession => ?_⟩
  · rw [appended_script hscript] at hp
    obtain ⟨c, -, rfl⟩ := List.mem_map.mp hp
    exact (commit_returns_iff sm i c.payload).mpr c.sound_payload
  · rw [appended_script hscript] at hsession
    exact served_of_run hrun honce hsession

end NuRaft

/-- Two insertions, one of them spaced and signed as nobody would, and a map-reduce. -/
def booksScript : List (Str × Command) :=
  [(str "+ books 3", .add (str "books") 3), (str "  +   books +04 ", .add (str "books") 4),
    (str "mapReduce --m square --r sum --k books", .mapReduce .square .sum [str "books"])]

theorem shows_booksScript : ∀ e ∈ booksScript, e.2.Shows e.1 := by
  have hthree : Decimal.Numeral (str "3") (3 : Int32).toInt :=
    .unsigned (by decide) (List.all_eq_true.mp (by decide))
  have hfour : Decimal.Numeral (str "+04") (4 : Int32).toInt :=
    .plus (by decide) (List.all_eq_true.mp (by decide))
  intro e he
  simp only [booksScript, List.mem_cons, List.not_mem_nil, or_false] at he
  rcases he with rfl | rfl | rfl
  · exact ⟨_, .store (.add _ hthree), words_eq_iff.mp (by decide), by decide, by decide, by decide⟩
  · exact ⟨_, .store (.add _ hfour), words_eq_iff.mp (by decide), by decide, by decide, by decide⟩
  · exact ⟨_, .mapReduce (by decide) (by decide), words_eq_iff.mp (by decide), by decide,
      by decide, by decide⟩

/-- The map-reduce answers `3 * 3 + 4 * 4`, although its reply is handled after a snapshot. -/
theorem script_books : ∃ (t : Replica) (ret : Str) (answer : Results),
    @handleResult littleEndian t.sm ⟨true, ret⟩ = .ok (.succeeded 3 (some answer)) ∧
    answer[str "books"]? = some 25 := by
  let := littleEndian
  have hrun : ∃ t, Run step KeepsStore (Replica.init false)
      ([.commit 1 (insertBooks 3), .commit 2 (insertBooks 4)] ++
        .commit 3 (booksPayload (str "square")) :: [.createSnapshot ⟨3, 1⟩]) t :=
    ⟨_, Run.cons (fun _ => Action.noConfusion) rfl (Run.cons (fun _ => Action.noConfusion) rfl
      (Run.cons (fun _ => Action.noConfusion) rfl
      (Run.cons (fun _ => Action.noConfusion) rfl (Run.refl _))))⟩
  obtain ⟨t, hrun⟩ := hrun
  obtain ⟨r, sm, ret, c, results, -, -, hc, hreport, hanswered, -⟩ :=
    (script_served shows_booksScript).2.2 false _ _ _ _ t hrun (by decide) (by decide)
  have hc' : c = .mapReduce .square .sum [str "books"] := by
    cases hc
    rfl
  rw [hc'] at hanswered
  obtain ⟨answer, rfl, hanswer⟩ := hanswered
  exact ⟨t, ret, answer, hreport, (hanswer (str "books")).trans (by decide)⟩

end ReplicatedMapReduce
