/-
# `mapreduce_server`: from a command to a log entry and back

The server reads a line, splits it into tokens, and for a store command or a map-reduce command
builds the payload of a log entry.  What it gets back from NuRaft is the reply of `commit`.

The two handlers are written as the source writes them, with every `tokens[i]` an access that can
go out of bounds (`element`) and every `stoi` a call that can throw.  The loop of
`handle_map_reduce_command` advances its index itself when a flag takes an argument; it is given
as many turns as there are tokens, which is more than it takes (`mapReduceLoop_turns`).

The last section joins what the handlers let through with what `commit` can throw.  A store
command always commits.  A map-reduce command commits exactly if both its operations exist, and
nothing on the way asks (`appended_commits_iff`): the entry is in the log by then, and fails again
on every replica that replays it.  This is said of payloads that own their strings; what becomes of
the raw copy that `dec_log` makes of one is the subject of `LogCodec.lean`.
-/
import ReplicatedMapReduce.Replica

namespace ReplicatedMapReduce

open Runs

/-! ## 1. The commands -/

/-- What a handler does: it writes a message to `std::cerr`, or calls `append_log`. -/
inductive Reaction
  | report (message : Str)
  | appendLog (payload : OpPayload)
  deriving DecidableEq

/-- `tokens[i]`. -/
def element (tokens : List Str) (i : ℕ) : Except Fault Str :=
  match tokens[i]? with
  | some token => .ok token
  | none => .error (.outOfBounds i tokens.length)

/-- `std::stoi(tokens[i])`. -/
def stoiElement (tokens : List Str) (i : ℕ) : Except Fault Int32 :=
  match element tokens i with
  | .error e => .error e
  | .ok token =>
    match stoi token with
    | .error e => .error (.thrown e)
    | .ok value => .ok value

def handleKvCommand (cmd : Str) (tokens : List Str) : Except Fault Reaction :=
  if tokens.length < 2 then .ok (.report (str "Error: Invalid command format for " ++ cmd))
  else
    match element tokens 1 with
    | .error e => .error e
    | .ok key =>
      if cmd = str "+" then
        if tokens.length ≠ 3 then
          .ok (.report
            (str "Error: Invalid command format for addition. Usage: + <key> <value>"))
        else
          match stoiElement tokens 2 with
          | .error e => .error e
          | .ok value => .ok (.appendLog { type := .insertValue, key, value })
      else if cmd = str "-" then
        if tokens.length = 3 then
          match stoiElement tokens 2 with
          | .error e => .error e
          | .ok value => .ok (.appendLog { type := .deleteValue, key, value })
        else .ok (.appendLog { type := .deleteKey, key, value := 0 })
      else .ok (.report (str "Error: Unknown command " ++ cmd))

/-- The local variables of the loop in `handle_map_reduce_command`. -/
structure MapReduceArgs where
  mapFunc : Str := []
  reduceFunc : Str := []
  keys : List Str := []
  isKeyFlag : Bool := false
  deriving DecidableEq

/-- The loop, with `turns` turns left and its index at `i`. -/
def mapReduceLoop (tokens : List Str) : ℕ → ℕ → MapReduceArgs → Except Fault MapReduceArgs
  | 0, _, args => .ok args
  | turns + 1, i, args =>
    if i < tokens.length then
      match element tokens i with
      | .error e => .error e
      | .ok token =>
        if token = str "--m" then
          match element tokens (i + 1) with
          | .error e => .error e
          | .ok mapFunc =>
            mapReduceLoop tokens turns (i + 1 + 1) { args with mapFunc, isKeyFlag := false }
        else if token = str "--r" then
          match element tokens (i + 1) with
          | .error e => .error e
          | .ok reduceFunc =>
            mapReduceLoop tokens turns (i + 1 + 1) { args with reduceFunc, isKeyFlag := false }
        else if token = str "--k" then
          mapReduceLoop tokens turns (i + 1) { args with isKeyFlag := true }
        else if args.isKeyFlag then
          mapReduceLoop tokens turns (i + 1) { args with keys := args.keys ++ [token] }
        else mapReduceLoop tokens turns (i + 1) args
    else .ok args

def handleMapReduceCommand (tokens : List Str) : Except Fault Reaction :=
  if tokens.length < 7 then .ok (.report (str "Error: Invalid command format for mapReduce"))
  else
    match mapReduceLoop tokens tokens.length 1 {} with
    | .error e => .error e
    | .ok args =>
      if args.mapFunc = [] ∨ args.reduceFunc = [] ∨ args.keys = [] then
        .ok (.report (str "Error: Invalid command format for mapReduce"))
      else
        .ok (.appendLog { type := .mapReduce, key := str "NULL", value := 0, mapOp := args.mapFunc,
                          reduceOp := args.reduceFunc, keys := args.keys })

/-- **The loop never uses up its turns**: one more changes nothing. -/
theorem mapReduceLoop_turns {tokens : List Str} {turns i : ℕ} (args : MapReduceArgs)
    (h : tokens.length ≤ turns + i) :
    mapReduceLoop tokens (turns + 1) i args = mapReduceLoop tokens turns i args := by
  induction turns generalizing i args with
  | zero =>
    have hi : ¬ i < tokens.length := by omega
    simp only [mapReduceLoop, if_neg hi]
  | succ turns ih =>
    have ih1 := fun args => ih (i := i + 1) args (by omega)
    have ih2 := fun args => ih (i := i + 1 + 1) args (by omega)
    rw [mapReduceLoop]
    conv_rhs => rw [mapReduceLoop]
    simp only [ih1, ih2]

/-! ## 2. What the handlers hand to `append_log` -/

/-- **Everything a store command can append.**  With `+` there are exactly three tokens; with `-`
there are three, or the number is not looked at. -/
theorem handleKvCommand_appendLog {cmd : Str} {tokens : List Str} {p : OpPayload}
    (h : handleKvCommand cmd tokens = .ok (.appendLog p)) :
    2 ≤ tokens.length ∧ ∃ key, element tokens 1 = .ok key ∧
      ((cmd = str "+" ∧ tokens.length = 3 ∧ ∃ value, stoiElement tokens 2 = .ok value ∧
          p = { type := .insertValue, key, value }) ∨
        (cmd = str "-" ∧ tokens.length = 3 ∧ ∃ value, stoiElement tokens 2 = .ok value ∧
          p = { type := .deleteValue, key, value }) ∨
        (cmd = str "-" ∧ tokens.length ≠ 3 ∧ p = { type := .deleteKey, key, value := 0 })) := by
  unfold handleKvCommand at h
  split at h
  · exact absurd h (by simp)
  · rename_i hsize
    refine ⟨Nat.le_of_not_lt hsize, ?_⟩
    split at h
    · exact absurd h (by simp)
    · rename_i key hkey
      refine ⟨key, hkey, ?_⟩
      split at h
      · rename_i hplus
        split at h
        · exact absurd h (by simp)
        · rename_i hthree
          split at h
          · exact absurd h (by simp)
          · rename_i value hvalue
            cases h
            exact Or.inl ⟨hplus, not_not.mp hthree, value, hvalue, rfl⟩
      · split at h
        · rename_i hminus
          split at h
          · rename_i hthree
            split at h
            · exact absurd h (by simp)
            · rename_i value hvalue
              cases h
              exact Or.inr (Or.inl ⟨hminus, hthree, value, hvalue, rfl⟩)
          · rename_i hthree
            cases h
            exact Or.inr (Or.inr ⟨hminus, hthree, rfl⟩)
        · exact absurd h (by simp)

/-- A store command never asks for a map-reduce. -/
theorem type_of_handleKvCommand {cmd : Str} {tokens : List Str} {p : OpPayload}
    (h : handleKvCommand cmd tokens = .ok (.appendLog p)) : p.type ≠ .mapReduce := by
  obtain ⟨-, key, -, ⟨-, -, value, -, rfl⟩ | ⟨-, -, value, -, rfl⟩ | ⟨-, -, rfl⟩⟩ :=
    handleKvCommand_appendLog h
  · exact OpType.noConfusion
  · exact OpType.noConfusion
  · exact OpType.noConfusion

/-- A map-reduce command asks for nothing else. -/
theorem type_of_handleMapReduceCommand {tokens : List Str} {p : OpPayload}
    (h : handleMapReduceCommand tokens = .ok (.appendLog p)) : p.type = .mapReduce := by
  unfold handleMapReduceCommand at h
  split at h
  · exact absurd h (by simp)
  · split at h
    · exact absurd h (by simp)
    · split at h
      · exact absurd h (by simp)
      · cases h
        rfl

/-! ## 3. The reply -/

/-- What NuRaft hands to `handle_result`: whether the result code is `OK`, and the reply of
`commit`. -/
structure RaftResult where
  ok : Bool
  buf : Str

/-- What `handle_result` prints. -/
inductive Report
  | failed
  | succeeded (logIdx : UInt64) (results : Option Results)

section NuRaft

variable [NuRaft]

/-- The two reads of `handle_result`. -/
def decodeReply (buf : Str) : Except StdException (UInt64 × Bool) :=
  match NuRaft.getUlong buf with
  | .error e => .error e
  | .ok (logIdx, rest) =>
    match NuRaft.getByte rest with
    | .error e => .error e
    | .ok (flag, _) => .ok (logIdx, flag != 0)

/-- `handle_result`, on the server whose state machine is `sm` by now. -/
def handleResult (sm : StateMachine) (result : RaftResult) : Except StdException Report :=
  if !result.ok then .ok .failed
  else
    match decodeReply result.buf with
    | .error e => .error e
    | .ok (logIdx, hasMapReduceResults) =>
      .ok (.succeeded logIdx
        (if hasMapReduceResults then some (sm.getMapReduceResults logIdx) else none))

/-- **What `commit` writes, `handle_result` reads back.** -/
theorem decodeReply_reply (i : UInt64) (flag : Bool) :
    decodeReply (StateMachine.reply i flag) = .ok (i, flag) := by
  have hbyte := NuRaft.getByte_putU8 (if flag then 1 else 0) []
  rw [List.append_nil] at hbyte
  rw [decodeReply, StateMachine.reply, NuRaft.getUlong_putU64]
  simp only [hbyte]
  cases flag <;> rfl

/-! ## 4. What can be committed -/

/-- `commit(i)` of the payload, one that owns its strings, returns, its reply carries `i`, and `i`
is the last committed index. -/
def Commits (sm : StateMachine) (i : UInt64) (p : OpPayload) : Prop :=
  ∃ sm' ret flag, sm.commit i p = .ok (sm', ret) ∧ decodeReply ret = .ok (i, flag) ∧
    sm'.lastCommitIndex = i

theorem commits_iff_sound (sm : StateMachine) (i : UInt64) (p : OpPayload) :
    Commits sm i p ↔ p.Sound := by
  rw [← commit_returns_iff sm i p]
  constructor
  · rintro ⟨sm', ret, flag, h, -, -⟩
    exact ⟨sm', ret, h⟩
  · rintro ⟨sm', ret, h⟩
    obtain ⟨hc, rfl⟩ := commit_spec h
    exact ⟨sm', _, _, h, decodeReply_reply i _, hc.lastCommittedIdx⟩

/-- **Which commands poison the log.**  In every reachable state and at every index, the payload a
store command appended is committed, and the one a map-reduce command appended is committed exactly
if both operations it names exist, given that it is decoded to a payload with strings of its own. -/
theorem appended_commits_iff {asyncSnapshot : Bool} {as : List Action} {r : Replica}
    (_hrun : Run step (fun _ _ => True) (Replica.init asyncSnapshot) as r) (i : UInt64)
    (tokens : List Str) (p : OpPayload) :
    (∀ cmd, handleKvCommand cmd tokens = .ok (.appendLog p) → Commits r.sm i p) ∧
    (handleMapReduceCommand tokens = .ok (.appendLog p) →
      (Commits r.sm i p ↔ MapReduce.Existing p.mapOp p.reduceOp)) := by
  constructor
  · intro cmd hcmd
    rw [commits_iff_sound]
    intro htype
    exact absurd htype (type_of_handleKvCommand hcmd)
  · intro hcmd
    rw [commits_iff_sound]
    have htype : p.type = .mapReduce := type_of_handleMapReduceCommand hcmd
    constructor
    · intro hsound
      exact hsound htype
    · intro hexisting _
      exact hexisting

end NuRaft

/-- `mapReduce --m <mapOp> --r sum --k books`, as tokens. -/
def booksTokens (mapOp : Str) : List Str :=
  [str "mapReduce", str "--m", mapOp, str "--r", str "sum", str "--k", str "books"]

/-- The payload that is appended for it. -/
def booksPayload (mapOp : Str) : OpPayload :=
  { type := .mapReduce, key := str "NULL", value := 0, mapOp, reduceOp := str "sum",
    keys := [str "books"] }

theorem appended_commits_books :
    @Commits littleEndian (StateMachine.init false) 1 (booksPayload (str "square")) := by
  let := littleEndian
  have happended : handleMapReduceCommand (booksTokens (str "square"))
      = .ok (.appendLog (booksPayload (str "square"))) := by decide
  have hcommits := appended_commits_iff (Run.refl (Replica.init false)) 1
    (booksTokens (str "square")) (booksPayload (str "square"))
  exact (hcommits.2 happended).mpr (by decide)

/-- `mapReduce --m foo --r sum --k books` is appended, and its commit throws. -/
theorem appended_foo_throws :
    ¬ ∀ (tokens : List Str) (p : OpPayload) (i : UInt64), (∀ token ∈ tokens, token ≠ []) →
      handleMapReduceCommand tokens = .ok (.appendLog p) →
      @Commits littleEndian (StateMachine.init false) i p := by
  let := littleEndian
  intro h
  obtain ⟨sm', ret, flag, hcommit, -⟩ := h (booksTokens (str "foo")) (booksPayload (str "foo")) 1
    (by decide) (by decide)
  rw [show (StateMachine.init false).commit 1 (booksPayload (str "foo"))
    = .error (.thrown (.runtimeError (str "Map operation not found: foo"))) by decide] at hcommit
  exact absurd hcommit (by simp)

end ReplicatedMapReduce
