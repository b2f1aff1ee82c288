/-
# Starting a server

`main` takes the id and the endpoint of the server from its arguments, and two flags from wherever
they stand among them (`checkAdditionalFlags_eq`).  `atoi` is content with the number a text begins
with, so `2x` is server `2` and `localhost:25000/` is port `25000`; what the server goes by
afterwards is written out again from what was read.

* `setServerInfo_iff` says which arguments start a server, and as what.  It can be started again
  under the id and endpoint it goes by, and is the same (`restarted_same`).  Another server that
  is told to add it by these asks NuRaft for exactly that server.
* The flag `--async-handler` decides who runs `handle_result`: `append_log` itself, when
  `append_entries` has returned, or NuRaft, when the result is ready.  For the same committed
  payload, what is printed is the same (`appendLog_modes`).  Whether the payload that is committed
  is that of the call is another matter: without blocking, the handler's may be gone when `dec_log`
  follows its pointers.
-/
import ReplicatedMapReduce.Results

namespace ReplicatedMapReduce

open Runs

/-! ## 1. The arguments -/

/-- `atoi`; C gives no meaning to a number that does not fit an `int`. -/
def atoi (s : Str) : Option Int32 :=
  match Decimal.strtol s with
  | none => some 0
  | some z => if -2 ^ 31 ≤ z ∧ z < 2 ^ 31 then some (Int32.ofInt z) else none

/-- `s.rfind(c)`, `none` for `npos`. -/
def rfind (c : UInt8) : Str → Option ℕ
  | [] => none
  | d :: rest =>
    match rfind c rest with
    | some pos => some (pos + 1)
    | none => if d = c then some 0 else none

/-- What `set_server_info` stores. -/
structure ServerInfo where
  serverId : Int32
  addr : Str
  port : Int32
  endpoint : Str
  deriving DecidableEq

/-- `set_server_info`: what the server is, or the message before `usage` and `exit`.  `none` where a
number has no meaning. -/
def setServerInfo (serverArg endpointArg : Str) : Option (Except Str ServerInfo) :=
  match atoi serverArg with
  | none => none
  | some serverId =>
    if serverId < 1 then
      some (.error (str "wrong server id (should be >= 1): " ++ printValue serverId))
    else
      match rfind ':'.toUInt8 endpointArg with
      | none => some (.error (str "wrong endpoint: " ++ endpointArg))
      | some pos =>
        match atoi (endpointArg.drop (pos + 1)) with
        | none => none
        | some port =>
          if port < 1000 then
            some (.error (str "wrong port (should be >= 1000): " ++ printValue port))
          else
            some (.ok
              { serverId, addr := endpointArg.take pos, port,
                endpoint := endpointArg.take pos ++ str ":" ++ printValue port })

/-- `add_server`: the request for NuRaft, or the message. -/
def addServer (own : ServerInfo) (tokens : List Str) : Option (Except Str (Int32 × Str)) :=
  if tokens.length < 3 then some (.error (str "too few arguments"))
  else
    match tokens[1]?, tokens[2]? with
    | some serverArg, some endpointToAdd =>
      match atoi serverArg with
      | none => none
      | some serverIdToAdd =>
        if serverIdToAdd = 0 ∨ serverIdToAdd = own.serverId then
          some (.error (str "wrong server id: " ++ printValue serverIdToAdd))
        else some (.ok (serverIdToAdd, endpointToAdd))
    | _, _ => none

inductive CallType
  | blocking
  | asyncHandler
  deriving DecidableEq

/-- `CALL_TYPE` and `ASYNC_SNAPSHOT_CREATION` after one argument. -/
def checkFlag (flags : CallType × Bool) (arg : Str) : CallType × Bool :=
  if arg = str "--async-handler" then (.asyncHandler, flags.2)
  else if arg = str "--async-snapshot-creation" then (flags.1, true)
  else flags

def checkAdditionalFlags (argv : List Str) : CallType × Bool :=
  (argv.drop 1).foldl checkFlag (.blocking, false)

/-! ## 2. What a server goes by -/

theorem atoi_printValue (value : Int32) : atoi (printValue value) = some value := by
  have hrange : -2 ^ 31 ≤ value.toInt ∧ value.toInt < 2 ^ 31 := ⟨value.le_toInt, value.toInt_lt⟩
  rw [atoi, printValue, Decimal.strtol_printInt]
  dsimp only
  rw [if_pos hrange, Int32.ofInt_toInt]

theorem rfind_eq_none_iff {c : UInt8} {s : Str} : rfind c s = none ↔ c ∉ s := by
  induction s with
  | nil => simp [rfind]
  | cons d s ih =>
    rw [rfind, List.mem_cons, not_or, ← ih]
    cases rfind c s with
    | some pos => simp
    | none => simp [eq_comm]

/-- The position `rfind` finds is the last one. -/
theorem rfind_append_cons {c : UInt8} {after : Str} (h : c ∉ after) (before : Str) :
    rfind c (before ++ c :: after) = some before.length := by
  induction before with
  | nil => rw [List.nil_append, rfind, rfind_eq_none_iff.mpr h, if_pos rfl, List.length_nil]
  | cons d before ih => rw [List.cons_append, rfind, ih, List.length_cons]

theorem eq_append_of_rfind {c : UInt8} {s : Str} {pos : ℕ} (h : rfind c s = some pos) :
    s = s.take pos ++ c :: s.drop (pos + 1) ∧ c ∉ s.drop (pos + 1) := by
  induction s generalizing pos with
  | nil => exact absurd h (by simp [rfind])
  | cons d s ih =>
    rw [rfind] at h
    cases hrest : rfind c s with
    | some k =>
      rw [hrest] at h
      cases h
      obtain ⟨hs, hafter⟩ := ih hrest
      refine ⟨?_, hafter⟩
      rw [List.take_succ_cons, List.drop_succ_cons, List.cons_append, ← hs]
    | none =>
      rw [hrest] at h
      dsimp only at h
      split at h
      · rename_i hd
        cases h
        exact ⟨by simp [hd], rfind_eq_none_iff.mp hrest⟩
      · exact absurd h (by simp)

/-- **Which arguments start a server, and as what.** -/
theorem setServerInfo_iff {serverArg endpointArg : Str} {info : ServerInfo} :
    setServerInfo serverArg endpointArg = some (.ok info) ↔
      ∃ portText, endpointArg = info.addr ++ ':'.toUInt8 :: portText ∧ ':'.toUInt8 ∉ portText ∧
        atoi serverArg = some info.serverId ∧ ¬ info.serverId < 1 ∧
        atoi portText = some info.port ∧ ¬ info.port < 1000 ∧
        info.endpoint = info.addr ++ str ":" ++ printValue info.port := by
  constructor
  · intro h
    unfold setServerInfo at h
    split at h
    · exact absurd h (by simp)
    · rename_i serverId hserver
      split at h
      · exact absurd h (by simp)
      · rename_i hid
        split at h
        · exact absurd h (by simp)
        · rename_i pos hpos
          split at h
          · exact absurd h (by simp)
          · rename_i port hport
            split at h
            · exact absurd h (by simp)
            · rename_i hmin
              cases h
              obtain ⟨hcut, hafter⟩ := eq_append_of_rfind hpos
              exact ⟨_, hcut, hafter, hserver, hid, hport, hmin, rfl⟩
  · rintro ⟨portText, rfl, hport, hserver, hid, hatoi, hmin, hendpoint⟩
    have hdrop : (info.addr ++ ':'.toUInt8 :: portText).drop (info.addr.length + 1) = portText := by
      simp
    rw [setServerInfo, hserver]
    dsimp only
    rw [if_neg hid, rfind_append_cons hport]
    dsimp only
    rw [hdrop, hatoi, List.take_left]
    dsimp only
    rw [if_neg hmin, ← hendpoint]

/-- **A server started again under what it goes by is the same**, and another one that is told to
add it asks for that server. -/
theorem restarted_same {serverArg endpointArg : Str} {info : ServerInfo}
    (h : setServerInfo serverArg endpointArg = some (.ok info)) :
    setServerInfo (printValue info.serverId) info.endpoint = some (.ok info) ∧
    ∀ (own : ServerInfo) (cmd : Str), own.serverId ≠ info.serverId →
      addServer own [cmd, printValue info.serverId, info.endpoint]
        = some (.ok (info.serverId, info.endpoint)) := by
  obtain ⟨portText, -, -, -, hid, -, hmin, hendpoint⟩ := setServerInfo_iff.mp h
  constructor
  · refine setServerInfo_iff.mpr ⟨printValue info.port, ?_, ?_, atoi_printValue _, hid,
      atoi_printValue _, hmin, hendpoint⟩
    · rw [hendpoint, List.append_assoc]
      rfl
    · exact not_mem_printValue (by decide) (by decide) _
  · intro own cmd hne
    have hpos : info.serverId ≠ 0 := by
      intro hzero
      rw [hzero] at hid
      exact hid (by decide)
    simp [addServer, atoi_printValue, hpos, hne.symm]

/-- Only the two flags matter, wherever they stand behind the name of the program. -/
theorem checkAdditionalFlags_eq (argv : List Str) :
    checkAdditionalFlags argv =
      (if str "--async-handler" ∈ argv.drop 1 then .asyncHandler else .blocking,
        decide (str "--async-snapshot-creation" ∈ argv.drop 1)) := by
  have hfold : ∀ (args : List Str) (flags : CallType × Bool), args.foldl checkFlag flags =
      (if str "--async-handler" ∈ args then .asyncHandler else flags.1,
        decide (str "--async-snapshot-creation" ∈ args) || flags.2) := by
    intro args
    induction args with
    | nil =>
      intro flags
      simp
    | cons arg args ih =>
      intro flags
      rw [List.foldl_cons, ih, checkFlag]
      have hne : str "--async-handler" ≠ str "--async-snapshot-creation" := by decide
      by_cases h1 : arg = str "--async-handler"
      · subst h1
        simp [hne.symm]
      · by_cases h2 : arg = str "--async-snapshot-creation"
        · subst h2
          simp [hne, hne.symm]
        · simp [h1, h2, eq_comm]
  rw [checkAdditionalFlags, hfold, Bool.or_false]

/-! ## 3. Blocking or not -/

section NuRaft

variable [NuRaft]

/-- What `append_log` does with what `append_entries` returns: it prints that the entry was
rejected, runs `handle_result`, or hands it to NuRaft to be run when the result is ready. -/
inductive AppendOutcome
  | rejected
  | handled (report : Except StdException Report)
  | whenReady (handler : StateMachine → RaftResult → Except StdException Report)

/-- `append_log`, after `append_entries`, on the server whose state machine is `sm` by then. -/
def appendLog (callType : CallType) (accepted : Bool) (sm : StateMachine) (result : RaftResult) :
    AppendOutcome :=
  if !accepted then .rejected
  else
    match callType with
    | .blocking => .handled (handleResult sm result)
    | .asyncHandler => .whenReady handleResult

/-- What is printed in the end, if a result that is still to come is handled when the state machine
is `sm` and the result `result`. -/
def AppendOutcome.printed (sm : StateMachine) (result : RaftResult) :
    AppendOutcome → Option (Except StdException Report)
  | rejected => none
  | handled report => some report
  | whenReady handler => some (handler sm result)

/-- **Blocking or not, the same is printed** for the same payload.  Let it be committed.  Whatever
the state machine does until `append_entries` returns, or until the result is handled, and as long
as the index is not committed again, what is printed is the index and, for a map-reduce, what it
answers on the store of the moment of the commit. -/
theorem appendLog_modes {r t u : Replica} {sm : StateMachine} {i : UInt64} {p : OpPayload}
    {ret : Str} {as bs : List Action} (hcommit : r.sm.commit i p = .ok (sm, ret))
    (hrun : Run step (fun _ _ => True) { r with sm } as t) (hi : i ∉ commitIndices as)
    (hlater : Run step (fun _ _ => True) t bs u) (hi' : i ∉ commitIndices bs)
    (callType : CallType) (early : RaftResult)
    (hearly : callType = .blocking → early = ⟨true, ret⟩) :
    (appendLog callType true t.sm early).printed u.sm ⟨true, ret⟩
      = some (.ok (.succeeded i
          (if p.type = .mapReduce then (p.mapReduce r.sm.kvStore).toOption else none))) := by
  cases callType with
  | blocking =>
    rw [hearly rfl]
    exact congrArg some (handleResult_later hcommit hrun hi)
  | asyncHandler =>
    have hboth : i ∉ commitIndices (as ++ bs) := by
      rw [commitIndices_append, List.mem_append, not_or]
      exact ⟨hi, hi'⟩
    exact congrArg some (handleResult_later hcommit (hrun.append hlater) hboth)

end NuRaft

/-- The arguments `1x` and `localhost:25000/` start server `1` as `localhost:25000`. -/
theorem restarted_books :
    setServerInfo (str "1") (str "localhost:25000")
      = some (.ok ⟨1, str "localhost", 25000, str "localhost:25000"⟩) := by
  have h : setServerInfo (str "1x") (str "localhost:25000/")
      = some (.ok ⟨1, str "localhost", 25000, str "localhost:25000"⟩) := by decide
  exact (restarted_same h).1

/-- A result that is handled only after an insertion. -/
theorem appendLog_books : ∃ (sm : StateMachine) (ret : Str) (t u : Replica),
    @StateMachine.commit littleEndian (StateMachine.init false) 1 (booksPayload (str "square"))
      = .ok (sm, ret) ∧
    t.sm.kvStore ≠ u.sm.kvStore ∧
    (@appendLog littleEndian .asyncHandler true t.sm ⟨true, ret⟩).printed u.sm ⟨true, ret⟩
      = some (.ok (.succeeded 1
          ((booksPayload (str "square")).mapReduce
            (StateMachine.init false).kvStore).toOption)) := by
  let := littleEndian
  have hrun : ∃ sm ret u,
      (StateMachine.init false).commit 1 (booksPayload (str "square")) = .ok (sm, ret) ∧
      Run step (fun _ _ => True) { Replica.init false with sm } [(booksLog 1).commitAt 2] u ∧
      sm.kvStore ≠ u.sm.kvStore :=
    ⟨_, _, _, rfl, Run.cons trivial rfl (Run.refl _), by decide⟩
  obtain ⟨sm, ret, u, hcommit, hlater, hne⟩ := hrun
  exact ⟨sm, ret, _, u, hcommit, hne, appendLog_modes (r := Replica.init false) hcommit
    (Run.refl _) (by decide) hlater (by decide) .asyncHandler _ nofun⟩

end ReplicatedMapReduce
