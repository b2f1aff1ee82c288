/-
# Store commands

The help text has three commands for the store: `+ <key> <value>`, `- <key>` and
`- <key> <value>`.  `handle_kv_command` tells them apart by the number of tokens, and leaves the
number itself to `stoi`.

* `stoi` throws, and nobody catches, from the handler up to `main`.  A command with three tokens
  comes back exactly if an `int` can be read from the third (`doCmd_returns_iff`).
* What comes back is what the help text says, except in two cases
  (`handleKvCommand_documented_iff`).  `stoi` is content with the number a token begins with.  And
  where `+` asks for exactly three tokens, `-` takes everything that is not three for a request to
  remove the whole key.
-/
import ReplicatedMapReduce.Server

namespace ReplicatedMapReduce

/-! ## 1. `do_cmd` -/

/-- What `do_cmd` does with a line.  The commands that print something or ask NuRaft for
something append no entry to the log. -/
inductive Dispatch
  | nothing
  | exit
  | reaction (r : Reaction)
  | other (cmd : Str)
  deriving DecidableEq

def doCmd (tokens : List Str) : Except Fault Dispatch :=
  match tokens with
  | [] => .ok .nothing
  | cmd :: _ =>
    if cmd = str "q" ∨ cmd = str "exit" then .ok .exit
    else if cmd = str "mapReduce" then (handleMapReduceCommand tokens).map .reaction
    else if cmd = str "+" then (handleKvCommand cmd tokens).map .reaction
    else if cmd = str "-" then (handleKvCommand cmd tokens).map .reaction
    else if cmd = str "store" then .ok (.other cmd)
    else if cmd = str "add" then .ok (.other cmd)
    else if cmd = str "st" ∨ cmd = str "stat" then .ok (.other cmd)
    else if cmd = str "ls" ∨ cmd = str "list" then .ok (.other cmd)
    else if cmd = str "h" ∨ cmd = str "help" then .ok (.other cmd)
    else .ok .nothing

/-- The store commands go to their handler. -/
theorem doCmd_store {cmd : Str} {tokens : List Str} (hhead : tokens.head? = some cmd)
    (hcmd : cmd = str "+" ∨ cmd = str "-") :
    doCmd tokens = (handleKvCommand cmd tokens).map .reaction := by
  obtain ⟨args, rfl⟩ := List.head?_eq_some_iff.mp hhead
  rcases hcmd with rfl | rfl
  · rfl
  · rfl

/-! ## 2. The handler, by the number of tokens -/

theorem minus_ne_plus : str "-" ≠ str "+" := by decide

/-- With a number in the third token. -/
def withNumber (num : Str) (payload : Int32 → OpPayload) : Except Fault Reaction :=
  match stoi num with
  | .ok value => .ok (.appendLog (payload value))
  | .error e => .error (.thrown e)

theorem stoiElement_three (cmd key num : Str) :
    stoiElement [cmd, key, num] 2 = (stoi num).mapError .thrown := by
  unfold stoiElement
  cases hstoi : stoi num <;> simp [element, hstoi, Except.mapError]

theorem handleKvCommand_add (key num : Str) :
    handleKvCommand (str "+") [str "+", key, num]
      = withNumber num fun value => { type := .insertValue, key, value } := by
  unfold handleKvCommand withNumber
  simp only [stoiElement_three]
  cases stoi num <;> simp [element, Except.mapError]

theorem handleKvCommand_remove (key num : Str) :
    handleKvCommand (str "-") [str "-", key, num]
      = withNumber num fun value => { type := .deleteValue, key, value } := by
  unfold handleKvCommand withNumber
  simp only [stoiElement_three]
  cases stoi num <;> simp [element, minus_ne_plus, Except.mapError]

/-- The shapes a vector of tokens can have for the handler. -/
theorem tokens_cases {cmd : Str} {tokens : List Str} (hhead : tokens.head? = some cmd) :
    tokens = [cmd] ∨ (∃ key, tokens = [cmd, key]) ∨ (∃ key num, tokens = [cmd, key, num]) ∨
      ∃ key num more rest, tokens = cmd :: key :: num :: more :: rest := by
  obtain ⟨args, rfl⟩ := List.head?_eq_some_iff.mp hhead
  rcases args with _ | ⟨key, _ | ⟨num, _ | ⟨more, rest⟩⟩⟩
  · exact Or.inl rfl
  · exact Or.inr (Or.inl ⟨key, rfl⟩)
  · exact Or.inr (Or.inr (Or.inl ⟨key, num, rfl⟩))
  · exact Or.inr (Or.inr (Or.inr ⟨key, num, more, rest, rfl⟩))

/-- The usage message of the addition. -/
def additionUsage : Reaction :=
  .report (str "Error: Invalid command format for addition. Usage: + <key> <value>")

theorem handleKvCommand_one (cmd : Str) :
    handleKvCommand cmd [cmd] = .ok (.report (str "Error: Invalid command format for " ++ cmd)) :=
  rfl

theorem handleKvCommand_add_two (key : Str) :
    handleKvCommand (str "+") [str "+", key] = .ok additionUsage := rfl

theorem handleKvCommand_add_more (key num more : Str) (rest : List Str) :
    handleKvCommand (str "+") (str "+" :: key :: num :: more :: rest) = .ok additionUsage := by
  simp [handleKvCommand, element, additionUsage]

theorem handleKvCommand_remove_two (key : Str) :
    handleKvCommand (str "-") [str "-", key]
      = .ok (.appendLog { type := .deleteKey, key, value := 0 }) := by
  simp [handleKvCommand, element, minus_ne_plus]

/-- **Whatever follows the key**, if it is not one token. -/
theorem handleKvCommand_remove_more (key num more : Str) (rest : List Str) :
    handleKvCommand (str "-") (str "-" :: key :: num :: more :: rest)
      = .ok (.appendLog { type := .deleteKey, key, value := 0 }) := by
  simp [handleKvCommand, element, minus_ne_plus]

/-! ## 3. Commands that bring the server down -/

/-- An `int` can be read from the beginning of the token. -/
def ReadsInt (token : Str) : Prop :=
  ∃ z, Decimal.strtol token = some z ∧ -2147483648 ≤ z ∧ z ≤ 2147483647

theorem stoi_returns_iff (token : Str) : (∃ value, stoi token = .ok value) ↔ ReadsInt token := by
  simp only [stoi_eq_ok_iff, ReadsInt]
  constructor
  · rintro ⟨value, hvalue⟩
    exact ⟨_, hvalue, value.le_toInt, Int.le_of_lt_add_one value.toInt_lt⟩
  · rintro ⟨z, hz, hlo, hhi⟩
    refine ⟨Int32.ofInt z, ?_⟩
    rw [hz, Int32.toInt_ofInt_of_le hlo (Int.lt_add_one_of_le hhi)]

theorem withNumber_returns_iff (num : Str) (payload : Int32 → OpPayload) :
    (∃ reaction, withNumber num payload = .ok reaction) ↔ ReadsInt num := by
  rw [← stoi_returns_iff, withNumber]
  cases stoi num <;> simp

/-- **When the handler returns.** -/
theorem handleKvCommand_returns_iff {cmd : Str} {tokens : List Str}
    (hhead : tokens.head? = some cmd) (hcmd : cmd = str "+" ∨ cmd = str "-") :
    (∃ reaction, handleKvCommand cmd tokens = .ok reaction) ↔
      ∀ num, tokens.length = 3 → tokens[2]? = some num → ReadsInt num := by
  rcases tokens_cases hhead with rfl | ⟨key, rfl⟩ | ⟨key, num, rfl⟩ | ⟨key, num, more, rest, rfl⟩
  · exact iff_of_true ⟨_, handleKvCommand_one cmd⟩ (by simp)
  · refine iff_of_true ?_ (by simp)
    rcases hcmd with rfl | rfl
    · exact ⟨_, handleKvCommand_add_two key⟩
    · exact ⟨_, handleKvCommand_remove_two key⟩
  · have hnum : (∃ reaction, handleKvCommand cmd [cmd, key, num] = .ok reaction) ↔
        ReadsInt num := by
      rcases hcmd with rfl | rfl
      · rw [handleKvCommand_add, withNumber_returns_iff]
      · rw [handleKvCommand_remove, withNumber_returns_iff]
    simpa using hnum
  · refine iff_of_true ?_ (by simp)
    rcases hcmd with rfl | rfl
    · exact ⟨_, handleKvCommand_add_more key num more rest⟩
    · exact ⟨_, handleKvCommand_remove_more key num more rest⟩

/-- **Which store commands come back.**  Of all tokens that begin with `+` or `-`, exactly those
lead to one entry or to an error message that are not three tokens with an unreadable last one.
With those an exception leaves `do_cmd`, and nothing up to `main` catches it. -/
theorem doCmd_returns_iff {cmd : Str} {tokens : List Str} (hhead : tokens.head? = some cmd)
    (hcmd : cmd = str "+" ∨ cmd = str "-") :
    (∃ reaction, handleKvCommand cmd tokens = .ok reaction ∧
      doCmd tokens = .ok (.reaction reaction)) ↔
      ∀ num, tokens.length = 3 → tokens[2]? = some num → ReadsInt num := by
  rw [← handleKvCommand_returns_iff hhead hcmd, doCmd_store hhead hcmd]
  constructor
  · rintro ⟨reaction, h, -⟩
    exact ⟨reaction, h⟩
  · rintro ⟨reaction, h⟩
    exact ⟨reaction, h, by rw [h]; rfl⟩

theorem doCmd_books : ∃ reaction,
    handleKvCommand (str "+") [str "+", str "books", str "3"] = .ok reaction ∧
    doCmd [str "+", str "books", str "3"] = .ok (.reaction reaction) := by
  refine (doCmd_returns_iff rfl (Or.inl rfl)).mpr ?_
  intro num _ hnum
  obtain rfl : str "3" = num := by simpa using hnum
  exact ⟨3, by decide, by decide, by decide⟩

/-- A word in the place of the number. -/
theorem doCmd_throws :
    ¬ ∀ (cmd : Str) (tokens : List Str), (∀ token ∈ tokens, token ≠ []) →
      tokens.head? = some cmd → (cmd = str "+" ∨ cmd = str "-") →
      ∃ reaction, doCmd tokens = .ok (.reaction reaction) := by
  intro h
  obtain ⟨reaction, hreaction⟩ := h (str "+") [str "+", str "books", str "abc"] (by decide) rfl
    (Or.inl rfl)
  rw [show doCmd [str "+", str "books", str "abc"] = .error (.thrown .invalidArgument) by decide]
    at hreaction
  exact absurd hreaction (by simp)

/-! ## 4. Commands that mean something else -/

/-- The store commands of the help text, and the entry each of them stands for. -/
inductive Documented : List Str → OpPayload → Prop
  | add {num : Str} {value : Int32} (key : Str) (hnum : Decimal.Numeral num value.toInt) :
      Documented [str "+", key, num] { type := .insertValue, key, value }
  | removeValue {num : Str} {value : Int32} (key : Str) (hnum : Decimal.Numeral num value.toInt) :
      Documented [str "-", key, num] { type := .deleteValue, key, value }
  | removeKey (key : Str) :
      Documented [str "-", key] { type := .deleteKey, key, value := 0 }

/-- The handler appends the documented entry for a documented command and reports an error for
everything else. -/
def MeansDocumented (cmd : Str) (tokens : List Str) : Prop :=
  (∀ p, handleKvCommand cmd tokens = .ok (.appendLog p) ↔ Documented tokens p) ∧
  ((∀ p, ¬ Documented tokens p) →
    ∃ message, handleKvCommand cmd tokens = .ok (.report message))

/-- If nothing is documented, an error has to be reported. -/
theorem meansDocumented_iff_report {cmd : Str} {tokens : List Str}
    (hnone : ∀ p, ¬ Documented tokens p) :
    MeansDocumented cmd tokens ↔ ∃ message, handleKvCommand cmd tokens = .ok (.report message) := by
  constructor
  · intro h
    exact h.2 hnone
  · rintro ⟨message, hreport⟩
    refine ⟨fun p => iff_of_false ?_ (hnone p), fun _ => ⟨message, hreport⟩⟩
    rw [hreport]
    simp

/-- A number that `stoi` reads from a numeral is the number of the numeral. -/
theorem toInt_of_stoi {num : Str} {value : Int32} {z : ℤ} (hnum : Decimal.Numeral num z)
    (h : stoi num = .ok value) : value.toInt = z :=
  Option.some.inj ((stoi_eq_ok_iff.mp h).symm.trans (Decimal.strtol_of_numeral hnum))

theorem Documented.length {tokens : List Str} {p : OpPayload} (h : Documented tokens p) :
    tokens.length = 2 ∨ tokens.length = 3 := by
  cases h with
  | add key hnum => exact Or.inr rfl
  | removeValue key hnum => exact Or.inr rfl
  | removeKey key => exact Or.inl rfl

theorem documented_two_iff {cmd key : Str} {p : OpPayload} :
    Documented [cmd, key] p ↔ cmd = str "-" ∧ p = { type := .deleteKey, key, value := 0 } := by
  constructor
  · intro h
    cases h with
    | removeKey key => exact ⟨rfl, rfl⟩
  · rintro ⟨rfl, rfl⟩
    exact .removeKey key

theorem documented_three_iff {cmd key num : Str} {p : OpPayload} :
    Documented [cmd, key, num] p ↔ ∃ value : Int32, Decimal.Numeral num value.toInt ∧
      ((cmd = str "+" ∧ p = { type := .insertValue, key, value }) ∨
        (cmd = str "-" ∧ p = { type := .deleteValue, key, value })) := by
  constructor
  · intro h
    cases h with
    | add key hnum => exact ⟨_, hnum, Or.inl ⟨rfl, rfl⟩⟩
    | removeValue key hnum => exact ⟨_, hnum, Or.inr ⟨rfl, rfl⟩⟩
  · rintro ⟨value, hnum, ⟨rfl, rfl⟩ | ⟨rfl, rfl⟩⟩
    · exact .add key hnum
    · exact .removeValue key hnum

/-- With three tokens everything depends on the third. -/
theorem meansDocumented_three_iff {cmd key num : Str} {payload : Int32 → OpPayload} {value : Int32}
    (hhandle : handleKvCommand cmd [cmd, key, num] = withNumber num payload)
    (hdocumented : ∀ p, Documented [cmd, key, num] p ↔
      ∃ value : Int32, Decimal.Numeral num value.toInt ∧ p = payload value)
    (hstoi : stoi num = .ok value) :
    MeansDocumented cmd [cmd, key, num] ↔ ∃ z, Decimal.Numeral num z := by
  have hhandle' : handleKvCommand cmd [cmd, key, num] = .ok (.appendLog (payload value)) := by
    rw [hhandle, withNumber, hstoi]
  constructor
  · intro h
    obtain ⟨value', hnum, -⟩ := (hdocumented _).mp ((h.1 (payload value)).mp hhandle')
    exact ⟨_, hnum⟩
  · rintro ⟨z, hnum⟩
    obtain rfl : value.toInt = z := toInt_of_stoi hnum hstoi
    have hthis : Documented [cmd, key, num] (payload value) :=
      (hdocumented _).mpr ⟨value, hnum, rfl⟩
    refine ⟨fun p => ?_, fun hnone => absurd hthis (hnone _)⟩
    rw [hhandle', Except.ok.injEq, Reaction.appendLog.injEq, hdocumented]
    constructor
    · rintro rfl
      exact ⟨value, hnum, rfl⟩
    · rintro ⟨value', hnum', rfl⟩
      rw [Int32.toInt_inj.mp (toInt_of_stoi hnum' hstoi)]

/-- **When a store command means what the help text says.**  Of all tokens that begin with `+` or
`-` and on which `stoi` does not throw, all do but two kinds: a `-` with more than two tokens
after it, and three tokens whose last one is not a number as a whole. -/
theorem handleKvCommand_documented_iff {cmd : Str} {tokens : List Str}
    (hhead : tokens.head? = some cmd) (hcmd : cmd = str "+" ∨ cmd = str "-")
    (hstoi : ∀ num, tokens.length = 3 → tokens[2]? = some num → ∃ value, stoi num = .ok value) :
    MeansDocumented cmd tokens ↔
      ¬ (cmd = str "-" ∧ 4 ≤ tokens.length) ∧
        ∀ num, tokens.length = 3 → tokens[2]? = some num → ∃ z, Decimal.Numeral num z := by
  rcases tokens_cases hhead with rfl | ⟨key, rfl⟩ | ⟨key, num, rfl⟩ | ⟨key, num, more, rest, rfl⟩
  · have hnone : ∀ p, ¬ Documented [cmd] p := fun p h => absurd h.length (by simp)
    rw [meansDocumented_iff_report hnone]
    exact iff_of_true ⟨_, handleKvCommand_one cmd⟩ (by simp)
  · refine iff_of_true ?_ (by simp)
    rcases hcmd with rfl | rfl
    · have hnone : ∀ p, ¬ Documented [str "+", key] p := by
        intro p h
        exact absurd (documented_two_iff.mp h).1 (by decide)
      exact (meansDocumented_iff_report hnone).mpr ⟨_, handleKvCommand_add_two key⟩
    · refine ⟨fun p => ?_, fun hnone => absurd (.removeKey key) (hnone _)⟩
      rw [handleKvCommand_remove_two, Except.ok.injEq, Reaction.appendLog.injEq,
        documented_two_iff, eq_comm]
      exact (and_iff_right rfl).symm
  · obtain ⟨value, hvalue⟩ := hstoi num rfl rfl
    have hthree : MeansDocumented cmd [cmd, key, num] ↔ ∃ z, Decimal.Numeral num z := by
      rcases hcmd with rfl | rfl
      · exact meansDocumented_three_iff (handleKvCommand_add key num)
          (fun p => by simp [documented_three_iff, minus_ne_plus.symm]) hvalue
      · exact meansDocumented_three_iff (handleKvCommand_remove key num)
          (fun p => by simp [documented_three_iff, minus_ne_plus]) hvalue
    simpa using hthree
  · have hnone : ∀ p, ¬ Documented (cmd :: key :: num :: more :: rest) p := by
      intro p h
      exact absurd h.length (by simp)
    rw [meansDocumented_iff_report hnone]
    rcases hcmd with rfl | rfl
    · exact iff_of_true ⟨_, handleKvCommand_add_more key num more rest⟩
        (by simp [minus_ne_plus.symm])
    · rw [handleKvCommand_remove_more]
      exact iff_of_false (by simp) (by simp)

/-- A key, and two tokens instead of one: the whole key is removed. -/
theorem handleKvCommand_removes_key :
    ¬ ∀ (cmd : Str) (tokens : List Str), tokens.head? = some cmd →
      (cmd = str "+" ∨ cmd = str "-") →
      (∀ num, tokens.length = 3 → tokens[2]? = some num → ∃ value, stoi num = .ok value) →
      MeansDocumented cmd tokens := by
  intro h
  have hmeans := h (str "-") [str "-", str "books", str "1", str "2"] rfl (Or.inr rfl) (by simp)
  have hdocumented :=
    (hmeans.1 { type := .deleteKey, key := str "books", value := 0 }).mp (by decide)
  exact absurd hdocumented.length (by decide)

theorem handleKvCommand_documented_books :
    MeansDocumented (str "-") [str "-", str "books", str "-12"] := by
  refine (handleKvCommand_documented_iff rfl (Or.inr rfl) ?_).mpr ⟨by decide, ?_⟩
  · intro num _ hnum
    obtain rfl : str "-12" = num := by simpa using hnum
    exact ⟨-12, by decide⟩
  · intro num _ hnum
    obtain rfl : str "-12" = num := by simpa using hnum
    have hne : str "12" ≠ [] := by decide
    have hdigits : (str "12").all Decimal.isDigit = true := by decide
    exact ⟨_, .minus hne (List.all_eq_true.mp hdigits)⟩

end ReplicatedMapReduce
