/-
# What can be typed

Every payload a prompt can append has a command in the help text (`OpPayload.tokens`), and the
handlers read it back from there (`doCmd_tokens`).  So the only thing that keeps a typed payload
out of the log is the buffer of `loop`: its command has to fit a line.

`appendable_iff` is the exact range, for inputs whose behaviour is defined to its end.  One
direction types the command.  For the other, no command that appends a payload is shorter than this
one.  A number cannot be written with fewer characters than it is printed with; and for a map-reduce
the loop of the parser pays for everything it finds (`readArgs_cost`), however often a flag is
repeated.

Lines are put together at the prompt: a session appends the payloads of its lines, one after the
other (`doCmds_appendLog`).
-/
import ReplicatedMapReduce.Session

namespace ReplicatedMapReduce

open Words

/-! ## 1. The command of a payload -/

/-- The tokens of the command the help text has for a payload. -/
def OpPayload.tokens (p : OpPayload) : List Str :=
  match p.type with
  | .insertValue => [str "+", p.key, printValue p.value]
  | .deleteValue => [str "-", p.key, printValue p.value]
  | .deleteKey => [str "-", p.key]
  | .mapReduce =>
    str "mapReduce" :: str "--m" :: p.mapOp :: str "--r" :: p.reduceOp :: str "--k" :: p.keys
  | .unknown _ => []

/-- The command with one space between two tokens. -/
def OpPayload.commandLine (p : OpPayload) : Str := unwords ' '.toUInt8 p.tokens

theorem doCmd_mapReduce (args : List Str) :
    doCmd (str "mapReduce" :: args)
      = (handleMapReduceCommand (str "mapReduce" :: args)).map .reaction := rfl

/-- A map-reduce command as the help text has it. -/
theorem doCmd_mapReduce_groups {mapOp reduceOp : Str} {keys : List Str} (hmap : mapOp ≠ [])
    (hreduce : reduceOp ≠ []) (hkeys : keys ≠ []) (hplain : ∀ key ∈ keys, Plain key) :
    doCmd (mapReducePayload mapOp reduceOp keys).tokens
      = .ok (.reaction (.appendLog (mapReducePayload mapOp reduceOp keys))) := by
  have hgroups : ∀ g ∈ [FlagGroup.map mapOp [], .reduce reduceOp [], .keys keys],
      g.WellFormed := by
    intro g hg
    simp only [List.mem_cons, List.not_mem_nil, or_false] at hg
    rcases hg with rfl | rfl | rfl
    · exact ⟨hmap, by simp⟩
    · exact ⟨hreduce, by simp⟩
    · exact hplain
  have htokens : (mapReducePayload mapOp reduceOp keys).tokens
      = commandTokens [] [.map mapOp [], .reduce reduceOp [], .keys keys] := by
    simp [OpPayload.tokens, mapReducePayload, commandTokens, FlagGroup.tokens]
  have hloop := @mapReduceLoop_commandTokens [] _ (by simp) hgroups
  rw [← htokens] at hloop
  have hlong : ¬ (mapReducePayload mapOp reduceOp keys).tokens.length < 7 := by
    have hpos := List.length_pos_iff.mpr hkeys
    simp only [OpPayload.tokens, mapReducePayload, List.length_cons]
    omega
  have hhandle : handleMapReduceCommand (mapReducePayload mapOp reduceOp keys).tokens
      = .ok (.appendLog (mapReducePayload mapOp reduceOp keys)) := by
    rw [handleMapReduceCommand, if_neg hlong, hloop]
    simp [FlagGroup.meaning, hmap, hreduce, hkeys, mapReducePayload]
  have hdo := doCmd_mapReduce (str "--m" :: mapOp :: str "--r" :: reduceOp :: str "--k" :: keys)
  exact hdo.trans (map_reaction_eq_ok_iff.mpr hhandle)

/-- And a store command, with any way to write the number. -/
theorem doCmd_documented {tokens : List Str} {p : OpPayload} (h : Documented tokens p) :
    doCmd tokens = .ok (.reaction (.appendLog p)) := by
  have hnumber : ∀ {num : Str} {value : Int32} (payload : Int32 → OpPayload),
      Decimal.Numeral num value.toInt →
        withNumber num payload = .ok (.appendLog (payload value)) := by
    intro num value payload hnum
    rw [withNumber, stoi_eq_ok_iff.mpr (Decimal.strtol_of_numeral hnum)]
  cases h with
  | add key hnum =>
    rw [doCmd_store rfl (Or.inl rfl), handleKvCommand_add, hnumber _ hnum]
    rfl
  | removeValue key hnum =>
    rw [doCmd_store rfl (Or.inr rfl), handleKvCommand_remove, hnumber _ hnum]
    rfl
  | removeKey key =>
    rw [doCmd_store rfl (Or.inr rfl), handleKvCommand_remove_two]
    rfl

/-- **The command of a typed payload appends it.** -/
theorem doCmd_tokens {p : OpPayload} (h : p.Typed) :
    doCmd p.tokens = .ok (.reaction (.appendLog p)) := by
  cases h with
  | @store type key value htype _ =>
    have hnum := Decimal.numeral_printInt value.toInt
    rcases htype with rfl | rfl | ⟨rfl, rfl⟩
    · exact doCmd_documented (.add key hnum)
    · exact doCmd_documented (.removeValue key hnum)
    · exact doCmd_documented (.removeKey key)
  | mapReduce hmap hreduce hkeys hplain =>
    exact doCmd_mapReduce_groups hmap.1 hreduce.1 hkeys fun key hkey => (hplain key hkey).2

/-- And its tokens are words. -/
theorem isWord_of_mem_tokens {p : OpPayload} (h : p.Typed) {token : Str} (ht : token ∈ p.tokens) :
    IsWord token := by
  have hvalue : ∀ value : Int32, IsWord (printValue value) := fun value =>
    ⟨printValue_ne_nil value, not_mem_printValue (by decide) (by decide) value,
      not_mem_printValue (by decide) (by decide) value,
      not_mem_printValue (by decide) (by decide) value⟩
  have hadd : IsWord (str "+") := by decide
  have hremove : IsWord (str "-") := by decide
  cases h with
  | @store type key value htype hkey =>
    rcases htype with rfl | rfl | ⟨rfl, rfl⟩
    · simp only [OpPayload.tokens, List.mem_cons, List.not_mem_nil, or_false] at ht
      rcases ht with rfl | rfl | rfl
      · exact hadd
      · exact hkey
      · exact hvalue value
    · simp only [OpPayload.tokens, List.mem_cons, List.not_mem_nil, or_false] at ht
      rcases ht with rfl | rfl | rfl
      · exact hremove
      · exact hkey
      · exact hvalue value
    · simp only [OpPayload.tokens, List.mem_cons, List.not_mem_nil, or_false] at ht
      rcases ht with rfl | rfl
      · exact hremove
      · exact hkey
  | @mapReduce mapOp reduceOp keys hmap hreduce hkeys hplain =>
    simp only [OpPayload.tokens, mapReducePayload, List.mem_cons] at ht
    rcases ht with rfl | rfl | rfl | rfl | rfl | rfl | ht
    · decide
    · decide
    · exact hmap
    · decide
    · exact hreduce
    · decide
    · exact (hplain token ht).1

/-! ## 2. No command is shorter -/

/-- The length of the shortest line with the tokens, and its end. -/
def lineLength (tokens : List Str) : ℕ := (tokens.map fun t : Str => t.length + 1).sum

theorem lineLength_cons (token : Str) (tokens : List Str) :
    lineLength (token :: tokens) = token.length + 1 + lineLength tokens := by
  rw [lineLength, List.map_cons, List.sum_cons, lineLength]

theorem lineLength_append (tokens tokens' : List Str) :
    lineLength (tokens ++ tokens') = lineLength tokens + lineLength tokens' := by
  rw [lineLength, List.map_append, List.sum_append, lineLength, lineLength]

/-- What the parser has to have read for what it has found: each function with its flag, one `--k`
and all the keys. -/
def MapReduceArgs.cost (args : MapReduceArgs) : ℕ :=
  (if args.mapFunc = [] then 0 else 4 + (args.mapFunc.length + 1)) +
    (if args.reduceFunc = [] then 0 else 4 + (args.reduceFunc.length + 1)) +
    (if args.keys = [] ∧ args.isKeyFlag = false then 0 else 4) + lineLength args.keys

theorem MapReduceArgs.cost_read (args : MapReduceArgs) (token : Str) :
    (args.read token).cost ≤ args.cost + (token.length + 1) := by
  unfold MapReduceArgs.read
  split
  · rename_i hk
    have hlen : token.length = 3 := by rw [hk]; rfl
    simp only [cost, Bool.true_eq_false, and_false, if_false]
    omega
  · split
    · rename_i hflag
      simp only [cost, hflag, Bool.true_eq_false, and_false, if_false, lineLength_append,
        lineLength_cons]
      have hnil : lineLength [] = 0 := rfl
      omega
    · omega

/-- A function costs its flag and itself. -/
theorem cost_func_le (func : Str) :
    (if func = [] then 0 else 4 + (func.length + 1)) ≤ 4 + (func.length + 1) := by
  split <;> omega

/-- Without the flag of the keys nothing is more expensive. -/
theorem cost_keys_le (keys : List Str) (isKeyFlag : Bool) :
    (if keys = [] ∧ (false : Bool) = false then 0 else 4)
      ≤ if keys = [] ∧ isKeyFlag = false then 0 else 4 := by
  by_cases hkeys : keys = []
  · simp [hkeys]
  · simp [hkeys]

/-- **The parser pays for everything it finds.** -/
theorem readArgs_cost {args args' : MapReduceArgs} {tokens : List Str}
    (h : readArgs args tokens = some args') : args'.cost ≤ args.cost + lineLength tokens := by
  induction tokens using List.twoStepInduction generalizing args with
  | nil =>
    cases h
    exact Nat.le_add_right _ _
  | singleton token =>
    by_cases htakes : TakesArgument token
    · rw [readArgs_last htakes] at h
      exact absurd h (by simp)
    · rw [readArgs_other htakes] at h
      cases h
      exact args.cost_read token
  | cons_cons token next rest ih ihnext =>
    by_cases htakes : TakesArgument token
    · have hnext := cost_func_le next
      have hkeys := cost_keys_le args.keys args.isKeyFlag
      have hlen : token.length = 3 := by
        rcases htakes with rfl | rfl <;> rfl
      rw [lineLength_cons, lineLength_cons, hlen]
      rcases htakes with rfl | rfl
      · rw [readArgs_map] at h
        have hrest := ih h
        simp only [MapReduceArgs.cost] at hrest hkeys ⊢
        omega
      · rw [readArgs_reduce] at h
        have hrest := ih h
        simp only [MapReduceArgs.cost] at hrest hkeys ⊢
        omega
    · rw [readArgs_other htakes] at h
      have hrest := ihnext next h
      have hread := args.cost_read token
      rw [lineLength_cons]
      omega

theorem stoi_of_stoiElement_three {cmd key num : Str} {value : Int32}
    (h : stoiElement [cmd, key, num] 2 = .ok value) : stoi num = .ok value := by
  rw [stoiElement_three] at h
  cases hstoi : stoi num with
  | error e =>
    rw [hstoi] at h
    exact absurd h (by simp [Except.mapError])
  | ok value' =>
    rw [hstoi] at h
    cases h
    rfl

theorem lineLength_tokens_of_handleKvCommand {cmd : Str} {tokens : List Str} {p : OpPayload}
    (hhead : tokens.head? = some cmd) (h : handleKvCommand cmd tokens = .ok (.appendLog p)) :
    lineLength p.tokens ≤ lineLength tokens := by
  obtain ⟨htwo, key, hkey, hcase⟩ := handleKvCommand_appendLog h
  obtain ⟨args, rfl⟩ := List.head?_eq_some_iff.mp hhead
  obtain ⟨rest, rfl⟩ : ∃ rest, args = key :: rest := by
    rcases args with _ | ⟨key', rest⟩
    · exact absurd htwo (by simp)
    · have hkey' : key' = key := by simpa [element] using hkey
      exact ⟨rest, by rw [hkey']⟩
  -- with three tokens the number decides, and it is not shorter than what is printed for it
  have hthree : ∀ value, (cmd :: key :: rest).length = 3 →
      stoiElement (cmd :: key :: rest) 2 = .ok value →
      lineLength [cmd, key, printValue value] ≤ lineLength (cmd :: key :: rest) := by
    intro value hlen hvalue
    obtain ⟨num, rfl⟩ : ∃ num, rest = [num] := List.length_eq_one_iff.mp (by simpa using hlen)
    have hle := length_printValue_le (stoi_of_stoiElement_three hvalue)
    simp only [lineLength_cons]
    omega
  rcases hcase with ⟨rfl, hlen, value, hvalue, rfl⟩ | ⟨rfl, hlen, value, hvalue, rfl⟩ |
    ⟨rfl, -, rfl⟩
  · exact hthree value hlen hvalue
  · exact hthree value hlen hvalue
  · simp only [OpPayload.tokens, lineLength_cons]
    have hnil : lineLength [] = 0 := rfl
    omega

/-- **No command that appends a payload is shorter than the one of the help text.** -/
theorem lineLength_tokens_le {tokens : List Str} {p : OpPayload}
    (h : doCmd tokens = .ok (.reaction (.appendLog p))) :
    lineLength p.tokens ≤ lineLength tokens := by
  rcases doCmd_cases tokens with ⟨cmd, hhead, -, hdo⟩ | ⟨hhead, hdo⟩ | ⟨-, d, hdo, hnone, -⟩
  · rw [hdo, map_reaction_eq_ok_iff] at h
    exact lineLength_tokens_of_handleKvCommand hhead h
  · rw [hdo, map_reaction_eq_ok_iff] at h
    obtain ⟨args, hread, hmap, hreduce, hkeys, rfl⟩ := handleMapReduceCommand_appendLog h
    obtain ⟨rest, rfl⟩ := List.head?_eq_some_iff.mp hhead
    have hcost := readArgs_cost hread
    have hzero : MapReduceArgs.cost {} = 0 := rfl
    rw [hzero, Nat.zero_add, List.drop_one, List.tail_cons, MapReduceArgs.cost, if_neg hmap,
      if_neg hreduce, if_neg fun h => hkeys h.1] at hcost
    have hm : (str "--m").length = 3 := rfl
    have hr : (str "--r").length = 3 := rfl
    have hk : (str "--k").length = 3 := rfl
    simp only [OpPayload.tokens, mapReducePayload, lineLength_cons]
    omega
  · rw [hdo, Except.ok.injEq] at h
    exact absurd h (hnone _)

/-! ## 3. The exact range -/

/-- A line that shows some tokens. -/
theorem tokenize_of_spaced {line : Str} {tokens : List Str} (hnul : (0 : UInt8) ∉ line)
    (h : Spaced ' '.toUInt8 tokens line) : tokenize line ' '.toUInt8 = tokens := by
  rw [tokenize_eq, cString_of_not_mem hnul]
  exact words_eq_iff.mpr h

/-- A session on lines that all fit. -/
theorem loop_unlines {ls : List Str} (h : ∀ l ∈ ls, '\n'.toUInt8 ∉ l ∧ l.length < 1000) :
    loop (Getline.unlines '\n'.toUInt8 ls)
      = doCmds (ls.map fun cmd => tokenize cmd ' '.toUInt8) := by
  have hall : linesRead (Getline.unlines '\n'.toUInt8 ls) = ls := by
    rw [linesRead, Getline.lines_unlines fun l hl => (h l hl).1]
    exact List.takeWhile_eq_self_iff.mpr fun l hl => decide_eq_true (h l hl).2
  rw [loop_eq, hall]

/-- Commands that append something, one after the other. -/
theorem doCmds_appendLog {cmds : List (List Str)} {ps : List OpPayload}
    (h : List.Forall₂ (fun tokens p => doCmd tokens = .ok (.reaction (.appendLog p))) cmds ps) :
    doCmds cmds = ⟨ps.map fun p => .reaction (.appendLog p), .getlineFailed⟩ := by
  induction h with
  | nil => rfl
  | cons hdo _ ih =>
    rw [doCmds, hdo]
    dsimp only
    rw [ih]
    rfl

theorem appended_mk (ps : List OpPayload) (ending : Ending) :
    (Session.mk (ps.map fun p => .reaction (.appendLog p)) ending).appended = ps := by
  rw [Session.appended, List.filterMap_map]
  exact (List.filterMap_congr fun p _ => rfl).trans List.filterMap_some

/-- **Exactly what can be typed.**  Some input whose behaviour is defined to its end appends a
payload if and only if it is typed and its command is shorter than 1000 bytes. -/
theorem appendable_iff (p : OpPayload) :
    (∃ input, (loop input).ending ≠ .undefined ∧ p ∈ (loop input).appended) ↔
      p.Typed ∧ p.commandLine.length < 1000 := by
  constructor
  · rintro ⟨input, -, hp⟩
    refine ⟨appended_typed hp, ?_⟩
    obtain ⟨cmd, hcmd, hdo⟩ := mem_appended_loop hp
    have hfits := (of_mem_linesRead hcmd).2
    have hle := lineLength_tokens_le hdo
    have hroom : lineLength (tokenize cmd ' '.toUInt8) ≤ (cString cmd).length + 1 := by
      rw [tokenize_eq]
      exact (spaced_words (cString cmd)).sum_le
    have hprefix : (cString cmd).length ≤ cmd.length := (List.takeWhile_sublist _).length_le
    have hne : p.tokens ≠ [] := by
      cases appended_typed hp with
      | store htype _ => rcases htype with rfl | rfl | ⟨rfl, rfl⟩ <;> exact List.cons_ne_nil _ _
      | mapReduce => exact List.cons_ne_nil _ _
    have hline := @length_unwords _ ' '.toUInt8 _ hne
    rw [← lineLength] at hline
    rw [OpPayload.commandLine]
    omega
  · rintro ⟨htyped, hfits⟩
    have hwords : ∀ token ∈ p.tokens, IsWord token := fun token ht =>
      isWord_of_mem_tokens htyped ht
    have hline : ∀ c : UInt8, c ≠ ' '.toUInt8 → (∀ token ∈ p.tokens, c ∉ token) →
        c ∉ p.commandLine := by
      intro c hc htokens hmem
      rcases mem_unwords hmem with h | ⟨token, ht, h⟩
      · exact hc h
      · exact htokens token ht h
    have htokenize : tokenize p.commandLine ' '.toUInt8 = p.tokens := by
      refine tokenize_of_spaced (hline 0 (by decide) fun t ht => (hwords t ht).2.2.2) ?_
      exact spaced_unwords fun t ht => ⟨(hwords t ht).1, (hwords t ht).2.1⟩
    refine ⟨Getline.unlines '\n'.toUInt8 [p.commandLine], ?_⟩
    have hone : List.Forall₂ (fun tokens p => doCmd tokens = .ok (.reaction (.appendLog p)))
        [p.tokens] [p] := .cons (doCmd_tokens htyped) .nil
    rw [loop_unlines, List.map_singleton, htokenize, doCmds_appendLog hone, appended_mk]
    · exact ⟨by simp, List.mem_singleton_self p⟩
    · intro l hl
      obtain rfl := List.mem_singleton.mp hl
      exact ⟨hline _ (by decide) fun t ht => (hwords t ht).2.2.1, hfits⟩

end ReplicatedMapReduce
