/-
# A session at the prompt

`loop` reads the standard input line by line, cuts each line into tokens and hands them to `do_cmd`.
This module takes it from there to the bytes of the input.

* `tokenize` walks two pointers along a C string.  The tokens it finds are the words of the line,
  however they are spaced (`tokenize_eq_iff`).
* `getline` gives up on a line that does not fit its buffer, and `loop` takes that for the end of
  the input.  Up to there a session is nothing but `do_cmd` on one line after the other (`loop_eq`).
* An exception that leaves `do_cmd` ends the process, with the prompt.  A token that is read where
  there is none is another matter: the language leaves open what happens from there on, so a session
  in the sense of this module is over (`Ending.undefined`), whatever a process goes on to do.
  `session_faults_iff` says which inputs lead to either of them first.
* Whatever the input, what a session appends to the log up to there has a key, and keys and the
  names of operations are words: not empty, and without spaces and line ends (`appended_typed`).
-/
import ReplicatedMapReduce.Commands
import ReplicatedMapReduce.MapReduceCommand
import ReplicatedMapReduce.Foundation.Words

namespace ReplicatedMapReduce

open Words

/-! ## 1. `tokenize` -/

/-- The bytes of a `const char*`, up to the first NUL. -/
def cString (s : Str) : Str := s.takeWhile (· ≠ 0)

/-- The loops of `tokenize`, on the bytes from `str` on; `token` is what lies between `begin` and
`str`. -/
def tokenizeLoop (c : UInt8) (token : Str) : Str → List Str
  | [] => if token ≠ [] then [token] else []
  | d :: rest =>
    if d = c then
      if token ≠ [] then token :: tokenizeLoop c [] rest else tokenizeLoop c [] rest
    else tokenizeLoop c (token ++ [d]) rest

def tokenize (s : Str) (c : UInt8) : List Str := tokenizeLoop c [] (cString s)

theorem tokenizeLoop_eq {c : UInt8} {token : Str} (h : c ∉ token) (s : Str) :
    tokenizeLoop c token s = words c (token ++ s) := by
  induction s generalizing token with
  | nil =>
    rw [tokenizeLoop, List.append_nil]
    split
    · rename_i hne
      rw [words_of_not_mem hne h]
    · rename_i hnil
      rw [not_not.mp hnil, words_nil]
  | cons d s ih =>
    rw [tokenizeLoop]
    split
    · rename_i hd
      rw [hd, words_append_cons h, ih List.not_mem_nil, List.nil_append]
      by_cases hnil : token = []
      · rw [if_neg (not_not.mpr hnil), if_pos hnil]
      · rw [if_pos hnil, if_neg hnil]
    · rename_i hd
      have h' : c ∉ token ++ [d] := by
        rw [List.mem_append, List.mem_singleton]
        rintro (hc | hc)
        · exact h hc
        · exact hd hc.symm
      rw [ih h', List.append_assoc, List.singleton_append]

/-- **`tokenize` finds the words of the line.** -/
theorem tokenize_eq (s : Str) (c : UInt8) : tokenize s c = words c (cString s) :=
  tokenizeLoop_eq List.not_mem_nil (cString s)

/-- **Which tokens `tokenize` finds**: those the line is a way to write down, however they are
spaced. -/
theorem tokenize_eq_iff {s : Str} {c : UInt8} {tokens : List Str} :
    tokenize s c = tokens ↔ Spaced c tokens (cString s) := by
  rw [tokenize_eq, words_eq_iff]

theorem cString_of_not_mem {s : Str} (hnul : (0 : UInt8) ∉ s) : cString s = s := by
  refine List.takeWhile_eq_self_iff.mpr ?_
  intro d hd
  exact decide_eq_true fun h : d = 0 => hnul (h ▸ hd)

/-- The bytes that end a token, a line or a C string. -/
def IsWord (token : Str) : Prop :=
  token ≠ [] ∧ ' '.toUInt8 ∉ token ∧ '\n'.toUInt8 ∉ token ∧ (0 : UInt8) ∉ token

instance : DecidablePred IsWord := fun _ => inferInstanceAs (Decidable (_ ∧ _))

/-- The tokens of a line are words. -/
theorem isWord_of_mem_tokenize {s token : Str} (hs : '\n'.toUInt8 ∉ s)
    (h : token ∈ tokenize s ' '.toUInt8) : IsWord token := by
  rw [tokenize_eq] at h
  obtain ⟨hne, hspace, hsub⟩ := of_mem_words h
  refine ⟨hne, hspace, fun hc => hs ?_, fun hc => ?_⟩
  · exact List.takeWhile_subset _ (hsub _ hc)
  · have hnul : (0 : UInt8) ∈ s.takeWhile (· ≠ 0) := hsub 0 hc
    exact absurd (List.mem_takeWhile_imp hnul) (by decide)

/-! ## 2. `loop` -/

/-- `std::cin.getline(cmd, size)`: the line and the rest of the input.  It fails at the end of the
input, and on a line that has no room in `size` bytes with the NUL after it. -/
def cinGetline (size : ℕ) (input : Str) : Option (Str × Str) :=
  match Getline.getline '\n'.toUInt8 input with
  | none => none
  | some (cmd, rest) => if cmd.length < size then some (cmd, rest) else none

/-- How `loop` ends, or gets to where the language does not say what it does. -/
inductive Ending
  | getlineFailed
  /-- `do_cmd` answers `false`. -/
  | exit
  /-- An exception leaves `do_cmd`. -/
  | thrown (e : StdException)
  /-- Behaviour is undefined from here on. -/
  | undefined
  deriving DecidableEq

/-- Only an exception ends anything. -/
def Ending.ofFault : Fault → Ending
  | .thrown e => .thrown e
  | .endDereferenced => .undefined
  | .outOfBounds _ _ => .undefined
  | .assertionFailed => .undefined

/-- What the commands of a session did, and how it ended. -/
structure Session where
  did : List Dispatch
  ending : Ending
  deriving DecidableEq

def Session.push (d : Dispatch) (session : Session) : Session :=
  { session with did := d :: session.did }

/-- The loop, with `turns` turns left. -/
def loopTurns : ℕ → Str → Session
  | 0, _ => ⟨[], .getlineFailed⟩
  | turns + 1, input =>
    match cinGetline 1000 input with
    | none => ⟨[], .getlineFailed⟩
    | some (cmd, rest) =>
      match doCmd (tokenize cmd ' '.toUInt8) with
      | .error e => ⟨[], .ofFault e⟩
      | .ok .exit => ⟨[], .exit⟩
      | .ok d => (loopTurns turns rest).push d

/-- `loop`.  Every turn takes something from the input, so these are turns enough. -/
def loop (input : Str) : Session := loopTurns (input.length + 1) input

/-- The session of a sequence of commands, each given as its tokens.  Nothing is said of what comes
after a command that throws, or whose behaviour is not defined. -/
def doCmds : List (List Str) → Session
  | [] => ⟨[], .getlineFailed⟩
  | tokens :: rest =>
    match doCmd tokens with
    | .error e => ⟨[], .ofFault e⟩
    | .ok .exit => ⟨[], .exit⟩
    | .ok d => (doCmds rest).push d

/-- The lines `getline` reads before it fails. -/
def linesRead (input : Str) : List Str :=
  (Getline.lines '\n'.toUInt8 input).takeWhile (·.length < 1000)

theorem of_mem_linesRead {input cmd : Str} (h : cmd ∈ linesRead input) :
    '\n'.toUInt8 ∉ cmd ∧ cmd.length < 1000 := by
  have hwhile : cmd ∈ (Getline.lines '\n'.toUInt8 input).takeWhile (·.length < 1000) := h
  have hfits := List.mem_takeWhile_imp hwhile
  exact ⟨(Getline.of_mem_lines (List.takeWhile_subset _ hwhile)).1, of_decide_eq_true hfits⟩

theorem loopTurns_eq {turns : ℕ} {input : Str} (h : input.length < turns) :
    loopTurns turns input
      = doCmds ((linesRead input).map fun cmd => tokenize cmd ' '.toUInt8) := by
  induction turns generalizing input with
  | zero => exact absurd h (Nat.not_lt_zero _)
  | succ turns ih =>
    rcases eq_or_ne input [] with rfl | hne
    · rfl
    · obtain ⟨cmd, rest, hg, hlines, hlt⟩ : ∃ cmd rest,
          Getline.getline '\n'.toUInt8 input = some (cmd, rest) ∧
          Getline.lines '\n'.toUInt8 input = cmd :: Getline.lines '\n'.toUInt8 rest ∧
          rest.length < input.length := by
        have hlines := @Getline.lines_eq_getline _ '\n'.toUInt8 _ input
        obtain ⟨cmd, -, ⟨rest, rfl, hg⟩ | ⟨rfl, hg⟩⟩ := Getline.getline_cases '\n'.toUInt8 hne
        · rw [hg] at hlines
          refine ⟨cmd, rest, hg, hlines, ?_⟩
          rw [List.length_append, List.length_cons]
          omega
        · rw [hg] at hlines
          exact ⟨_, [], hg, hlines, List.length_pos_iff.mpr hne⟩
      rw [loopTurns, cinGetline, hg, linesRead, hlines, List.takeWhile_cons]
      dsimp only
      by_cases hfits : cmd.length < 1000
      · rw [if_pos hfits, if_pos (decide_eq_true hfits), List.map_cons, doCmds, ← linesRead,
          ← ih (by omega)]
      · rw [if_neg hfits, if_neg (by simpa using hfits)]
        rfl

/-- **A session is `do_cmd` on the tokens of one line after the other**, up to the first line that
does not fit the buffer. -/
theorem loop_eq (input : Str) :
    loop input = doCmds ((linesRead input).map fun cmd => tokenize cmd ' '.toUInt8) :=
  loopTurns_eq (Nat.lt_succ_self _)

/-! ## 3. Inputs that bring the server down -/

/-- The commands that end the session. -/
def Leaves (tokens : List Str) : Prop :=
  tokens.head? = some (str "q") ∨ tokens.head? = some (str "exit")

/-- The commands that throw: three tokens of which the last cannot be read as an `int`. -/
def Throws (tokens : List Str) : Prop :=
  (tokens.head? = some (str "+") ∨ tokens.head? = some (str "-")) ∧
    ∃ num, tokens.length = 3 ∧ tokens[2]? = some num ∧ ¬ ReadsInt num

/-- The commands that read a token which is not there: a map-reduce that is long enough and ends
with an odd number of flags. -/
def ReadsOutside (tokens : List Str) : Prop :=
  tokens.head? = some (str "mapReduce") ∧ 7 ≤ tokens.length ∧
    ¬ Even (trailingFlags (tokens.drop 1))

/-- The commands after which the next line is read. -/
def GoesOn (tokens : List Str) : Prop :=
  ¬ Leaves tokens ∧ ¬ Throws tokens ∧ ¬ ReadsOutside tokens

/-- The handler of the store commands reads no token that is not there. -/
theorem handleKvCommand_error {cmd : Str} {tokens : List Str} {e : Fault}
    (hhead : tokens.head? = some cmd) (hcmd : cmd = str "+" ∨ cmd = str "-")
    (h : handleKvCommand cmd tokens = .error e) : ∃ exc, e = .thrown exc := by
  have hnumber : ∀ {num : Str} {payload : Int32 → OpPayload}, withNumber num payload = .error e →
      ∃ exc, e = .thrown exc := by
    intro num payload hnum
    rw [withNumber] at hnum
    split at hnum
    · exact absurd hnum (by simp)
    · cases hnum
      exact ⟨_, rfl⟩
  rcases tokens_cases hhead with rfl | ⟨key, rfl⟩ | ⟨key, num, rfl⟩ | ⟨key, num, more, rest, rfl⟩
  · rw [handleKvCommand_one] at h
    exact absurd h (by simp)
  · rcases hcmd with rfl | rfl
    · rw [handleKvCommand_add_two] at h
      exact absurd h (by simp)
    · rw [handleKvCommand_remove_two] at h
      exact absurd h (by simp)
  · rcases hcmd with rfl | rfl
    · rw [handleKvCommand_add] at h
      exact hnumber h
    · rw [handleKvCommand_remove] at h
      exact hnumber h
  · rcases hcmd with rfl | rfl
    · rw [handleKvCommand_add_more] at h
      exact absurd h (by simp)
    · rw [handleKvCommand_remove_more] at h
      exact absurd h (by simp)

theorem handleMapReduceCommand_returns_iff (tokens : List Str) :
    (∃ reaction, handleMapReduceCommand tokens = .ok reaction) ↔
      tokens.length < 7 ∨ Even (trailingFlags (tokens.drop 1)) := by
  unfold handleMapReduceCommand
  rw [← readArgs_isSome_iff {}, mapReduceLoop_eq {} (by omega)]
  split
  · rename_i hshort
    exact iff_of_true ⟨_, rfl⟩ (Or.inl hshort)
  · rename_i hlong
    cases readArgs {} (tokens.drop 1) with
    | none => simp [hlong]
    | some args =>
      refine iff_of_true ?_ (Or.inr rfl)
      dsimp only
      split <;> exact ⟨_, rfl⟩

/-- And it throws nothing. -/
theorem handleMapReduceCommand_error {tokens : List Str} {e : Fault}
    (h : handleMapReduceCommand tokens = .error e) :
    e = .outOfBounds tokens.length tokens.length := by
  unfold handleMapReduceCommand at h
  rw [mapReduceLoop_eq {} (by omega)] at h
  split at h
  · exact absurd h (by simp)
  · cases hread : readArgs {} (tokens.drop 1) with
    | none =>
      rw [hread] at h
      cases h
      rfl
    | some args =>
      rw [hread] at h
      dsimp only at h
      split at h <;> exact absurd h (by simp)

/-- **What `do_cmd` does**, by the first token: the two handlers, or nothing that touches the
log. -/
theorem doCmd_cases (tokens : List Str) :
    (∃ cmd, tokens.head? = some cmd ∧ (cmd = str "+" ∨ cmd = str "-") ∧
      doCmd tokens = (handleKvCommand cmd tokens).map .reaction) ∨
    (tokens.head? = some (str "mapReduce") ∧
      doCmd tokens = (handleMapReduceCommand tokens).map .reaction) ∨
    ((∀ cmd, tokens.head? = some cmd → cmd ≠ str "+" ∧ cmd ≠ str "-" ∧ cmd ≠ str "mapReduce") ∧
      ∃ d, doCmd tokens = .ok d ∧ (∀ reaction, d ≠ .reaction reaction) ∧
        (d = .exit ↔ Leaves tokens)) := by
  rcases tokens with _ | ⟨cmd, args⟩
  · refine Or.inr (Or.inr ⟨by simp, .nothing, rfl, by simp, ?_⟩)
    simp [Leaves]
  · by_cases hkv : cmd = str "+" ∨ cmd = str "-"
    · exact Or.inl ⟨cmd, rfl, hkv, doCmd_store rfl hkv⟩
    · by_cases hmr : cmd = str "mapReduce"
      · subst hmr
        exact Or.inr (Or.inl ⟨rfl, rfl⟩)
      · rw [not_or] at hkv
        refine Or.inr (Or.inr ⟨?_, ?_⟩)
        · rintro cmd' hcmd'
          obtain rfl : cmd = cmd' := by simpa using hcmd'
          exact ⟨hkv.1, hkv.2, hmr⟩
        · have hleaves : Leaves (cmd :: args) ↔ cmd = str "q" ∨ cmd = str "exit" := by
            simp [Leaves]
          rw [hleaves]
          unfold doCmd
          dsimp only
          rw [if_neg hmr, if_neg hkv.1, if_neg hkv.2]
          by_cases hexit : cmd = str "q" ∨ cmd = str "exit"
          · rw [if_pos hexit]
            exact ⟨_, rfl, by simp, iff_of_true rfl hexit⟩
          · rw [if_neg hexit]
            have hrest : ∀ d : Dispatch, (d = .nothing ∨ d = .other cmd) →
                (∀ reaction, d ≠ .reaction reaction) ∧
                  (d = .exit ↔ cmd = str "q" ∨ cmd = str "exit") := by
              rintro d (rfl | rfl)
              · exact ⟨by simp, iff_of_false (by simp) hexit⟩
              · exact ⟨by simp, iff_of_false (by simp) hexit⟩
            split_ifs
            all_goals first
              | exact ⟨_, rfl, hrest _ (Or.inr rfl)⟩
              | exact ⟨_, rfl, hrest _ (Or.inl rfl)⟩

/-- What `do_cmd` appends is what the handler appends. -/
theorem map_reaction_eq_ok_iff {x : Except Fault Reaction} {reaction : Reaction} :
    x.map Dispatch.reaction = .ok (.reaction reaction) ↔ x = .ok reaction := by
  cases x <;> simp [Except.map]

theorem map_eq_error_iff {ε α β : Type} {f : α → β} {x : Except ε α} {e : ε} :
    x.map f = .error e ↔ x = .error e := by
  cases x <;> simp [Except.map]

theorem exists_error_iff {ε α : Type} {x : Except ε α} :
    (∃ e, x = .error e) ↔ ¬ ∃ a, x = .ok a := by
  cases x <;> simp

/-- **Which commands throw.** -/
theorem doCmd_throws_iff (tokens : List Str) :
    (∃ e, doCmd tokens = .error (.thrown e)) ↔ Throws tokens := by
  rcases doCmd_cases tokens with ⟨cmd, hhead, hcmd, hdo⟩ | ⟨hhead, hdo⟩ | ⟨hother, d, hdo, -⟩
  · have hthrown : (∃ e, doCmd tokens = .error (.thrown e)) ↔
        ∃ e, handleKvCommand cmd tokens = .error e := by
      simp only [hdo, map_eq_error_iff]
      refine ⟨fun ⟨e, he⟩ => ⟨_, he⟩, fun ⟨e, he⟩ => ?_⟩
      obtain ⟨exc, rfl⟩ := handleKvCommand_error hhead hcmd he
      exact ⟨exc, he⟩
    rw [hthrown, exists_error_iff, handleKvCommand_returns_iff hhead hcmd, Throws, hhead]
    simp [hcmd]
  · rw [hdo, Throws, hhead]
    have hadd : str "mapReduce" ≠ str "+" := by decide
    have hremove : str "mapReduce" ≠ str "-" := by decide
    refine iff_of_false ?_ (by simp [hadd, hremove])
    rintro ⟨e, he⟩
    exact absurd (handleMapReduceCommand_error (map_eq_error_iff.mp he)) (by simp)
  · rw [hdo]
    refine iff_of_false (by simp) ?_
    rintro ⟨hhead | hhead, -⟩
    · exact (hother _ hhead).1 rfl
    · exact (hother _ hhead).2.1 rfl

/-- **Which commands read a token that is not there.** -/
theorem doCmd_readsOutside_iff (tokens : List Str) :
    (∃ e, doCmd tokens = .error e ∧ Ending.ofFault e = .undefined) ↔ ReadsOutside tokens := by
  rcases doCmd_cases tokens with ⟨cmd, hhead, hcmd, hdo⟩ | ⟨hhead, hdo⟩ | ⟨hother, d, hdo, -⟩
  · have hne : cmd ≠ str "mapReduce" := by
      rcases hcmd with rfl | rfl <;> decide
    refine iff_of_false ?_ fun h => hne (Option.some.inj (hhead.symm.trans h.1))
    rintro ⟨e, he, hundefined⟩
    rw [hdo, map_eq_error_iff] at he
    obtain ⟨exc, rfl⟩ := handleKvCommand_error hhead hcmd he
    exact absurd hundefined (by simp [Ending.ofFault])
  · have hundefined : (∃ e, doCmd tokens = .error e ∧ Ending.ofFault e = .undefined) ↔
        ∃ e, handleMapReduceCommand tokens = .error e := by
      simp only [hdo, map_eq_error_iff]
      refine ⟨fun ⟨e, he, _⟩ => ⟨e, he⟩, fun ⟨e, he⟩ => ⟨e, he, ?_⟩⟩
      rw [handleMapReduceCommand_error he]
      rfl
    rw [hundefined, exists_error_iff, handleMapReduceCommand_returns_iff, ReadsOutside, hhead,
      not_or, Nat.not_lt]
    simp
  · rw [hdo]
    exact iff_of_false (by simp) fun h => (hother _ h.1).2.2 rfl

/-- Which ones end the session. -/
theorem doCmd_exit_iff (tokens : List Str) : doCmd tokens = .ok .exit ↔ Leaves tokens := by
  rcases doCmd_cases tokens with ⟨cmd, hhead, hcmd, hdo⟩ | ⟨hhead, hdo⟩ | ⟨-, d, hdo, -, hexit⟩
  · rw [hdo, Leaves, hhead]
    refine iff_of_false ?_ ?_
    · cases handleKvCommand cmd tokens <;> simp [Except.map]
    · rcases hcmd with rfl | rfl <;> decide
  · rw [hdo, Leaves, hhead]
    refine iff_of_false ?_ (by decide)
    cases handleMapReduceCommand tokens <;> simp [Except.map]
  · rw [hdo, ← hexit, Except.ok.injEq]

/-- To be the first element of its kind is to be at the head, or behind a head that is passed. -/
theorem exists_first_cons_iff {α : Type} {P Q : α → Prop} (x : α) (l : List α) :
    (∃ before a after, x :: l = before ++ a :: after ∧ (∀ b ∈ before, P b) ∧ Q a) ↔
      Q x ∨ (P x ∧ ∃ before a after, l = before ++ a :: after ∧ (∀ b ∈ before, P b) ∧ Q a) := by
  constructor
  · rintro ⟨before, a, after, heq, hbefore, ha⟩
    rcases before with _ | ⟨b, before⟩
    · rw [List.nil_append, List.cons.injEq] at heq
      exact Or.inl (heq.1 ▸ ha)
    · rw [List.cons_append, List.cons.injEq] at heq
      obtain ⟨rfl, heq⟩ := heq
      rw [List.forall_mem_cons] at hbefore
      exact Or.inr ⟨hbefore.1, before, a, after, heq, hbefore.2, ha⟩
  · rintro (hx | ⟨hx, before, a, after, heq, hbefore, ha⟩)
    · exact ⟨[], x, l, rfl, by simp, hx⟩
    · exact ⟨x :: before, a, after, by rw [heq, List.cons_append],
        List.forall_mem_cons.mpr ⟨hx, hbefore⟩, ha⟩

/-- The next line is read exactly if the command returns and does not leave. -/
theorem goesOn_iff (tokens : List Str) : GoesOn tokens ↔ ∃ d, doCmd tokens = .ok d ∧ d ≠ .exit := by
  rw [GoesOn, ← doCmd_exit_iff, ← doCmd_throws_iff, ← doCmd_readsOutside_iff]
  cases doCmd tokens with
  | ok d => simp
  | error e => cases e <;> simp [Ending.ofFault]

/-- **The first command after which no line is read decides how a session ends.**  `P` is about
endings other than the two regular ones. -/
theorem doCmds_ending_iff {P : Ending → Prop} (hgetline : ¬ P .getlineFailed) (hexit : ¬ P .exit)
    (cmds : List (List Str)) :
    P (doCmds cmds).ending ↔
      ∃ before tokens after, cmds = before ++ tokens :: after ∧ (∀ t ∈ before, GoesOn t) ∧
        ∃ e, doCmd tokens = .error e ∧ P (.ofFault e) := by
  induction cmds with
  | nil => simp [doCmds, hgetline]
  | cons tokens cmds ih =>
    rw [exists_first_cons_iff, ← ih, doCmds, goesOn_iff]
    split
    · rename_i e hdo
      simp [hdo]
    · rename_i hdo
      simp [hdo, hexit]
    · rename_i d hne hdo
      have hne : d ≠ .exit := hne
      simp [hdo, hne, Session.push]

/-- A line that is read is of the kind, and after all lines before it the next one is read. -/
def FirstLine (kind : List Str → Prop) (input : Str) : Prop :=
  ∃ before cmd after, linesRead input = before ++ cmd :: after ∧
    (∀ l ∈ before, GoesOn (tokenize l ' '.toUInt8)) ∧ kind (tokenize cmd ' '.toUInt8)

theorem firstLine_iff {kind : List Str → Prop} {input : Str} :
    FirstLine kind input ↔
      ∃ before tokens after,
        (linesRead input).map (fun cmd => tokenize cmd ' '.toUInt8) = before ++ tokens :: after ∧
        (∀ t ∈ before, GoesOn t) ∧ kind tokens := by
  constructor
  · rintro ⟨before, cmd, after, heq, hbefore, hkind⟩
    exact ⟨_, _, _, by rw [heq, List.map_append, List.map_cons], List.forall_mem_map.mpr hbefore,
      hkind⟩
  · rintro ⟨before, tokens, after, heq, hbefore, hkind⟩
    obtain ⟨before', rest, hlines, rfl, hrest⟩ := List.map_eq_append_iff.mp heq
    obtain ⟨cmd, after', rfl, rfl, rfl⟩ := List.map_eq_cons_iff.mp hrest
    exact ⟨before', cmd, after', hlines, List.forall_mem_map.mp hbefore, hkind⟩

/-- **How an input brings a session down.**  An exception ends it exactly if one of the lines that
are read throws and after all lines before it the next one is read; and with one that reads a token
which is not there it is the same. -/
theorem session_faults_iff (input : Str) :
    ((∃ e, (loop input).ending = .thrown e) ↔ FirstLine Throws input) ∧
    ((loop input).ending = .undefined ↔ FirstLine ReadsOutside input) := by
  constructor
  · have hthrown : ∀ tokens, Throws tokens ↔
        ∃ e, doCmd tokens = .error e ∧ ∃ exc, Ending.ofFault e = .thrown exc := by
      intro tokens
      rw [← doCmd_throws_iff]
      constructor
      · rintro ⟨exc, hdo⟩
        exact ⟨_, hdo, exc, rfl⟩
      · rintro ⟨e, hdo, exc, he⟩
        cases e with
        | thrown exc' => exact ⟨exc', hdo⟩
        | endDereferenced => exact absurd he (by simp [Ending.ofFault])
        | outOfBounds i size => exact absurd he (by simp [Ending.ofFault])
        | assertionFailed => exact absurd he (by simp [Ending.ofFault])
    rw [firstLine_iff, loop_eq]
    simp only [hthrown]
    exact doCmds_ending_iff (P := fun ending => ∃ exc, ending = .thrown exc) (by simp) (by simp) _
  · rw [firstLine_iff, loop_eq]
    simp only [← doCmd_readsOutside_iff]
    exact doCmds_ending_iff (P := fun ending => ending = .undefined) (by simp) (by simp) _

/-! ## 4. What a session appends -/

/-- The payload a command hands to `append_log`. -/
def Dispatch.appended? : Dispatch → Option OpPayload
  | .reaction (.appendLog p) => some p
  | .reaction (.report _) => none
  | .nothing => none
  | .exit => none
  | .other _ => none

def Session.appended (session : Session) : List OpPayload :=
  session.did.filterMap Dispatch.appended?

/-- The payloads a prompt can append. -/
inductive OpPayload.Typed : OpPayload → Prop
  | store {type : OpType} {key : Str} {value : Int32} :
      (type = .insertValue ∨ type = .deleteValue ∨ (type = .deleteKey ∧ value = 0)) → IsWord key →
      Typed { type, key, value }
  | mapReduce {mapOp reduceOp : Str} {keys : List Str} :
      IsWord mapOp → IsWord reduceOp → keys ≠ [] → (∀ key ∈ keys, IsWord key ∧ Plain key) →
      Typed (mapReducePayload mapOp reduceOp keys)

/-- Everything the loop of the parser has found is one of the tokens. -/
def MapReduceArgs.From (args : MapReduceArgs) (tokens : List Str) : Prop :=
  (args.mapFunc = [] ∨ args.mapFunc ∈ tokens) ∧ (args.reduceFunc = [] ∨ args.reduceFunc ∈ tokens) ∧
    ∀ key ∈ args.keys, key ∈ tokens ∧ Plain key

theorem MapReduceArgs.From.read {args : MapReduceArgs} {tokens : List Str} (h : args.From tokens)
    {token : Str} (htoken : token ∈ tokens) (htakes : ¬ TakesArgument token) :
    (args.read token).From tokens := by
  unfold MapReduceArgs.read
  split
  · exact h
  · rename_i hk
    split
    · refine ⟨h.1, h.2.1, fun key hkey => ?_⟩
      rcases List.mem_append.mp hkey with hkey | hkey
      · exact h.2.2 key hkey
      · obtain rfl := List.mem_singleton.mp hkey
        exact ⟨htoken, fun hm => htakes (Or.inl hm), fun hr => htakes (Or.inr hr), hk⟩
    · exact h

theorem MapReduceArgs.From.readArgs {args args' : MapReduceArgs} {tokens rest : List Str}
    (h : args.From tokens) (hrest : ∀ token ∈ rest, token ∈ tokens)
    (hread : readArgs args rest = some args') : args'.From tokens := by
  induction rest using List.twoStepInduction generalizing args with
  | nil =>
    cases hread
    exact h
  | singleton token =>
    by_cases htakes : TakesArgument token
    · rw [readArgs_last htakes] at hread
      exact absurd hread (by simp)
    · rw [readArgs_other htakes] at hread
      cases hread
      exact h.read (hrest token List.mem_cons_self) htakes
  | cons_cons token next rest ih ihnext =>
    have hnext : next ∈ tokens := hrest next (List.mem_cons_of_mem _ List.mem_cons_self)
    have hrest' : ∀ t ∈ rest, t ∈ tokens := fun t ht =>
      hrest t (List.mem_cons_of_mem _ (List.mem_cons_of_mem _ ht))
    by_cases htakes : TakesArgument token
    · rcases htakes with rfl | rfl
      · rw [readArgs_map] at hread
        exact @ih { args with mapFunc := next, isKeyFlag := false }
          ⟨Or.inr hnext, h.2.1, h.2.2⟩ hrest' hread
      · rw [readArgs_reduce] at hread
        exact @ih { args with reduceFunc := next, isKeyFlag := false }
          ⟨h.1, Or.inr hnext, h.2.2⟩ hrest' hread
    · rw [readArgs_other htakes] at hread
      exact ihnext next (h.read (hrest token List.mem_cons_self) htakes)
        (fun t ht => hrest t (List.mem_cons_of_mem _ ht)) hread

/-- What a map-reduce command appends is what its loop has found. -/
theorem handleMapReduceCommand_appendLog {tokens : List Str} {p : OpPayload}
    (h : handleMapReduceCommand tokens = .ok (.appendLog p)) :
    ∃ args, readArgs {} (tokens.drop 1) = some args ∧ args.mapFunc ≠ [] ∧ args.reduceFunc ≠ [] ∧
      args.keys ≠ [] ∧ p = mapReducePayload args.mapFunc args.reduceFunc args.keys := by
  unfold handleMapReduceCommand at h
  rw [mapReduceLoop_eq {} (by omega)] at h
  split at h
  · exact absurd h (by simp)
  · cases hread : ReplicatedMapReduce.readArgs {} (tokens.drop 1) with
    | none =>
      rw [hread] at h
      exact absurd h (by simp)
    | some args =>
      rw [hread] at h
      dsimp only at h
      split at h
      · exact absurd h (by simp)
      · rename_i hcomplete
        rw [not_or, not_or] at hcomplete
        cases h
        exact ⟨args, rfl, hcomplete.1, hcomplete.2.1, hcomplete.2.2, rfl⟩

/-- **One command.** -/
theorem typed_of_doCmd {tokens : List Str} {p : OpPayload} (hwords : ∀ token ∈ tokens, IsWord token)
    (h : doCmd tokens = .ok (.reaction (.appendLog p))) : p.Typed := by
  rcases doCmd_cases tokens with ⟨cmd, -, -, hdo⟩ | ⟨-, hdo⟩ | ⟨-, d, hdo, hnone, -⟩
  · rw [hdo, map_reaction_eq_ok_iff] at h
    obtain ⟨-, key, hkey, hcase⟩ := handleKvCommand_appendLog h
    have hword : IsWord key := by
      unfold element at hkey
      split at hkey
      · rename_i token htoken
        cases hkey
        exact hwords key (List.mem_of_getElem? htoken)
      · exact absurd hkey (by simp)
    rcases hcase with ⟨-, -, value, -, rfl⟩ | ⟨-, -, value, -, rfl⟩ | ⟨-, -, rfl⟩
    · exact .store (Or.inl rfl) hword
    · exact .store (Or.inr (Or.inl rfl)) hword
    · exact .store (Or.inr (Or.inr ⟨rfl, rfl⟩)) hword
  · rw [hdo, map_reaction_eq_ok_iff] at h
    obtain ⟨args, hread, hmap, hreduce, hkeys, rfl⟩ := handleMapReduceCommand_appendLog h
    have hinit : (({} : MapReduceArgs)).From tokens := ⟨Or.inl rfl, Or.inl rfl, by simp⟩
    have hfrom : args.From tokens :=
      hinit.readArgs (fun token ht => List.mem_of_mem_drop ht) hread
    refine .mapReduce (hwords _ (hfrom.1.resolve_left hmap))
      (hwords _ (hfrom.2.1.resolve_left hreduce)) hkeys fun key hkey => ?_
    exact ⟨hwords key (hfrom.2.2 key hkey).1, (hfrom.2.2 key hkey).2⟩
  · rw [hdo, Except.ok.injEq] at h
    exact absurd h (hnone _)

/-- A session appends what its commands append. -/
theorem mem_appended_doCmds {cmds : List (List Str)} {p : OpPayload}
    (h : p ∈ (doCmds cmds).appended) :
    ∃ tokens ∈ cmds, doCmd tokens = .ok (.reaction (.appendLog p)) := by
  induction cmds with
  | nil => exact absurd h (by simp [doCmds, Session.appended])
  | cons tokens cmds ih =>
    rw [doCmds] at h
    split at h
    · exact absurd h (by simp [Session.appended])
    · exact absurd h (by simp [Session.appended])
    · rename_i d hdo
      rw [Session.appended, Session.push, List.filterMap_cons] at h
      have hrest : p ∈ (doCmds cmds).appended →
          ∃ t ∈ tokens :: cmds, doCmd t = .ok (.reaction (.appendLog p)) := by
        intro hp
        obtain ⟨t, ht, hdo'⟩ := ih hp
        exact ⟨t, List.mem_cons_of_mem _ ht, hdo'⟩
      split at h
      · exact hrest h
      · rename_i q hq
        rcases List.mem_cons.mp h with rfl | h
        · refine ⟨tokens, List.mem_cons_self, ?_⟩
          rw [hdo]
          unfold Dispatch.appended? at hq
          split at hq
          · cases hq
            rfl
          all_goals exact absurd hq (by simp)
        · exact hrest h

/-- A payload a session appends was appended by one of the lines it read. -/
theorem mem_appended_loop {input : Str} {p : OpPayload} (h : p ∈ (loop input).appended) :
    ∃ cmd ∈ linesRead input,
      doCmd (tokenize cmd ' '.toUInt8) = .ok (.reaction (.appendLog p)) := by
  rw [loop_eq] at h
  obtain ⟨tokens, htokens, hdo⟩ := mem_appended_doCmds h
  obtain ⟨cmd, hcmd, rfl⟩ := List.mem_map.mp htokens
  exact ⟨cmd, hcmd, hdo⟩

/-- **Whatever the input, what a session appends is typed.** -/
theorem appended_typed {input : Str} {p : OpPayload} (h : p ∈ (loop input).appended) : p.Typed := by
  obtain ⟨cmd, hcmd, hdo⟩ := mem_appended_loop h
  exact typed_of_doCmd
    (fun token ht => isWord_of_mem_tokenize (of_mem_linesRead hcmd).1 ht) hdo

end ReplicatedMapReduce
