/-
# The map-reduce command

`mapReduce --m <map_func> --r <reduce_func> --k <keys>`: the loop of `handle_map_reduce_command`
goes through the tokens with an index that it also advances itself, to get at the argument of
`--m` or `--r`.

`readArgs` is the same loop without the index: it takes the tokens from the front, and what is
left of them is what the index has not reached yet (`mapReduceLoop_eq`).  There the two results
can be seen.

* The loop reads beyond its input exactly when the last token is a flag that takes an argument
  and is not itself one, and that is a matter of parity: of the flags at the end of the command
  every second one is the argument of the one before it (`accessesInside_iff`).
* A command that is made of the groups of the grammar is read group by group, and comes to the
  last map function, the last reduce function and all the keys (`handleMapReduceCommand_groups`).
  The length check in front of the loop stops no command that is complete.
-/
import ReplicatedMapReduce.Server
import Mathlib.Algebra.Group.Nat.Even
import Mathlib.Algebra.Order.Ring.Nat

namespace ReplicatedMapReduce

/-! ## 1. The loop without its index -/

/-- The flags that take the next token, whatever it is. -/
def TakesArgument (token : Str) : Prop := token = str "--m" ∨ token = str "--r"

instance : DecidablePred TakesArgument := fun _ => inferInstanceAs (Decidable (_ ∨ _))

/-- A token that is not the flag of an argument: `--k`, a key, or one that is skipped. -/
def MapReduceArgs.read (args : MapReduceArgs) (token : Str) : MapReduceArgs :=
  if token = str "--k" then { args with isKeyFlag := true }
  else if args.isKeyFlag then { args with keys := args.keys ++ [token] }
  else args

/-- The loop on the tokens it has not reached, `none` if it reads beyond them. -/
def readArgs : MapReduceArgs → List Str → Option MapReduceArgs
  | args, [] => some args
  | args, [token] => if TakesArgument token then none else some (args.read token)
  | args, token :: next :: rest =>
    if token = str "--m" then readArgs { args with mapFunc := next, isKeyFlag := false } rest
    else if token = str "--r" then
      readArgs { args with reduceFunc := next, isKeyFlag := false } rest
    else readArgs (args.read token) (next :: rest)

theorem reduceFlag_ne_mapFlag : str "--r" ≠ str "--m" := by decide

theorem readArgs_map (args : MapReduceArgs) (mapFunc : Str) (rest : List Str) :
    readArgs args (str "--m" :: mapFunc :: rest)
      = readArgs { args with mapFunc, isKeyFlag := false } rest := by
  rw [readArgs, if_pos rfl]

theorem readArgs_reduce (args : MapReduceArgs) (reduceFunc : Str) (rest : List Str) :
    readArgs args (str "--r" :: reduceFunc :: rest)
      = readArgs { args with reduceFunc, isKeyFlag := false } rest := by
  rw [readArgs, if_neg reduceFlag_ne_mapFlag, if_pos rfl]

theorem readArgs_last {args : MapReduceArgs} {token : Str} (h : TakesArgument token) :
    readArgs args [token] = none := by
  rw [readArgs, if_pos h]

theorem readArgs_other {args : MapReduceArgs} {token : Str} (h : ¬ TakesArgument token)
    (rest : List Str) : readArgs args (token :: rest) = readArgs (args.read token) rest := by
  cases rest with
  | nil => simp only [readArgs, if_neg h]
  | cons next rest =>
    rw [readArgs, if_neg fun hm => h (Or.inl hm), if_neg fun hr => h (Or.inr hr)]

theorem element_of_lt {tokens : List Str} {i : ℕ} (hi : i < tokens.length) :
    element tokens i = .ok tokens[i] := by
  rw [element, List.getElem?_eq_getElem hi]

theorem element_length (tokens : List Str) :
    element tokens tokens.length = .error (.outOfBounds tokens.length tokens.length) := by
  rw [element, List.getElem?_eq_none (le_refl _)]

/-- **The loop of the source is the loop without its index.** -/
theorem mapReduceLoop_eq {tokens : List Str} {turns i : ℕ} (args : MapReduceArgs)
    (h : tokens.length ≤ turns + i) :
    mapReduceLoop tokens turns i args =
      match readArgs args (tokens.drop i) with
      | some args => .ok args
      | none => .error (.outOfBounds tokens.length tokens.length) := by
  induction turns generalizing i args with
  | zero =>
    rw [List.drop_eq_nil_of_le (by omega)]
    rfl
  | succ turns ih =>
    rcases Nat.lt_or_ge i tokens.length with hi | hi
    · rw [mapReduceLoop, if_pos hi, element_of_lt hi, List.drop_eq_getElem_cons hi]
      dsimp only
      by_cases htakes : TakesArgument tokens[i]
      · rcases Nat.lt_or_ge (i + 1) tokens.length with hnext | hnext
        · -- the argument is there
          rw [element_of_lt hnext, List.drop_eq_getElem_cons hnext]
          rcases htakes with hm | hr
          · rw [if_pos hm, hm, readArgs_map]
            exact ih _ (by omega)
          · rw [hr, if_neg reduceFlag_ne_mapFlag, if_pos rfl, readArgs_reduce]
            exact ih _ (by omega)
        · -- the flag is the last token
          have hlast : i + 1 = tokens.length := by omega
          have hfault := element_length tokens
          rw [← hlast] at hfault
          rw [hfault, ← hlast, List.drop_eq_nil_of_le hnext, readArgs_last htakes]
          rcases htakes with hm | hr
          · rw [if_pos hm]
          · rw [hr, if_neg reduceFlag_ne_mapFlag, if_pos rfl]
      · have hread := ih (i := i + 1) (args.read tokens[i]) (by omega)
        rw [if_neg fun hm => htakes (Or.inl hm), if_neg fun hr => htakes (Or.inr hr),
          readArgs_other htakes, ← hread, MapReduceArgs.read]
        split
        · rfl
        · split <;> rfl
    · rw [mapReduceLoop, if_neg (Nat.not_lt.mpr hi), List.drop_eq_nil_of_le hi]
      rfl

/-! ## 2. Reading beyond the input -/

/-- How many flags that take an argument stand one after the other at the end. -/
def trailingFlags (tokens : List Str) : ℕ :=
  (tokens.reverse.takeWhile (TakesArgument ·)).length

/-- A first token that is no such flag does not count. -/
theorem trailingFlags_cons_of_not {token : Str} (h : ¬ TakesArgument token) (rest : List Str) :
    trailingFlags (token :: rest) = trailingFlags rest := by
  have hself : [token].takeWhile (TakesArgument ·) = [] := by simp [h]
  rw [trailingFlags, trailingFlags, List.reverse_cons, List.takeWhile_append, hself]
  split
  · rename_i hall
    rw [List.append_nil, hall]
  · rfl

/-- **A flag and its argument do not change the parity**, whether or not the argument is spelled
like a flag. -/
theorem even_trailingFlags_cons_cons {token : Str} (h : TakesArgument token) (next : Str)
    (rest : List Str) :
    Even (trailingFlags (token :: next :: rest)) ↔ Even (trailingFlags rest) := by
  have hreverse : (token :: next :: rest).reverse = rest.reverse ++ [next, token] := by simp
  rw [trailingFlags, trailingFlags, hreverse, List.takeWhile_append]
  split
  · rename_i hall
    by_cases hnext : TakesArgument next
    · -- both of them count
      have hboth : [next, token].takeWhile (TakesArgument ·) = [next, token] := by simp [hnext, h]
      rw [hboth, List.length_append, hall, List.length_cons, List.length_singleton]
      exact Nat.even_add.trans (by simp)
    · have hnone : [next, token].takeWhile (TakesArgument ·) = [] := by simp [hnext]
      rw [hnone, List.append_nil, hall]
  · rfl

/-- **The loop stays inside its input exactly when the flags at the end pair up.** -/
theorem readArgs_isSome_iff (args : MapReduceArgs) (tokens : List Str) :
    (readArgs args tokens).isSome ↔ Even (trailingFlags tokens) := by
  induction tokens using List.twoStepInduction generalizing args with
  | nil => simp [readArgs, trailingFlags]
  | singleton token =>
    by_cases h : TakesArgument token
    · simp [readArgs_last h, trailingFlags, h]
    · simp [readArgs, trailingFlags, h]
  | cons_cons token next rest ih ihnext =>
    by_cases h : TakesArgument token
    · rw [even_trailingFlags_cons_cons h]
      rcases h with rfl | rfl
      · rw [readArgs_map, ih]
      · rw [readArgs_reduce, ih]
    · rw [readArgs_other h, trailingFlags_cons_of_not h, ihnext]

/-- No access to the tokens is out of bounds. -/
def AccessesInside (tokens : List Str) : Prop :=
  ∀ i size, handleMapReduceCommand tokens ≠ .error (.outOfBounds i size)

/-- **When the parser stays inside its input.**  It reads beyond the end of a vector of tokens
exactly if the vector is long enough for the length check and ends, after the name of the
command, with an odd number of `--m` and `--r`. -/
theorem accessesInside_iff (tokens : List Str) :
    AccessesInside tokens ↔ tokens.length < 7 ∨ Even (trailingFlags (tokens.drop 1)) := by
  unfold AccessesInside handleMapReduceCommand
  rw [← readArgs_isSome_iff {}, mapReduceLoop_eq {} (by omega)]
  split
  · rename_i hshort
    exact iff_of_true (fun i size h => absurd h (by simp)) (Or.inl hshort)
  · rename_i hlong
    cases readArgs {} (tokens.drop 1) with
    | none => simp [hlong]
    | some args =>
      refine iff_of_true ?_ (Or.inr rfl)
      intro i size h
      dsimp only at h
      split at h <;> exact absurd h (by simp)

/-- Seven tokens, and nothing after the last flag. -/
theorem accessesInside_trailing : ¬ ∀ tokens : List Str, AccessesInside tokens := by
  intro h
  exact h [str "mapReduce", str "--k", str "a", str "b", str "c", str "d", str "--m"] 7 7
    (by decide)

/-! ## 3. The grammar -/

/-- A token that is no flag. -/
def Plain (token : Str) : Prop :=
  token ≠ str "--m" ∧ token ≠ str "--r" ∧ token ≠ str "--k"

instance : DecidablePred Plain := fun _ => inferInstanceAs (Decidable (_ ∧ _))

/-- A group of the command.  After the function of `--m` and `--r` there may be tokens that are
skipped. -/
inductive FlagGroup
  | map (mapFunc : Str) (skipped : List Str)
  | reduce (reduceFunc : Str) (skipped : List Str)
  | keys (ks : List Str)
  deriving DecidableEq

namespace FlagGroup

def tokens : FlagGroup → List Str
  | map mapFunc skipped => str "--m" :: mapFunc :: skipped
  | reduce reduceFunc skipped => str "--r" :: reduceFunc :: skipped
  | keys ks => str "--k" :: ks

/-- The functions are any tokens that are not empty, even ones spelled like a flag. -/
def WellFormed : FlagGroup → Prop
  | map mapFunc skipped => mapFunc ≠ [] ∧ ∀ token ∈ skipped, Plain token
  | reduce reduceFunc skipped => reduceFunc ≠ [] ∧ ∀ token ∈ skipped, Plain token
  | keys ks => ∀ token ∈ ks, Plain token

instance : DecidablePred WellFormed
  | map _ _ => inferInstanceAs (Decidable (_ ∧ _))
  | reduce _ _ => inferInstanceAs (Decidable (_ ∧ _))
  | keys _ => inferInstanceAs (Decidable (∀ _ ∈ _, _))

/-- What a group means. -/
def meaning (args : MapReduceArgs) : FlagGroup → MapReduceArgs
  | map mapFunc _ => { args with mapFunc, isKeyFlag := false }
  | reduce reduceFunc _ => { args with reduceFunc, isKeyFlag := false }
  | keys ks => { args with keys := args.keys ++ ks, isKeyFlag := true }

def mapFunc? : FlagGroup → Option Str
  | map mapFunc _ => some mapFunc
  | reduce _ _ => none
  | keys _ => none

def reduceFunc? : FlagGroup → Option Str
  | map _ _ => none
  | reduce reduceFunc _ => some reduceFunc
  | keys _ => none

def keysOf : FlagGroup → List Str
  | map _ _ => []
  | reduce _ _ => []
  | keys ks => ks

end FlagGroup

/-- The map functions of the `--m` groups, in order. -/
def mapFuncs (groups : List FlagGroup) : List Str := groups.filterMap FlagGroup.mapFunc?

/-- The reduce functions of the `--r` groups, in order. -/
def reduceFuncs (groups : List FlagGroup) : List Str := groups.filterMap FlagGroup.reduceFunc?

/-- The keys of the `--k` groups, in order. -/
def allKeys (groups : List FlagGroup) : List Str := groups.flatMap FlagGroup.keysOf

theorem Plain.not_takesArgument {token : Str} (h : Plain token) : ¬ TakesArgument token := by
  rintro (hm | hr)
  · exact h.1 hm
  · exact h.2.1 hr

/-- Before the first flag, and after a function, tokens are skipped. -/
theorem readArgs_skipped {args : MapReduceArgs} (hargs : args.isKeyFlag = false)
    {skipped : List Str} (h : ∀ token ∈ skipped, Plain token) (rest : List Str) :
    readArgs args (skipped ++ rest) = readArgs args rest := by
  induction skipped with
  | nil => rfl
  | cons token skipped ih =>
    have hplain : Plain token := h token List.mem_cons_self
    have hread : args.read token = args := by
      simp [MapReduceArgs.read, hplain.2.2, hargs]
    rw [List.cons_append, readArgs_other hplain.not_takesArgument, hread]
    exact ih fun t ht => h t (List.mem_cons_of_mem _ ht)

/-- After `--k` they are keys. -/
theorem readArgs_keys {args : MapReduceArgs} (hargs : args.isKeyFlag = true) {ks : List Str}
    (h : ∀ token ∈ ks, Plain token) (rest : List Str) :
    readArgs args (ks ++ rest) = readArgs { args with keys := args.keys ++ ks } rest := by
  induction ks generalizing args with
  | nil => rw [List.nil_append, List.append_nil]
  | cons token ks ih =>
    have hplain : Plain token := h token List.mem_cons_self
    have hread : args.read token = { args with keys := args.keys ++ [token] } := by
      simp [MapReduceArgs.read, hplain.2.2, hargs]
    have hrest := @ih { args with keys := args.keys ++ [token] } hargs
      fun t ht => h t (List.mem_cons_of_mem _ ht)
    rw [List.cons_append, readArgs_other hplain.not_takesArgument, hread, hrest,
      List.append_assoc]
    rfl

/-- **One group.** -/
theorem readArgs_group {g : FlagGroup} (hg : g.WellFormed) (args : MapReduceArgs)
    (rest : List Str) :
    readArgs args (g.tokens ++ rest) = readArgs (g.meaning args) rest := by
  cases g with
  | map mapFunc skipped =>
    rw [FlagGroup.tokens, List.cons_append, List.cons_append, readArgs_map]
    exact readArgs_skipped rfl hg.2 rest
  | reduce reduceFunc skipped =>
    rw [FlagGroup.tokens, List.cons_append, List.cons_append, readArgs_reduce]
    exact readArgs_skipped rfl hg.2 rest
  | keys ks =>
    have hflag : ¬ TakesArgument (str "--k") := by decide
    rw [FlagGroup.tokens, List.cons_append, readArgs_other hflag, MapReduceArgs.read, if_pos rfl]
    exact readArgs_keys rfl hg rest

/-- **All the groups.** -/
theorem readArgs_groups {groups : List FlagGroup} (h : ∀ g ∈ groups, g.WellFormed)
    (args : MapReduceArgs) :
    readArgs args (groups.flatMap FlagGroup.tokens)
      = some (groups.foldl FlagGroup.meaning args) := by
  induction groups generalizing args with
  | nil => rfl
  | cons g groups ih =>
    rw [List.flatMap_cons, readArgs_group (h g List.mem_cons_self), List.foldl_cons]
    exact ih (fun g' hg' => h g' (List.mem_cons_of_mem _ hg')) _

/-- The function a sequence of groups comes to is the last one it names. -/
theorem last_foldl {func : MapReduceArgs → Str} {named : FlagGroup → Option Str}
    (h : ∀ g args, func (FlagGroup.meaning args g) = (named g).getD (func args))
    (groups : List FlagGroup) (args : MapReduceArgs) :
    func (groups.foldl FlagGroup.meaning args)
      = ((groups.filterMap named).getLast?).getD (func args) := by
  induction groups generalizing args with
  | nil => rfl
  | cons g groups ih =>
    rw [List.foldl_cons, ih, h]
    cases hg : named g with
    | none =>
      rw [List.filterMap_cons_none hg]
      rfl
    | some f =>
      rw [List.filterMap_cons_some hg, List.getLast?_cons]
      rfl

theorem mapFunc_foldl (groups : List FlagGroup) :
    (groups.foldl FlagGroup.meaning {}).mapFunc = ((mapFuncs groups).getLast?).getD [] :=
  last_foldl (fun g _ => by cases g <;> rfl) groups {}

theorem reduceFunc_foldl (groups : List FlagGroup) :
    (groups.foldl FlagGroup.meaning {}).reduceFunc = ((reduceFuncs groups).getLast?).getD [] :=
  last_foldl (fun g _ => by cases g <;> rfl) groups {}

/-- The keys are all the keys. -/
theorem keys_foldl (groups : List FlagGroup) (args : MapReduceArgs) :
    (groups.foldl FlagGroup.meaning args).keys = args.keys ++ allKeys groups := by
  induction groups generalizing args with
  | nil => exact (List.append_nil _).symm
  | cons g groups ih =>
    rw [List.foldl_cons, ih, allKeys, allKeys, List.flatMap_cons, ← List.append_assoc]
    cases g with
    | map mapFunc skipped => exact congrArg (· ++ _) (List.append_nil _).symm
    | reduce reduceFunc skipped => exact congrArg (· ++ _) (List.append_nil _).symm
    | keys ks => rfl

/-- **A complete command is long enough**: two tokens for every function, one for every key, and
one more for the `--k` of the first key. -/
theorem length_tokens_ge (groups : List FlagGroup) :
    2 * (mapFuncs groups).length + 2 * (reduceFuncs groups).length + (allKeys groups).length
      + min 1 (allKeys groups).length ≤ (groups.flatMap FlagGroup.tokens).length := by
  induction groups with
  | nil => exact Nat.le_refl _
  | cons g groups ih =>
    simp only [mapFuncs, reduceFuncs, allKeys] at ih ⊢
    rw [List.flatMap_cons, List.flatMap_cons, List.length_append, List.length_append]
    cases g with
    | map mapFunc skipped =>
      simp only [List.filterMap_cons, FlagGroup.mapFunc?, FlagGroup.reduceFunc?, FlagGroup.keysOf,
        FlagGroup.tokens, List.length_cons, List.length_nil]
      omega
    | reduce reduceFunc skipped =>
      simp only [List.filterMap_cons, FlagGroup.mapFunc?, FlagGroup.reduceFunc?, FlagGroup.keysOf,
        FlagGroup.tokens, List.length_cons, List.length_nil]
      omega
    | keys ks =>
      simp only [List.filterMap_cons, FlagGroup.mapFunc?, FlagGroup.reduceFunc?, FlagGroup.keysOf,
        FlagGroup.tokens, List.length_cons]
      omega

/-- A function that a group names is not empty. -/
theorem FlagGroup.WellFormed.ne_nil {g : FlagGroup} (h : g.WellFormed) {func : Str}
    (hfunc : g.mapFunc? = some func ∨ g.reduceFunc? = some func) : func ≠ [] := by
  cases g with
  | map mapFunc skipped =>
    obtain rfl : mapFunc = func := by simpa [mapFunc?, reduceFunc?] using hfunc
    exact h.1
  | reduce reduceFunc skipped =>
    obtain rfl : reduceFunc = func := by simpa [mapFunc?, reduceFunc?] using hfunc
    exact h.1
  | keys ks => exact absurd hfunc (by simp [mapFunc?, reduceFunc?])

/-- The tokens of a command: its name, tokens that are skipped, and the groups. -/
def commandTokens (lead : List Str) (groups : List FlagGroup) : List Str :=
  str "mapReduce" :: (lead ++ groups.flatMap FlagGroup.tokens)

/-- **The loop reads a command of the grammar as what its groups come to.** -/
theorem mapReduceLoop_commandTokens {lead : List Str} {groups : List FlagGroup}
    (hlead : ∀ token ∈ lead, Plain token) (hgroups : ∀ g ∈ groups, g.WellFormed) :
    mapReduceLoop (commandTokens lead groups) (commandTokens lead groups).length 1 {}
      = .ok (groups.foldl FlagGroup.meaning {}) := by
  have hdrop : (commandTokens lead groups).drop 1 = lead ++ groups.flatMap FlagGroup.tokens := rfl
  rw [mapReduceLoop_eq {} (by omega), hdrop, readArgs_skipped rfl hlead, readArgs_groups hgroups]

/-- The payload of a map-reduce command. -/
def mapReducePayload (mapOp reduceOp : Str) (keys : List Str) : OpPayload :=
  { type := .mapReduce, key := str "NULL", value := 0, mapOp, reduceOp, keys }

/-- **The parser is correct on its grammar.**  A command with a `--m` group, a `--r` group and a
key is appended, with the last map function, the last reduce function and all the keys in order;
every other command of the grammar is reported. -/
theorem handleMapReduceCommand_groups {lead : List Str} {groups : List FlagGroup}
    (hlead : ∀ token ∈ lead, Plain token) (hgroups : ∀ g ∈ groups, g.WellFormed) :
    (∀ mapFunc reduceFunc, (mapFuncs groups).getLast? = some mapFunc →
      (reduceFuncs groups).getLast? = some reduceFunc → allKeys groups ≠ [] →
      handleMapReduceCommand (commandTokens lead groups)
        = .ok (.appendLog (mapReducePayload mapFunc reduceFunc (allKeys groups)))) ∧
    (mapFuncs groups = [] ∨ reduceFuncs groups = [] ∨ allKeys groups = [] →
      ∃ message, handleMapReduceCommand (commandTokens lead groups) = .ok (.report message)) := by
  unfold handleMapReduceCommand
  simp only [mapReduceLoop_commandTokens hlead hgroups, mapFunc_foldl, reduceFunc_foldl,
    keys_foldl, List.nil_append]
  constructor
  · intro mapFunc reduceFunc hmap hreduce hkeys
    have hmem : mapFunc ∈ mapFuncs groups := List.mem_of_getLast? hmap
    have hmem' : reduceFunc ∈ reduceFuncs groups := List.mem_of_getLast? hreduce
    have hlong : ¬ (commandTokens lead groups).length < 7 := by
      have hge := length_tokens_ge groups
      have h1 : 0 < (mapFuncs groups).length := List.length_pos_of_mem hmem
      have h2 : 0 < (reduceFuncs groups).length := List.length_pos_of_mem hmem'
      have h3 : 0 < (allKeys groups).length := List.length_pos_iff.mpr hkeys
      rw [commandTokens, List.length_cons, List.length_append]
      omega
    obtain ⟨g, hg, hsome⟩ := List.mem_filterMap.mp hmem
    obtain ⟨g', hg', hsome'⟩ := List.mem_filterMap.mp hmem'
    have hne : mapFunc ≠ [] := (hgroups g hg).ne_nil (Or.inl hsome)
    have hne' : reduceFunc ≠ [] := (hgroups g' hg').ne_nil (Or.inr hsome')
    simp only [if_neg hlong, hmap, hreduce, Option.getD_some, hne, hne', hkeys, or_self, if_false]
    rfl
  · intro hmissing
    split
    · exact ⟨_, rfl⟩
    · refine ⟨_, if_pos ?_⟩
      rcases hmissing with h | h | h
      · exact Or.inl (by rw [h]; rfl)
      · exact Or.inr (Or.inl (by rw [h]; rfl))
      · exact Or.inr (Or.inr h)

/-- A function spelled like a flag, functions given twice, keys in two groups, and tokens that are
skipped. -/
theorem handleMapReduceCommand_twice :
    handleMapReduceCommand [str "mapReduce", str "please", str "--k", str "books", str "--m",
        str "--r", str "--r", str "sum", str "x", str "--m", str "double", str "--k", str "books"]
      = .ok (.appendLog (mapReducePayload (str "double") (str "sum") [str "books", str "books"])) :=
  (handleMapReduceCommand_groups
    (by decide : ∀ token ∈ [str "please"], Plain token)
    (by decide : ∀ g ∈ [FlagGroup.keys [str "books"], .map (str "--r") [],
      .reduce (str "sum") [str "x"], .map (str "double") [], .keys [str "books"]],
        g.WellFormed)).1 _ _ rfl rfl (by decide)

end ReplicatedMapReduce
