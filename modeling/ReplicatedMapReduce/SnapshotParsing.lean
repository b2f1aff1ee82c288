/-
# Texts that are not the text of a snapshot

`deserialize_kv_store` is given whatever arrived.  It means to be lenient: lines without a colon,
empty tokens and tokens without a number are skipped, values that are split over two lines of one
key are joined.  `parsedStore` is what it means to return, for every string of bytes.

* It returns that, unless a token begins with a number that is not an `int`
  (`deserialize_returns_iff`).  `stoi` has two ways to fail, and only one of them is caught.  A
  damaged snapshot is not needed for it: the text of a store with an unlucky key will do
  (`deserialize_outOfRange`).
* Whatever it returns it can write and read again, as often as one likes (`accepted_restores`):
  a store that was read has keys the text can carry, which is all the round trip asks.
-/
import ReplicatedMapReduce.SnapshotText
import ReplicatedMapReduce.Replica

namespace ReplicatedMapReduce

open Runs Getline

/-! ## 1. What a text says -/

/-- The key and the value tokens of a line, if it has a key. -/
def linePair (line : Str) : Option (Str × List Str) :=
  (getline ':'.toUInt8 line).map fun (key, kvStream) => (key, lines ','.toUInt8 kvStream)

/-- The keys and value tokens of a text. -/
def pairs (data : Str) : List (Str × List Str) := (lines ';'.toUInt8 data).filterMap linePair

/-- The values of those tokens a value can be read from. -/
def readable (tokens : List Str) : List Int32 :=
  tokens.filterMap fun token => (stoi token).toOption

/-- The store a text says, pair by pair. -/
def parsedStore (data : Str) : KeyValueStore :=
  (pairs data).foldl (fun s pair => s.insertMany pair.1 (readable pair.2)) ∅

/-- If a token begins with a number, it is the number of an `int`. -/
def FitsInt (token : Str) : Prop :=
  ∀ z, Decimal.strtol token = some z → -2147483648 ≤ z ∧ z ≤ 2147483647

/-! ## 2. When it is read -/

/-- The failure of `stoi` that is not caught. -/
theorem stoi_eq_outOfRange_iff (token : Str) :
    stoi token = .error .outOfRange ↔ ¬ FitsInt token := by
  unfold FitsInt
  cases hstoi : stoi token with
  | ok value =>
    refine iff_of_false (by simp) (not_not.mpr ?_)
    intro z hz
    obtain rfl : value.toInt = z := Option.some.inj ((stoi_eq_ok_iff.mp hstoi).symm.trans hz)
    exact ⟨value.le_toInt, Int.le_of_lt_add_one value.toInt_lt⟩
  | error e =>
    rcases stoi_error hstoi with ⟨rfl, hnone⟩ | ⟨rfl, z, hz, hrange⟩
    · simp [hnone]
    · refine iff_of_true rfl ?_
      intro hfits
      have hz' := hfits z hz
      omega

theorem readValue_of_fitsInt {token : Str} (h : FitsInt token) (values : List Int32) :
    readValue values token = .ok (values ++ readable [token]) := by
  unfold readValue
  split
  · rename_i hnil
    subst hnil
    exact congrArg Except.ok (List.append_nil values).symm
  · cases hstoi : stoi token with
    | ok value => simp [readable, hstoi, Except.toOption]
    | error e =>
      rcases stoi_error hstoi with ⟨rfl, -⟩ | ⟨rfl, -⟩
      · simp [readable, hstoi, Except.toOption]
      · exact absurd h ((stoi_eq_outOfRange_iff token).mp hstoi)

theorem readValue_of_not_fitsInt {token : Str} (h : ¬ FitsInt token) (values : List Int32) :
    ∃ e, readValue values token = .error e := by
  have hne : token ≠ [] := by
    rintro rfl
    exact h fun z hz => absurd hz (by simp [Decimal.strtol, Decimal.readSign, Decimal.readDigits])
  have hstoi := (stoi_eq_outOfRange_iff token).mpr h
  refine ⟨.outOfRange, ?_⟩
  simp only [readValue, if_neg hne, hstoi]

/-- **The inner loop** returns exactly when all its tokens fit. -/
theorem foldlM_readValue_eq_ok_iff {tokens : List Str} {values values' : List Int32} :
    tokens.foldlM readValue values = .ok values' ↔
      (∀ token ∈ tokens, FitsInt token) ∧ values' = values ++ readable tokens := by
  have hloop : tokens.foldl (fun values token => values ++ readable [token]) values
      = values ++ readable tokens := by
    induction tokens generalizing values with
    | nil => exact (List.append_nil values).symm
    | cons token tokens ih =>
      have hcons : readable (token :: tokens) = readable [token] ++ readable tokens := by
        rw [readable, readable, readable, ← List.filterMap_append, List.singleton_append]
      rw [List.foldl_cons, ih, hcons, List.append_assoc]
  rw [foldlM_eq_ok_iff (fun token values h => readValue_of_fitsInt h values)
    (fun token values h => readValue_of_not_fitsInt h values), hloop]

/-- One turn of the outer loop. -/
theorem readPair_of_fits {line : Str}
    (h : ∀ pair ∈ linePair line, ∀ token ∈ pair.2, FitsInt token) (s : KeyValueStore) :
    readPair s line = .ok (match linePair line with
      | some pair => s.insertMany pair.1 (readable pair.2)
      | none => s) := by
  unfold linePair at h ⊢
  unfold readPair
  cases hline : getline ':'.toUInt8 line with
  | none => rfl
  | some pair =>
    obtain ⟨key, kvStream⟩ := pair
    rw [hline] at h
    have hvalues : (lines ','.toUInt8 kvStream).foldlM readValue []
        = .ok (readable (lines ','.toUInt8 kvStream)) :=
      foldlM_readValue_eq_ok_iff.mpr ⟨h _ rfl, (List.nil_append _).symm⟩
    simp only [hvalues, Option.map_some]

theorem readPair_of_not_fits {line : Str}
    (h : ¬ ∀ pair ∈ linePair line, ∀ token ∈ pair.2, FitsInt token) (s : KeyValueStore) :
    ∃ e, readPair s line = .error e := by
  unfold linePair at h
  unfold readPair
  cases hline : getline ':'.toUInt8 line with
  | none => exact absurd (by simp [hline]) h
  | some pair =>
    obtain ⟨key, kvStream⟩ := pair
    cases hvalues : (lines ','.toUInt8 kvStream).foldlM readValue [] with
    | error e => exact ⟨e, by simp only [hvalues]⟩
    | ok values =>
      have hfits := (foldlM_readValue_eq_ok_iff.mp hvalues).1
      exact absurd (by simpa [hline] using hfits) h

/-- The store a text says, line by line. -/
theorem parsedStore_eq (data : Str) :
    parsedStore data = (lines ';'.toUInt8 data).foldl (fun s line => match linePair line with
      | some pair => s.insertMany pair.1 (readable pair.2)
      | none => s) ∅ := by
  rw [parsedStore, pairs, List.foldl_filterMap]
  refine List.foldl_ext _ _ _ ?_
  intro s line _
  cases linePair line <;> rfl

/-- **What is returned, and when.** -/
theorem deserialize_eq_ok_iff {data : Str} {t : KeyValueStore} :
    deserializeKvStore data = .ok t ↔
      (∀ pair ∈ pairs data, ∀ token ∈ pair.2, FitsInt token) ∧ t = parsedStore data := by
  rw [deserializeKvStore, foldlM_eq_ok_iff (fun line s h => readPair_of_fits h s)
    (fun line s h => readPair_of_not_fits h s), ← parsedStore_eq]
  refine and_congr_left' ?_
  simp only [pairs, List.mem_filterMap, Option.mem_def]
  constructor
  · rintro h pair ⟨line, hline, hpair⟩
    exact h line hline pair hpair
  · intro h line hline pair hpair
    exact h pair ⟨line, hline, hpair⟩

/-- **When parsing does not throw.**  Of all strings of bytes, exactly those are read, as the store
they say, in which every number a value token begins with is an `int`. -/
theorem deserialize_returns_iff (data : Str) :
    deserializeKvStore data = .ok (parsedStore data) ↔
      ∀ pair ∈ pairs data, ∀ token ∈ pair.2, FitsInt token :=
  deserialize_eq_ok_iff.trans (and_iff_left rfl)

/-- An insertion under a key that reads as a number too great for an `int` once it is text. -/
def insertUnlucky : OpPayload :=
  { type := .insertValue, key := str "a:99999999999", value := 1 }

/-- The snapshot a reachable store is written as need not be readable. -/
theorem deserialize_outOfRange :
    ¬ ∀ (as : List Action) (r : Replica),
      @Run _ _ (@step littleEndian) (fun _ _ => True) (Replica.init false) as r →
      ∃ t, deserializeKvStore (serializeKvStore r.sm.kvStore) = .ok t := by
  let := littleEndian
  intro h
  have hrun : ∃ r, Run step (fun _ _ => True) (Replica.init false) [.commit 1 insertUnlucky] r ∧
      deserializeKvStore (serializeKvStore r.sm.kvStore) = .error .outOfRange :=
    ⟨_, Run.cons trivial rfl (Run.refl _), by decide⟩
  obtain ⟨r, hrun, hthrows⟩ := hrun
  obtain ⟨t, ht⟩ := h _ r hrun
  rw [hthrows] at ht
  exact absurd ht (by simp)

/-! ## 3. Handing on what was read -/

/-- A store written and read again on one node after the other. -/
def handOn : ℕ → KeyValueStore → Except StdException KeyValueStore
  | 0, t => .ok t
  | nodes + 1, t =>
    match deserializeKvStore (serializeKvStore t) with
    | .ok t' => handOn nodes t'
    | .error e => .error e

theorem handOn_of_cleanKeys {t : KeyValueStore} (h : CleanKeys t) (nodes : ℕ) :
    handOn nodes t = .ok t := by
  induction nodes with
  | zero => rfl
  | succ nodes ih => simp only [handOn, deserialize_serialize h, ih]

/-- **What was read can be written and read again.**  No store that is read from any text has a
key with a `:` or a `;`, so its own text gives it back, on every further node. -/
theorem accepted_restores {data : Str} {t : KeyValueStore} (h : deserializeKvStore data = .ok t) :
    (∀ key, t.find key ≠ none → ':'.toUInt8 ∉ key ∧ ';'.toUInt8 ∉ key) ∧
    deserializeKvStore (serializeKvStore t) = .ok t ∧ ∀ nodes, handOn nodes t = .ok t := by
  have hclean : CleanKeys t := cleanKeys_of_deserialize h
  exact ⟨hclean, deserialize_serialize hclean, handOn_of_cleanKeys hclean⟩

/-- No colon, an empty line, a key in two lines, junk before, between and after the values, the
last line not closed. -/
theorem accepted_malformed : ∃ t : KeyValueStore,
    t.find (str "a") = some [1, 2, -3, 4] ∧ t.find (str "b") = some [] ∧
    deserializeKvStore (serializeKvStore t) = .ok t := by
  have hread : deserializeKvStore (str "a:1,x,,2junk,:;b;;a: -3,4")
      = .ok ⟨((∅ : Map _ _).insert (str "a") [1, 2, -3, 4]).insert (str "b") []⟩ := by decide
  exact ⟨_, by decide, by decide, (accepted_restores hread).2.1⟩

end ReplicatedMapReduce
