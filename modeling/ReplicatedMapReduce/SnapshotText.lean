/-
# The text of a snapshot: exactly which stores survive it

A snapshot travels as text, `key:value,value,;` for each pair, and nothing in a key is escaped.
The reader is three nested `getline` loops.

* **Forwards** (`deserialize_serialize`): if no key holds a `:` or a `;`, the outer loop sees one
  line for each pair, the middle `getline` splits the key off, the inner loop sees one string for
  each value, `stoi` reads each of them, and inserting the pairs one after the other rebuilds the
  store.  Keys may hold commas, digits or any other byte, and may be empty.
* **Backwards** (`cleanKeys_of_deserialize`): no store the reader ever returns, from ANY text,
  has a key with a `:` or a `;`, because a key is what one `getline` left between two of them.

Together they give the exact range of the codec, `deserialize_serialize_iff`.

The last section measures what the reader can make of a text: a store never prints longer than
the text it was read from, but for the delimiters the text left out.  A window cut out of a
written text leaves out at most three (`length_serialize_window_le`).
-/
import ReplicatedMapReduce.StateMachine

namespace ReplicatedMapReduce

open Getline

/-! ## 1. The text as lines -/

/-- The values of one pair, each closed by a comma. -/
def valuesText (vs : List Int32) : Str := unlines ','.toUInt8 (vs.map printValue)

/-- One pair, without the closing semicolon. -/
def pairText (kv : Str × List Int32) : Str := kv.1 ++ ':'.toUInt8 :: valuesText kv.2

theorem serializePair_eq (kv : Str × List Int32) :
    serializePair kv = pairText kv ++ [';'.toUInt8] := by
  have hvalues : kv.2.flatMap (fun val => printValue val ++ str ",") = valuesText kv.2 := by
    rw [valuesText, unlines, List.flatMap_map]
    rfl
  rw [serializePair, hvalues, pairText, List.append_assoc kv.1]
  rfl

theorem serializeKvStore_eq (t : KeyValueStore) :
    serializeKvStore t = unlines ';'.toUInt8 (t.getAll.map pairText) := by
  rw [serializeKvStore, unlines, List.flatMap_map]
  exact congrArg (t.getAll.flatMap ·) (funext serializePair_eq)

/-- The separators are neither digits nor the minus sign. -/
theorem separator_not_mem_printValue {c : UInt8}
    (hc : c = ','.toUInt8 ∨ c = ';'.toUInt8 ∨ c = ':'.toUInt8) (value : Int32) :
    c ∉ printValue value := by
  rcases hc with rfl | rfl | rfl <;> exact not_mem_printValue (by decide) (by decide) value

theorem semicolon_not_mem_valuesText (vs : List Int32) : ';'.toUInt8 ∉ valuesText vs := by
  intro h
  simp only [valuesText, unlines, List.mem_flatMap, List.mem_map, List.mem_append,
    List.mem_singleton] at h
  obtain ⟨_, ⟨v, -, rfl⟩, h | h⟩ := h
  · exact separator_not_mem_printValue (Or.inr (Or.inl rfl)) v h
  · exact absurd h (by decide)

theorem semicolon_not_mem_pairText {kv : Str × List Int32} (h : ';'.toUInt8 ∉ kv.1) :
    ';'.toUInt8 ∉ pairText kv := by
  intro hmem
  rcases List.mem_append.mp hmem with hkey | hmem
  · exact h hkey
  · rcases List.mem_cons.mp hmem with hcolon | hmem
    · exact absurd hcolon (by decide)
    · exact semicolon_not_mem_valuesText kv.2 hmem

/-! ## 2. Reading a written text -/

theorem foldlM_readValue_printValue (acc vs : List Int32) :
    (vs.map printValue).foldlM readValue acc = .ok (acc ++ vs) := by
  induction vs generalizing acc with
  | nil => simp [pure, Except.pure]
  | cons v vs ih =>
    have hread : readValue acc (printValue v) = .ok (acc ++ [v]) := by
      rw [readValue, if_neg (printValue_ne_nil v), stoi_printValue]
    rw [List.map_cons, List.foldlM_cons, hread]
    exact (ih (acc ++ [v])).trans (by rw [List.append_assoc]; rfl)

theorem readPair_pairText {kv : Str × List Int32} (hkey : ':'.toUInt8 ∉ kv.1)
    (s : KeyValueStore) : readPair s (pairText kv) = .ok (s.insertMany kv.1 kv.2) := by
  have hlines : lines ','.toUInt8 (valuesText kv.2) = kv.2.map printValue := by
    refine lines_unlines ?_
    intro l hl
    obtain ⟨v, -, rfl⟩ := List.mem_map.mp hl
    exact separator_not_mem_printValue (Or.inl rfl) v
  rw [readPair, pairText, getline_append_cons hkey]
  simp only [hlines, foldlM_readValue_printValue, List.nil_append]

/-- The keys the text codec can carry. -/
def CleanKeys (t : KeyValueStore) : Prop :=
  ∀ key, t.find key ≠ none → ':'.toUInt8 ∉ key ∧ ';'.toUInt8 ∉ key

theorem CleanKeys.of_mem_getAll {t : KeyValueStore} (h : CleanKeys t) {kv : Str × List Int32}
    (hkv : kv ∈ t.getAll) : ':'.toUInt8 ∉ kv.1 ∧ ';'.toUInt8 ∉ kv.1 :=
  h kv.1 (by rw [KeyValueStore.mem_getAll.mp hkv]; exact Option.some_ne_none _)

/-- Reading pairs back inserts them one after the other. -/
theorem foldlM_readPair_pairText {l : List (Str × List Int32)}
    (h : ∀ kv ∈ l, ':'.toUInt8 ∉ kv.1) (s : KeyValueStore) :
    (l.map pairText).foldlM readPair s
      = .ok (l.foldl (fun s kv => s.insertMany kv.1 kv.2) s) := by
  induction l generalizing s with
  | nil => rfl
  | cons kv l ih =>
    rw [List.map_cons, List.foldlM_cons, readPair_pairText (h kv List.mem_cons_self)]
    exact ih (fun kv' hkv' => h kv' (List.mem_cons_of_mem _ hkv')) _

/-- **Forwards: a store with clean keys is read back as it was.** -/
theorem deserialize_serialize {t : KeyValueStore} (h : CleanKeys t) :
    deserializeKvStore (serializeKvStore t) = .ok t := by
  have hlines : lines ';'.toUInt8 (serializeKvStore t) = t.getAll.map pairText := by
    rw [serializeKvStore_eq]
    refine lines_unlines ?_
    intro l hl
    obtain ⟨kv, hkv, rfl⟩ := List.mem_map.mp hl
    exact semicolon_not_mem_pairText (h.of_mem_getAll hkv).2
  rw [deserializeKvStore, hlines,
    foldlM_readPair_pairText (fun kv hkv => (h.of_mem_getAll hkv).1),
    KeyValueStore.foldl_insertMany_getAll]

/-! ## 3. What every store that was read looks like -/

theorem CleanKeys.insertMany {t : KeyValueStore} (h : CleanKeys t) {key : Str}
    (hkey : ':'.toUInt8 ∉ key ∧ ';'.toUInt8 ∉ key) (vs : List Int32) :
    CleanKeys (t.insertMany key vs) := by
  intro key' hfind
  rw [KeyValueStore.find_insertMany] at hfind
  split at hfind
  · rename_i heq
    exact heq ▸ hkey
  · exact h key' hfind

/-- One line of the outer loop, which holds no semicolon, adds at most one clean key. -/
theorem CleanKeys.readPair {s s' : KeyValueStore} {line : Str} (hline : ';'.toUInt8 ∉ line)
    (h : CleanKeys s) (hread : readPair s line = .ok s') : CleanKeys s' := by
  unfold ReplicatedMapReduce.readPair at hread
  rcases eq_or_ne line [] with rfl | hne
  · cases hread
    exact h
  · obtain ⟨key, hcolon, hcase⟩ := getline_cases ':'.toUInt8 hne
    obtain ⟨stream, hg, hsub⟩ : ∃ stream, getline ':'.toUInt8 line = some (key, stream) ∧
        ∀ c ∈ key, c ∈ line := by
      rcases hcase with ⟨rest, rfl, hg⟩ | ⟨rfl, hg⟩
      · exact ⟨rest, hg, fun c hc => List.mem_append_left _ hc⟩
      · exact ⟨[], hg, fun c hc => hc⟩
    rw [hg] at hread
    simp only at hread
    split at hread
    · cases hread
      exact h.insertMany ⟨hcolon, fun hc => hline (hsub _ hc)⟩ _
    · exact absurd hread (by simp)

/-- **Backwards: whatever the text, a store that was read has clean keys.** -/
theorem cleanKeys_of_deserialize {data : Str} {t : KeyValueStore}
    (h : deserializeKvStore data = .ok t) : CleanKeys t := by
  refine foldlM_invariant (P := CleanKeys) ?_ h (fun key hkey => ?_)
  · exact fun line hline s s' hs hread => hs.readPair (of_mem_lines hline).1 hread
  · exact absurd (KeyValueStore.find_empty key) hkey

/-- **The exact range of the text codec.**  A store is read back from its own text as it was if
and only if none of its keys holds a `:` or a `;`. -/
theorem deserialize_serialize_iff (t : KeyValueStore) :
    deserializeKvStore (serializeKvStore t) = .ok t ↔
      ∀ key, t.find key ≠ none → ':'.toUInt8 ∉ key ∧ ';'.toUInt8 ∉ key :=
  ⟨cleanKeys_of_deserialize, deserialize_serialize⟩

/-! ## 4. A store does not print longer than what it was read from

The size of a store is the length of its text.  Reading can only lose characters: the tokens
that are skipped, the white space, signs and leading zeros of the numbers.  What the writer adds
back is at most a comma and a semicolon, or a colon and a semicolon, for a line that came
without them. -/

/-- The length of the text of one pair. -/
def pairSize (kv : Str × List Int32) : ℕ := (serializePair kv).length

/-- The length of the text of a store. -/
def storeSize (s : KeyValueStore) : ℕ := (serializeKvStore s).length

theorem length_valuesText (vs : List Int32) :
    (valuesText vs).length = (vs.map fun v => (printValue v).length + 1).sum := by
  induction vs with
  | nil => rfl
  | cons v vs ih =>
    rw [valuesText, List.map_cons, unlines_cons, List.length_append, List.length_cons,
      List.map_cons, List.sum_cons, ← ih, valuesText]
    omega

theorem pairSize_eq (kv : Str × List Int32) :
    pairSize kv = kv.1.length + (valuesText kv.2).length + 2 := by
  rw [pairSize, serializePair_eq, pairText]
  simp only [List.length_append, List.length_cons, List.length_nil]
  omega

theorem storeSize_eq (s : KeyValueStore) : storeSize s = (s.store.toList.map pairSize).sum := by
  rw [storeSize, serializeKvStore, List.length_flatMap]
  rfl

/-- Values that join a key that is there share its two delimiters. -/
theorem storeSize_insertMany_le (s : KeyValueStore) (key : Str) (vs : List Int32) :
    storeSize (s.insertMany key vs) ≤ storeSize s + pairSize (key, vs) := by
  have hstore : s.insertMany key vs = ⟨s.store.insert key (s.values key ++ vs)⟩ := by
    refine KeyValueStore.ext_find ?_
    intro key'
    rw [KeyValueStore.find_insertMany, KeyValueStore.find_mk_insert]
  have hsum : storeSize (s.insertMany key vs) + ((s.find key).elim 0 fun ws => pairSize (key, ws))
      = storeSize s + pairSize (key, s.values key ++ vs) := by
    rw [hstore, storeSize_eq, storeSize_eq]
    exact TreeMaps.sum_toList_insert pairSize s.store key (s.values key ++ vs)
  rw [KeyValueStore.values] at hsum
  cases hf : s.find key with
  | none =>
    rw [hf, Option.elim_none, Option.getD_none, List.nil_append] at hsum
    omega
  | some ws =>
    have hjoin : pairSize (key, ws ++ vs) ≤ pairSize (key, ws) + pairSize (key, vs) := by
      simp only [pairSize_eq, length_valuesText, List.map_append, List.sum_append]
      omega
    rw [hf, Option.elim_some, Option.getD_some] at hsum
    omega

theorem length_valuesText_readValue_le {vs vs' : List Int32} {token : Str}
    (h : readValue vs token = .ok vs') :
    (valuesText vs').length ≤ (valuesText vs).length + (token.length + 1) := by
  unfold readValue at h
  split at h
  · cases h
    omega
  · split at h
    · rename_i value hvalue
      cases h
      have hlen := length_printValue_le hvalue
      simp only [length_valuesText, List.map_append, List.sum_append, List.map_cons,
        List.map_nil, List.sum_cons, List.sum_nil]
      omega
    · cases h
      omega
    · exact absurd h (by simp)

theorem length_valuesText_foldlM_le {vs vs' : List Int32} {tokens : List Str}
    (h : tokens.foldlM readValue vs = .ok vs') :
    (valuesText vs').length
      ≤ (valuesText vs).length + (tokens.map fun l : List UInt8 => l.length + 1).sum := by
  induction tokens generalizing vs with
  | nil =>
    cases h
    simp
  | cons token tokens ih =>
    rw [List.foldlM_cons] at h
    cases hread : readValue vs token with
    | error e => rw [hread] at h; exact absurd h (by simp [bind, Except.bind])
    | ok ws =>
      rw [hread] at h
      have h1 := length_valuesText_readValue_le hread
      have h2 := ih h
      rw [List.map_cons, List.sum_cons]
      omega

/-- What one line of the outer loop adds to the size. -/
def lineCost (line : Str) : ℕ :=
  match getline ':'.toUInt8 line with
  | none => 0
  | some (key, kvStream) =>
    match (lines ','.toUInt8 kvStream).foldlM readValue [] with
    | .ok vs => pairSize (key, vs)
    | .error _ => 0

theorem storeSize_readPair_le {s s' : KeyValueStore} {line : Str}
    (h : readPair s line = .ok s') : storeSize s' ≤ storeSize s + lineCost line := by
  unfold readPair at h
  unfold lineCost
  cases hg : getline ':'.toUInt8 line with
  | none =>
    rw [hg] at h
    cases h
    omega
  | some p =>
    obtain ⟨key, kvStream⟩ := p
    rw [hg] at h
    simp only at h ⊢
    cases hv : (lines ','.toUInt8 kvStream).foldlM readValue [] with
    | error e => rw [hv] at h; exact absurd h (by simp)
    | ok vs =>
      rw [hv] at h
      cases h
      exact storeSize_insertMany_le s key vs

theorem storeSize_foldlM_le {s s' : KeyValueStore} {ls : List Str}
    (h : ls.foldlM readPair s = .ok s') : storeSize s' ≤ storeSize s + (ls.map lineCost).sum := by
  induction ls generalizing s with
  | nil =>
    cases h
    simp
  | cons line ls ih =>
    rw [List.foldlM_cons] at h
    cases hread : readPair s line with
    | error e => rw [hread] at h; exact absurd h (by simp [bind, Except.bind])
    | ok s1 =>
      rw [hread] at h
      have h1 := storeSize_readPair_le hread
      have h2 := ih h
      rw [List.map_cons, List.sum_cons]
      omega

/-- Any line at all: the writer adds at most two delimiters to it. -/
theorem lineCost_le (line : Str) : lineCost line ≤ line.length + 1 + 1 := by
  unfold lineCost
  rcases eq_or_ne line [] with rfl | hne
  · exact Nat.zero_le _
  · obtain ⟨key, -, ⟨rest, rfl, hg⟩ | ⟨rfl, hg⟩⟩ := getline_cases ':'.toUInt8 hne
    · rw [hg]
      simp only
      split
      · rename_i vs hvs
        have h1 := length_valuesText_foldlM_le hvs
        have h2 := sum_length_lines_le ','.toUInt8 rest
        have h3 : (valuesText []).length = 0 := rfl
        rw [pairSize_eq, List.length_append, List.length_cons]
        dsimp only
        omega
      · exact Nat.zero_le _
    · rw [hg]
      exact (pairSize_eq (line, [])).le

/-- A complete line of a written text: the writer adds its semicolon. -/
theorem lineCost_pairText {kv : Str × List Int32} (hkey : ':'.toUInt8 ∉ kv.1) :
    lineCost (pairText kv) = (pairText kv).length + 1 := by
  have hlines : lines ','.toUInt8 (valuesText kv.2) = kv.2.map printValue := by
    refine lines_unlines ?_
    intro l hl
    obtain ⟨v, -, rfl⟩ := List.mem_map.mp hl
    exact separator_not_mem_printValue (Or.inl rfl) v
  rw [lineCost, pairText, getline_append_cons hkey]
  simp only [hlines, foldlM_readValue_printValue, List.nil_append]
  rw [pairSize_eq, List.length_append, List.length_cons]
  dsimp only
  omega

/-- **What is read from a window of a written text prints at most three characters longer than
the window.**  Only the first and the last line of the window can be cut. -/
theorem length_serialize_window_le {t t' : KeyValueStore} (h : CleanKeys t) (a n : ℕ)
    (hread : deserializeKvStore (((serializeKvStore t).drop a).take n) = .ok t') :
    (serializeKvStore t').length ≤ n + 3 := by
  have hdel : ∀ l ∈ t.getAll.map pairText, ';'.toUInt8 ∉ l := by
    intro l hl
    obtain ⟨kv, hkv, rfl⟩ := List.mem_map.mp hl
    exact semicolon_not_mem_pairText (h.of_mem_getAll hkv).2
  have hfull : ∀ l ∈ t.getAll.map pairText, lineCost l ≤ l.length + 1 := by
    intro l hl
    obtain ⟨kv, hkv, rfl⟩ := List.mem_map.mp hl
    exact (lineCost_pairText (h.of_mem_getAll hkv).1).le
  have hcost := linesCost_take_drop_le lineCost_le hdel hfull a n
  rw [← serializeKvStore_eq] at hcost
  exact (storeSize_foldlM_le hread).trans ((Nat.zero_add _).trans_le hcost)

end ReplicatedMapReduce
