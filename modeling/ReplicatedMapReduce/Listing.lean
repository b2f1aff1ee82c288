/-
# What is printed

`store` prints a line `<key>: <value>, <value>` for each key, and `handle_result` one line
`<key>: <value>` for each result.  Nothing is escaped, so that a key with a line end in it can make
two stores print the same.  Without such keys they cannot: the values hold no `:`, so the last `:`
of a line is the one after the key, whatever else the key is made of (`readListing_printListing`).

No prompt can append a key with a line end.  So where the log has been typed, two members show the
same text exactly if they have the same store (`same_listing_iff`), and what a client is shown
determines the index and the results (`reportText_inj`).
-/
import ReplicatedMapReduce.Service
import ReplicatedMapReduce.Cluster

namespace ReplicatedMapReduce

open Runs Words

/-! ## 1. `print_kv_store` and `handle_result` -/

/-- The inner loop of `print_kv_store`, from the `i`-th of the values on. -/
def printValuesLoop (values : List Int32) : ℕ → List Int32 → Str
  | _, [] => []
  | i, value :: rest =>
    printValue value ++ (if i < values.length - 1 then str ", " else []) ++
      printValuesLoop values (i + 1) rest

def printValues (values : List Int32) : Str := printValuesLoop values 0 values

def printKvStore (kvStore : KeyValueStore) : Str :=
  kvStore.getAll.flatMap fun kv => kv.1 ++ str ": " ++ printValues kv.2 ++ str "\n"

def printResults (results : Results) : Str :=
  results.toList.flatMap fun kv => kv.1 ++ str ": " ++ printValue kv.2 ++ str "\n"

/-- What `handle_result` prints for a result it calls a success. -/
def reportText (logIdx : UInt64) (results : Option Results) : Str :=
  str "succeeded, log index: " ++ Decimal.printNat logIdx.toNat ++ str "\n" ++
    match results with
    | some results => str "MapReduce results:" ++ str "\n" ++ printResults results
    | none => []

/-! ## 2. Reading a listing -/

section Listing

variable {α : Type} {text : α → Str} {read : Str → α}

/-- A line for each key, with some text for what is under it. -/
def printListing (text : α → Str) (l : List (Str × α)) : Str :=
  Getline.unlines '\n'.toUInt8 (l.map fun kv => kv.1 ++ str ": " ++ text kv.2)

/-- A line cut at its last `:`, without the space after it. -/
def readEntry (line : Str) : Str × Str :=
  match Getline.getline ':'.toUInt8 line.reverse with
  | none => ([], [])
  | some (after, before) => (before.reverse, after.reverse.drop 1)

def readListing (read : Str → α) (s : Str) : List (Str × α) :=
  (Getline.lines '\n'.toUInt8 s).map fun line => ((readEntry line).1, read (readEntry line).2)

theorem readEntry_entry {key t : Str} (h : ':'.toUInt8 ∉ t) :
    readEntry (key ++ str ": " ++ t) = (key, t) := by
  have hreverse : (key ++ str ": " ++ t).reverse
      = (' '.toUInt8 :: t).reverse ++ ':'.toUInt8 :: key.reverse := by
    simp [str]
  have hafter : ':'.toUInt8 ∉ (' '.toUInt8 :: t).reverse := by
    rw [List.mem_reverse, List.mem_cons, not_or]
    exact ⟨by decide, h⟩
  rw [readEntry, hreverse, Getline.getline_append_cons hafter]
  simp only [List.reverse_reverse, List.drop_one, List.tail_cons]

/-- **A listing whose keys have no line end is read back.** -/
theorem readListing_printListing (hread : ∀ a, read (text a) = a)
    (hcolon : ∀ a, ':'.toUInt8 ∉ text a) (hline : ∀ a, '\n'.toUInt8 ∉ text a)
    {l : List (Str × α)} (hkeys : ∀ kv ∈ l, '\n'.toUInt8 ∉ kv.1) :
    readListing read (printListing text l) = l := by
  have hlines : ∀ s ∈ l.map fun kv => kv.1 ++ str ": " ++ text kv.2, '\n'.toUInt8 ∉ s := by
    intro s hs
    obtain ⟨kv, hkv, rfl⟩ := List.mem_map.mp hs
    rw [List.mem_append, List.mem_append, not_or, not_or]
    exact ⟨⟨hkeys kv hkv, by decide⟩, hline kv.2⟩
  rw [readListing, printListing, Getline.lines_unlines hlines, List.map_map]
  refine List.map_id'' (fun kv => ?_) l
  rw [Function.comp_apply, readEntry_entry (hcolon kv.2), hread]

end Listing

/-! ## 3. The texts under the keys -/

/-- A comma-separated list of numbers. -/
def readValues (s : Str) : List Int32 :=
  (words ','.toUInt8 s).filterMap fun token => (stoi token).toOption

def readResult (s : Str) : Int32 := (stoi s).toOption.getD 0

/-- What is printed between two values starts the text of the next one with a space. -/
theorem stoi_lead {lead : Str} (hlead : lead = [] ∨ lead = str " ") (value : Int32) :
    stoi (lead ++ printValue value) = .ok value := by
  rcases hlead with rfl | rfl
  · exact stoi_printValue value
  · have hspace : Decimal.strtol (str " " ++ printValue value)
        = Decimal.strtol (printValue value) := rfl
    rw [stoi_eq_ok_iff, hspace]
    exact stoi_eq_ok_iff.mp (stoi_printValue value)

theorem lead_spec {lead : Str} (hlead : lead = [] ∨ lead = str " ") (value : Int32) :
    lead ++ printValue value ≠ [] ∧ ','.toUInt8 ∉ lead ++ printValue value := by
  refine ⟨List.append_ne_nil_of_right_ne_nil _ (printValue_ne_nil value), ?_⟩
  rw [List.mem_append, not_or]
  refine ⟨?_, not_mem_printValue (by decide) (by decide) value⟩
  rcases hlead with rfl | rfl <;> decide

theorem readValues_printValuesLoop {values rest : List Int32} {i : ℕ} {lead : Str}
    (hlead : lead = [] ∨ lead = str " ") (v : Int32) (hi : i + rest.length + 1 = values.length) :
    readValues (lead ++ printValuesLoop values i (v :: rest)) = v :: rest := by
  obtain ⟨hne, hcomma⟩ := lead_spec hlead v
  induction rest generalizing i lead v with
  | nil =>
    have hlast : ¬ i < values.length - 1 := by
      rw [List.length_nil] at hi
      omega
    rw [printValuesLoop, printValuesLoop, if_neg hlast, List.append_nil, List.append_nil,
      readValues, words_of_not_mem hne hcomma]
    simp [stoi_lead hlead, Except.toOption]
  | cons w rest ih =>
    rw [List.length_cons] at hi
    have hmore : i < values.length - 1 := by omega
    obtain ⟨hne', hcomma'⟩ := lead_spec (Or.inr rfl) w
    have hrest := @ih (i + 1) (str " ") (Or.inr rfl) w (by omega) hne' hcomma'
    have htext : lead ++ printValuesLoop values i (v :: w :: rest) = (lead ++ printValue v) ++
        ','.toUInt8 :: (str " " ++ printValuesLoop values (i + 1) (w :: rest)) := by
      rw [printValuesLoop, if_pos hmore, List.append_assoc, List.append_assoc]
      rfl
    rw [readValues] at hrest ⊢
    rw [htext, words_append_cons hcomma, if_neg hne, List.filterMap_cons, hrest,
      stoi_lead hlead]
    rfl

theorem readValues_printValues (values : List Int32) :
    readValues (printValues values) = values := by
  cases values with
  | nil => rfl
  | cons v rest => exact readValues_printValuesLoop (Or.inl rfl) v (by simp)

theorem readResult_printValue (value : Int32) : readResult (printValue value) = value := by
  rw [readResult, stoi_printValue]
  rfl

theorem not_mem_printValuesLoop {c : UInt8} (hminus : c ≠ '-'.toUInt8)
    (hdigit : Decimal.isDigit c = false) (hbetween : c ∉ str ", ") (values rest : List Int32)
    (i : ℕ) : c ∉ printValuesLoop values i rest := by
  induction rest generalizing i with
  | nil => exact List.not_mem_nil
  | cons v rest ih =>
    rw [printValuesLoop, List.mem_append, List.mem_append, not_or, not_or]
    refine ⟨⟨not_mem_printValue hminus hdigit v, ?_⟩, ih (i + 1)⟩
    split
    · exact hbetween
    · exact List.not_mem_nil

theorem printKvStore_eq (s : KeyValueStore) :
    printKvStore s = printListing printValues s.getAll := by
  rw [printListing, Getline.unlines, List.flatMap_map]
  rfl

theorem printResults_eq (results : Results) :
    printResults results = printListing printValue results.toList := by
  rw [printListing, Getline.unlines, List.flatMap_map]
  rfl

/-- No key has a line end in it. -/
def OneLineKeys (s : KeyValueStore) : Prop := ∀ key, s.find key ≠ none → '\n'.toUInt8 ∉ key

/-- **The listing of a store is read back.** -/
theorem readListing_printKvStore {s : KeyValueStore} (h : OneLineKeys s) :
    readListing readValues (printKvStore s) = s.getAll := by
  rw [printKvStore_eq]
  refine readListing_printListing readValues_printValues ?_ ?_ ?_
  · exact fun values => not_mem_printValuesLoop (by decide) (by decide) (by decide) values _ 0
  · exact fun values => not_mem_printValuesLoop (by decide) (by decide) (by decide) values _ 0
  · intro kv hkv
    exact h kv.1 (by rw [KeyValueStore.mem_getAll.mp hkv]; exact Option.some_ne_none _)

/-- **And so are the results.** -/
theorem readListing_printResults {results : Results}
    (h : ∀ key ∈ results, '\n'.toUInt8 ∉ key) :
    readListing readResult (printResults results) = results.toList := by
  rw [printResults_eq]
  refine readListing_printListing readResult_printValue ?_ ?_ ?_
  · exact fun value => not_mem_printValue (by decide) (by decide) value
  · exact fun value => not_mem_printValue (by decide) (by decide) value
  · intro kv hkv
    have hget := Std.ExtTreeMap.mem_toList_iff_getElem?_eq_some.mp hkv
    exact h kv.1 (Std.ExtTreeMap.mem_iff_isSome_getElem?.mpr (by rw [hget]; rfl))

/-- Two stores without line ends in their keys print the same text only if they are the same. -/
theorem printKvStore_inj {s t : KeyValueStore} (hs : OneLineKeys s) (ht : OneLineKeys t) :
    printKvStore s = printKvStore t ↔ s = t := by
  constructor
  · intro h
    have hall : s.getAll = t.getAll := by
      rw [← readListing_printKvStore hs, h, readListing_printKvStore ht]
    exact KeyValueStore.ext (Std.ExtTreeMap.toList_inj.mp hall)
  · exact congrArg printKvStore

/-- A key with a line end: two stores that print the same. -/
example : ∃ s t : KeyValueStore, s ≠ t ∧ printKvStore s = printKvStore t :=
  ⟨⟨((∅ : Map _ _).insert (str "a: 1\nb") [2])⟩,
    ⟨((∅ : Map _ _).insert (str "a") [1]).insert (str "b") [2]⟩, by decide⟩

/-! ## 4. Where everything has been typed -/

/-- A payload that has been typed adds no key with a line end. -/
theorem OneLineKeys.apply {s : KeyValueStore} (h : OneLineKeys s) {p : OpPayload}
    (hp : p.Typed) : OneLineKeys (p.apply s) := by
  intro key hfind
  cases hp with
  | mapReduce => exact h key hfind
  | @store type key' value htype hword =>
    rcases htype with rfl | rfl | ⟨rfl, rfl⟩
    · simp only [OpPayload.apply, KeyValueStore.find_insert] at hfind
      split at hfind
      · rename_i hkey
        exact hkey ▸ hword.2.2.1
      · exact h key hfind
    · simp only [OpPayload.apply, KeyValueStore.find_removeValue] at hfind
      split at hfind
      · rename_i hkey
        exact hkey ▸ hword.2.2.1
      · exact h key hfind
    · simp only [OpPayload.apply, KeyValueStore.find_removeKey] at hfind
      split at hfind
      · exact absurd rfl hfind
      · exact h key hfind

theorem oneLineKeys_storeAt {log : ℕ → Entry}
    (htyped : ∀ j p, log j = .payload p → p.Typed) (i : ℕ) : OneLineKeys (storeAt log i) := by
  induction i with
  | zero => exact fun key hfind => absurd (KeyValueStore.find_empty key) hfind
  | succ i ih =>
    rw [storeAt]
    cases hentry : log (i + 1) with
    | payload p => exact ih.apply (htyped (i + 1) p hentry)
    | config => exact ih

/-- The results of a map-reduce that has been typed are under keys without line ends. -/
theorem oneLine_of_results {p : OpPayload} (hp : p.Typed) {s : KeyValueStore} {results : Results}
    (h : (Entry.payload p).results s = some results) : ∀ key ∈ results, '\n'.toUInt8 ∉ key := by
  simp only [Entry.results] at h
  split at h
  · rename_i htype
    cases hp with
    | @store type key value hstore _ =>
      rcases hstore with rfl | rfl | ⟨rfl, -⟩ <;> exact OpType.noConfusion htype
    | @mapReduce mapOp reduceOp keys _ _ _ hkeys =>
      intro key hkey
      cases hmr : (mapReducePayload mapOp reduceOp keys).mapReduce s with
      | error e =>
        rw [hmr] at h
        exact absurd h (by simp [Except.toOption])
      | ok results' =>
        rw [hmr] at h
        cases h
        obtain ⟨f, g, e, -, -, rfl⟩ := (MapReduce.performMapReduce_eq_ok _).mp hmr
        have hget := TreeMaps.getElem?_foldl_insert
          (fun key => MapReduce.reduceValues f g e ((MapReduce.new s).kvStore.values key))
          ∅ keys key
        rw [Std.ExtTreeMap.mem_iff_isSome_getElem?] at hkey
        by_cases hmem : key ∈ keys
        · exact (hkeys key hmem).1.2.2.1
        · rw [if_neg hmem, Std.ExtTreeMap.getElem?_empty] at hget
          exact absurd (hget ▸ hkey) (by simp)
  · exact absurd h (by simp)

/-- What is printed is determined by, and determines, the index and the results. -/
theorem reportText_inj {i j : UInt64} {results results' : Option Results}
    (h : ∀ r, results = some r → ∀ key ∈ r, '\n'.toUInt8 ∉ key)
    (h' : ∀ r, results' = some r → ∀ key ∈ r, '\n'.toUInt8 ∉ key) :
    reportText i results = reportText j results' ↔ i = j ∧ results = results' := by
  have hline : ∀ n : UInt64, '\n'.toUInt8 ∉ str "succeeded, log index: " ++
      Decimal.printNat n.toNat := by
    intro n hmem
    rcases List.mem_append.mp hmem with hmem | hmem
    · exact absurd hmem (by decide)
    · exact absurd (Decimal.isDigit_of_mem_printNat hmem) (by decide)
  have hfirst : ∀ (n : UInt64) (r : Option Results),
      Getline.getline '\n'.toUInt8 (reportText n r)
        = some (str "succeeded, log index: " ++ Decimal.printNat n.toNat,
            match r with
            | some r => str "MapReduce results:" ++ str "\n" ++ printResults r
            | none => []) := by
    intro n r
    rw [← Getline.getline_append_cons (hline n)]
    unfold reportText
    rw [List.append_assoc _ (str "\n")]
    rfl
  constructor
  · intro heq
    have hboth := hfirst i results
    rw [heq, hfirst, Option.some.injEq, Prod.mk.injEq] at hboth
    obtain ⟨hnum, htail⟩ := hboth
    have hnum' := congrArg Decimal.digitsValue (List.append_cancel_left hnum)
    rw [Decimal.digitsValue_printNat, Decimal.digitsValue_printNat, UInt64.toNat_inj] at hnum'
    refine ⟨hnum'.symm, ?_⟩
    rcases results with _ | r <;> rcases results' with _ | r'
    · rfl
    · exact absurd htail (by simp [str])
    · exact absurd htail (by simp [str])
    · have hread := congrArg (readListing readResult) (List.append_cancel_left htail)
      rw [readListing_printResults (h r rfl), readListing_printResults (h' r' rfl)] at hread
      rw [Std.ExtTreeMap.toList_inj.mp hread]
  · rintro ⟨rfl, rfl⟩
    rfl

/-- **What a client is shown for a command that has been typed** determines the index and the
results. -/
theorem shown_iff {p p' : OpPayload} (hp : p.Typed) (hp' : p'.Typed) (i j : UInt64)
    (s s' : KeyValueStore) :
    reportText i ((Entry.payload p).results s) = reportText j ((Entry.payload p').results s') ↔
      i = j ∧ (Entry.payload p).results s = (Entry.payload p').results s' :=
  reportText_inj (fun _ h => oneLine_of_results hp h) (fun _ h => oneLine_of_results hp' h)

/-- **`store` shows the same on two members exactly if they have the same store**, in every
interleaving of their events over a log of payloads that have been typed. -/
theorem same_listing_iff [NuRaft] [LogBuffers] {raftLog : ℕ → LogEntry} {log : ℕ → Entry}
    (htyped : ∀ j p, log j = .payload p → p.Typed) {ι : Type} [DecidableEq ι]
    {dummy : ι → LogEntry} {es : List (ι × MemberEvent)} {c : ι → Member}
    (hrun : Run (interleave memberStep) (fun c e => Driven raftLog log (c e.1) e.2)
      (fun k => Member.init (dummy k)) es c) (a b : ι) :
    (printKvStore (c a).replica.sm.kvStore = printKvStore (c b).replica.sm.kvStore ↔
      (c a).replica.sm.kvStore = (c b).replica.sm.kvStore) ∧
    readListing readValues (printKvStore (c a).replica.sm.kvStore)
      = (storeAt log (c a).replica.sm.lastCommittedIdx.toNat).getAll := by
  obtain ⟨w, hw⟩ := inStep_of_run (hrun.project a)
  obtain ⟨v, hv⟩ := inStep_of_run (hrun.project b)
  have ha := hw.recorded.tracks
  have hb := hv.recorded.tracks
  rw [TracksLog] at ha hb
  have hkeys := oneLineKeys_storeAt htyped (c a).replica.sm.lastCommittedIdx.toNat
  rw [ha, hb]
  exact ⟨printKvStore_inj hkeys (oneLineKeys_storeAt htyped _), readListing_printKvStore hkeys⟩

theorem typed_booksPayload : (booksPayload (str "square")).Typed :=
  @OpPayload.Typed.mapReduce (str "square") _ _ (by decide) (by decide) (by decide) (by decide)

/-- The log of the runs on concrete inputs can be typed. -/
theorem typed_booksLog (j : ℕ) (p : OpPayload) (h : booksLog j = .payload p) : p.Typed := by
  unfold booksLog at h
  split at h
  · cases h
    exact .store (Or.inl rfl) (by decide)
  · cases h
    exact .store (Or.inl rfl) (by decide)
  · cases h
    exact typed_booksPayload
  · exact absurd h (by simp)

/-- The same map-reduce, once over `3` and once over `4`. -/
theorem shown_books :
    reportText 3 ((Entry.payload (booksPayload (str "square"))).results (storeAt booksLog 1)) ≠
      reportText 3
        ((Entry.payload (booksPayload (str "square"))).results (storeAt booksLog 2)) := by
  intro h
  have hresults := ((shown_iff typed_booksPayload typed_booksPayload 3 3 _ _).mp h).2
  exact absurd hresults (by decide)

/-- One of two members is behind, and shows it. -/
theorem same_listing_books : ∃ c : Bool → Member,
    printKvStore (c false).replica.sm.kvStore ≠ printKvStore (c true).replica.sm.kvStore := by
  let := littleEndian
  let := littleEndianEntries
  have hroom : ∀ n, n < 10 → n + 1 < 2 ^ 64 := by
    intro n hn
    omega
  have hrun : ∃ c, Run (interleave memberStep)
      (fun c e => Driven promptLog booksLog (c e.1) e.2) (fun _ => Member.init (entryOf ""))
      [(false, .append (promptLog 1)), (true, .append (promptLog 1)),
        (true, .commitNext 8192 promptMem)] c ∧
      (c false).replica.sm.kvStore ≠ (c true).replica.sm.kvStore :=
    ⟨_, Run.cons (hroom 1 (by decide)) rfl (Run.cons (hroom 1 (by decide)) rfl
        (Run.cons (driven_promptLog (i := 1) (by decide) (by decide) (by decide) rfl rfl rfl)
        (interleave_eq (memberStep_promptLog (i := 1) (by decide) (by decide) rfl rfl))
      (Run.refl _))), by decide⟩
  obtain ⟨c, hrun, hne⟩ := hrun
  exact ⟨c, fun h => hne ((same_listing_iff typed_booksLog hrun false true).1.mp h)⟩

end ReplicatedMapReduce
