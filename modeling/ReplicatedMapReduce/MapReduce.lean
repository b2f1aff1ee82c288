/-
# `MapReduce`

A `MapReduce` object is a copy of the store it is built from and two tables of named
functions.  `performMapReduce` looks both names up first, and throws when one is unknown; then
it goes through the listed keys and writes one integer for each.

The source handles a missing key by a detour: `getValues` throws, the handler writes the
identity element, the local `values` stays empty, and the test for an empty list writes the
identity element again.  `reduceKey_eq` says what all the paths come to: the key's mapped values
folded from the identity element, which is the identity element itself when there are none.
-/
import ReplicatedMapReduce.KeyValueStore
import ReplicatedMapReduce.Foundation.TreeMaps

namespace ReplicatedMapReduce

/-- `std::map<std::string, int>`, what a map-reduce answers. -/
abbrev Results := Map Str Int32

structure MapReduce where
  kvStore : KeyValueStore
  mapFunctions : Map Str (Int32 → Int32)
  reduceFunctions : Map Str ((Int32 → Int32 → Int32) × Int32)

namespace MapReduce

/-! ## 1. `MapReduce.cpp` -/

def initOperations (mr : MapReduce) : MapReduce :=
  { mr with
    mapFunctions := ((mr.mapFunctions.insert (str "square") fun x => x * x).insert
      (str "double") fun x => x * 2).insert (str "triple") fun x => x * 3
    reduceFunctions := (mr.reduceFunctions.insert (str "sum") (fun x y => x + y, 0)).insert
      (str "product") (fun x y => x * y, 1) }

/-- The constructor. -/
def new (store : KeyValueStore) : MapReduce := initOperations ⟨store, ∅, ∅⟩

/-- The body of the loop over the keys. -/
def reduceKey (mr : MapReduce) (mapFunction : Int32 → Int32)
    (reduceFunction : Int32 → Int32 → Int32) (identity : Int32) (results : Results) (key : Str) :
    Results :=
  let (values, results) :=
    match mr.kvStore.getValues key with
    | .ok values => (values, results)
    -- the handler; `getValues` throws nothing but `runtime_error`
    | .error _ => ([], results.insert key identity)
  if values = [] then results.insert key identity
  else
    let mappedValues := values.map mapFunction
    results.insert key (mappedValues.foldl reduceFunction identity)

def performMapReduce (mr : MapReduce) (mapOp reduceOp : Str) (keys : List Str) :
    Except StdException Results :=
  match mr.mapFunctions[mapOp]? with
  | none => .error (.runtimeError (str "Map operation not found: " ++ mapOp))
  | some mapFunction =>
    match mr.reduceFunctions[reduceOp]? with
    | none => .error (.runtimeError (str "Reduce operation not found: " ++ reduceOp))
    | some (reduceFunction, identity) =>
      .ok (keys.foldl (mr.reduceKey mapFunction reduceFunction identity) ∅)

/-! ## 2. Which names are known -/

/-- The map operations that exist. -/
def mapOps : List Str := [str "square", str "double", str "triple"]

/-- The reduce operations that exist. -/
def reduceOps : List Str := [str "sum", str "product"]

/-- Both names of a map-reduce are names of existing operations. -/
def Existing (mapOp reduceOp : Str) : Prop := mapOp ∈ mapOps ∧ reduceOp ∈ reduceOps

instance (mapOp reduceOp : Str) : Decidable (Existing mapOp reduceOp) :=
  inferInstanceAs (Decidable (_ ∧ _))

theorem mapFunctions_new_isSome (store : KeyValueStore) (mapOp : Str) :
    ((new store).mapFunctions[mapOp]?).isSome = true ↔ mapOp ∈ mapOps := by
  simp only [new, initOperations, Std.ExtTreeMap.getElem?_insert, Std.ExtTreeMap.getElem?_empty,
    Std.LawfulEqCmp.compare_eq_iff_eq, mapOps, List.mem_cons, List.not_mem_nil, or_false]
  split <;> rename_i h1
  · simp [← h1]
  · split <;> rename_i h2
    · simp [← h2]
    · split <;> rename_i h3
      · simp [← h3]
      · simp [Ne.symm h1, Ne.symm h2, Ne.symm h3]

theorem reduceFunctions_new_isSome (store : KeyValueStore) (reduceOp : Str) :
    ((new store).reduceFunctions[reduceOp]?).isSome = true ↔ reduceOp ∈ reduceOps := by
  simp only [new, initOperations, Std.ExtTreeMap.getElem?_insert, Std.ExtTreeMap.getElem?_empty,
    Std.LawfulEqCmp.compare_eq_iff_eq, reduceOps, List.mem_cons, List.not_mem_nil, or_false]
  split <;> rename_i h1
  · simp [← h1]
  · split <;> rename_i h2
    · simp [← h2]
    · simp [Ne.symm h1, Ne.symm h2]

/-! ## 3. What one key and the whole loop write -/

/-- The one integer a key's values come to. -/
def reduceValues (mapFunction : Int32 → Int32) (reduceFunction : Int32 → Int32 → Int32)
    (identity : Int32) (values : List Int32) : Int32 :=
  (values.map mapFunction).foldl reduceFunction identity

/-- **Whatever path the body takes, it writes the folded values of its key.** -/
theorem reduceKey_eq (mr : MapReduce) (mapFunction : Int32 → Int32)
    (reduceFunction : Int32 → Int32 → Int32) (identity : Int32) (results : Results) (key : Str) :
    mr.reduceKey mapFunction reduceFunction identity results key
      = results.insert key
          (reduceValues mapFunction reduceFunction identity (mr.kvStore.values key)) := by
  unfold reduceKey KeyValueStore.getValues KeyValueStore.values
  cases hf : mr.kvStore.find key with
  | none =>
    -- the handler has written the identity element already
    refine Std.ExtTreeMap.ext_getElem? ?_
    intro k
    simp only [if_true, Option.getD_none, Std.ExtTreeMap.getElem?_insert, reduceValues,
      List.map_nil, List.foldl_nil]
    split <;> rfl
  | some vs =>
    by_cases hvs : vs = []
    · subst hvs
      simp [reduceValues]
    · simp [hvs, reduceValues]

/-- **What `performMapReduce` returns**, when it returns. -/
theorem performMapReduce_eq_ok (mr : MapReduce) {mapOp reduceOp : Str} {keys : List Str}
    {results : Results} :
    mr.performMapReduce mapOp reduceOp keys = .ok results ↔
      ∃ mapFunction reduceFunction identity,
        mr.mapFunctions[mapOp]? = some mapFunction ∧
        mr.reduceFunctions[reduceOp]? = some (reduceFunction, identity) ∧
        results = keys.foldl (fun results key => results.insert key
          (reduceValues mapFunction reduceFunction identity (mr.kvStore.values key))) ∅ := by
  unfold performMapReduce
  cases hm : mr.mapFunctions[mapOp]? with
  | none => simp
  | some mapFunction =>
    cases hr : mr.reduceFunctions[reduceOp]? with
    | none => simp
    | some entry =>
      obtain ⟨reduceFunction, identity⟩ := entry
      have hloop : mr.reduceKey mapFunction reduceFunction identity
          = fun results key => results.insert key
              (reduceValues mapFunction reduceFunction identity (mr.kvStore.values key)) :=
        funext fun results => funext fun key => reduceKey_eq _ _ _ _ _ _
      simp [hloop, eq_comm]

/-- **`performMapReduce` returns exactly when both operations exist**, whatever the keys. -/
theorem performMapReduce_returns_iff (store : KeyValueStore) (mapOp reduceOp : Str)
    (keys : List Str) :
    (∃ results, (new store).performMapReduce mapOp reduceOp keys = .ok results)
      ↔ Existing mapOp reduceOp := by
  rw [Existing, ← mapFunctions_new_isSome store, ← reduceFunctions_new_isSome store]
  simp only [performMapReduce_eq_ok, Option.isSome_iff_exists, Prod.exists]
  constructor
  · rintro ⟨results, f, g, e, hf, hg, -⟩
    exact ⟨⟨f, hf⟩, g, e, hg⟩
  · rintro ⟨⟨f, hf⟩, g, e, hg⟩
    exact ⟨_, f, g, e, hf, hg, rfl⟩

/-- Only the values of the listed keys are read. -/
theorem performMapReduce_congr {s t : KeyValueStore} {mapOp reduceOp : Str} {keys : List Str}
    (h : ∀ f g e, (new s).mapFunctions[mapOp]? = some f →
      (new s).reduceFunctions[reduceOp]? = some (g, e) →
      ∀ key ∈ keys, reduceValues f g e (s.values key) = reduceValues f g e (t.values key)) :
    (new s).performMapReduce mapOp reduceOp keys
      = (new t).performMapReduce mapOp reduceOp keys := by
  -- the tables do not depend on the store
  have htables : (new t).mapFunctions = (new s).mapFunctions ∧
      (new t).reduceFunctions = (new s).reduceFunctions := ⟨rfl, rfl⟩
  unfold performMapReduce
  rw [htables.1, htables.2]
  cases hm : (new s).mapFunctions[mapOp]? with
  | none => rfl
  | some f =>
    cases hr : (new s).reduceFunctions[reduceOp]? with
    | none => rfl
    | some entry =>
      obtain ⟨g, e⟩ := entry
      refine congrArg Except.ok (List.foldl_ext _ _ _ fun results key hkey => ?_)
      rw [reduceKey_eq, reduceKey_eq]
      exact congrArg _ (h f g e hm hr key hkey)

/-- The entries of the table of reduce operations. -/
theorem reduceFunctions_new_cases {store : KeyValueStore} {reduceOp : Str}
    {g : Int32 → Int32 → Int32} {e : Int32}
    (h : (new store).reduceFunctions[reduceOp]? = some (g, e)) :
    (reduceOp = str "sum" ∧ g = (fun x y => x + y) ∧ e = 0) ∨
      (reduceOp = str "product" ∧ g = (fun x y => x * y) ∧ e = 1) := by
  simp only [new, initOperations, Std.ExtTreeMap.getElem?_insert, Std.ExtTreeMap.getElem?_empty,
    Std.LawfulEqCmp.compare_eq_iff_eq] at h
  split at h <;> rename_i h1
  · simp only [Option.some.injEq, Prod.mk.injEq] at h
    exact Or.inr ⟨h1.symm, h.1.symm, h.2.symm⟩
  · split at h <;> rename_i h2
    · simp only [Option.some.injEq, Prod.mk.injEq] at h
      exact Or.inl ⟨h2.symm, h.1.symm, h.2.symm⟩
    · exact absurd h (by simp)

end MapReduce

end ReplicatedMapReduce
