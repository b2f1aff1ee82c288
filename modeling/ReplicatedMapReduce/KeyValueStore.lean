/-
# `KeyValueStore`

The store the state machine replicates: a map from keys to lists of integers, in the order the
values were inserted.  A key whose last value was removed stays in the map with an empty list;
only `removeKey` takes a key away.

Every operation is first written as `KeyValueStore.cpp` writes it, loops included, and then
described once by what a lookup finds afterwards (`find_insert`, `find_removeValue`, ...).
Those descriptions, together with `ext_find`, are what every later proof uses: nothing below
this file unfolds an operation again.  `getCopy` inserts the pairs of a store into an empty one,
which makes the same store again (`getCopy_eq`); the server does not call it.
-/
import ReplicatedMapReduce.Basic

namespace ReplicatedMapReduce

/-- `class KeyValueStore`, with its one member. -/
@[ext] structure KeyValueStore where
  store : Map Str (List Int32)
  deriving DecidableEq

namespace KeyValueStore

instance : EmptyCollection KeyValueStore := ⟨⟨∅⟩⟩

/-- `store.find(key)`, `none` for `store.end()`. -/
def find (s : KeyValueStore) (key : Str) : Option (List Int32) := s.store[key]?

/-- The values under a key, an absent key counting as one without values. -/
def values (s : KeyValueStore) (key : Str) : List Int32 := (s.find key).getD []

/-! ## 1. The operations of `KeyValueStore.cpp` -/

/-- The first lines of `insert` and `insertMany`: a key that is not there gets an empty
list. -/
def ensureKey (s : KeyValueStore) (key : Str) : KeyValueStore :=
  if s.find key = none then ⟨s.store.insert key []⟩ else s

def insert (s : KeyValueStore) (key : Str) (value : Int32) : KeyValueStore :=
  ⟨(s.ensureKey key).store.modify key (· ++ [value])⟩

def insertMany (s : KeyValueStore) (key : Str) (values : List Int32) : KeyValueStore :=
  ⟨(s.ensureKey key).store.modify key (· ++ values)⟩

/-- The loop that erases the first hit and stops; `none` when it runs to the end. -/
def eraseFirst (value : Int32) : List Int32 → Option (List Int32)
  | [] => none
  | it :: rest => if it = value then some rest else (eraseFirst value rest).map (it :: ·)

/-- `removeValue`, with the store it leaves. -/
def removeValue (s : KeyValueStore) (key : Str) (value : Int32) : Bool × KeyValueStore :=
  match s.find key with
  | none => (false, s)
  | some values =>
    match eraseFirst value values with
    | some values => (true, ⟨s.store.insert key values⟩)
    | none => (false, s)

def removeKey (s : KeyValueStore) (key : Str) : Bool × KeyValueStore :=
  (s.store.contains key, ⟨s.store.erase key⟩)

/-- `removeMany`: the inner loop once per requested value. -/
def removeMany (s : KeyValueStore) (key : Str) (values : List Int32) : Bool × KeyValueStore :=
  match s.find key with
  | none => (false, s)
  | some storeValues =>
    let storeValues := values.foldl
      (fun storeValues value => (eraseFirst value storeValues).getD storeValues) storeValues
    (true, ⟨s.store.insert key storeValues⟩)

def getValues (s : KeyValueStore) (key : Str) : Except StdException (List Int32) :=
  match s.find key with
  | none => .error (.runtimeError (str "Key " ++ key ++ str " not found"))
  | some values => .ok values

/-- The pairs `getAll` is iterated over, in the order of the keys. -/
def getAll (s : KeyValueStore) : List (Str × List Int32) := s.store.toList

def getCopy (s : KeyValueStore) : KeyValueStore :=
  s.getAll.foldl (fun copy pair => copy.insertMany pair.1 pair.2) ∅

/-! ## 2. What a lookup finds afterwards -/

/-- **Two stores with the same lookups are the same store.** -/
theorem ext_find {s t : KeyValueStore} (h : ∀ key, s.find key = t.find key) : s = t :=
  KeyValueStore.ext (Std.ExtTreeMap.ext_getElem? h)

@[simp] theorem find_empty (key : Str) : (∅ : KeyValueStore).find key = none :=
  Std.ExtTreeMap.getElem?_empty

@[simp] theorem find_mk_insert (m : Map Str (List Int32)) (key key' : Str) (vs : List Int32) :
    (KeyValueStore.mk (m.insert key vs)).find key'
      = if key = key' then some vs else (KeyValueStore.mk m).find key' := by
  simp [find, Std.ExtTreeMap.getElem?_insert]

theorem find_ensureKey (s : KeyValueStore) (key key' : Str) :
    (s.ensureKey key).find key' = if key = key' then some (s.values key) else s.find key' := by
  unfold ensureKey values
  by_cases hkey : key = key'
  · subst hkey
    cases hf : s.find key with
    | none => simp
    | some vs => simp [hf]
  · by_cases hf : s.find key = none
    · rw [if_pos hf, find_mk_insert, if_neg hkey, if_neg hkey]
    · rw [if_neg hf, if_neg hkey]

theorem find_insertMany (s : KeyValueStore) (key key' : Str) (vs : List Int32) :
    (s.insertMany key vs).find key'
      = if key = key' then some (s.values key ++ vs) else s.find key' := by
  have hmodify : (s.insertMany key vs).find key'
      = if key = key' then ((s.ensureKey key).find key).map (· ++ vs)
        else (s.ensureKey key).find key' := by
    simp [insertMany, find, Std.ExtTreeMap.getElem?_modify]
  rw [hmodify, find_ensureKey, find_ensureKey]
  split <;> simp

theorem find_insert (s : KeyValueStore) (key key' : Str) (value : Int32) :
    (s.insert key value).find key'
      = if key = key' then some (s.values key ++ [value]) else s.find key' :=
  find_insertMany s key key' [value]

/-- **The erasing loop is `List.erase`**, and reports whether the value was there. -/
theorem eraseFirst_eq (value : Int32) (vs : List Int32) :
    eraseFirst value vs = if value ∈ vs then some (vs.erase value) else none := by
  induction vs with
  | nil => simp [eraseFirst]
  | cons it rest ih =>
    unfold eraseFirst
    by_cases h : it = value
    · subst h
      simp
    · have h' : ¬ value = it := fun he => h he.symm
      rw [if_neg h, ih, List.erase_cons_tail (by simpa using h)]
      by_cases hmem : value ∈ rest
      · simp [hmem]
      · simp [hmem, h']

theorem eraseFirst_getD (value : Int32) (vs : List Int32) :
    (eraseFirst value vs).getD vs = vs.erase value := by
  rw [eraseFirst_eq]
  split
  · rfl
  · rename_i h
    exact (List.erase_of_not_mem h).symm

theorem find_removeValue (s : KeyValueStore) (key key' : Str) (value : Int32) :
    (s.removeValue key value).2.find key'
      = if key = key' then (s.find key).map (·.erase value) else s.find key' := by
  by_cases hkey : key = key'
  · subst hkey
    rw [if_pos rfl, removeValue]
    cases hf : s.find key with
    | none => simp [hf]
    | some vs =>
      have herase := eraseFirst_getD value vs
      cases he : eraseFirst value vs with
      | none => rw [he, Option.getD_none] at herase; simp [hf, he, ← herase]
      | some vs' => rw [he, Option.getD_some] at herase; simp [he, herase]
  · rw [if_neg hkey, removeValue]
    cases hf : s.find key with
    | none => rfl
    | some vs =>
      cases he : eraseFirst value vs with
      | none => simp [he]
      | some vs' => simp [he, hkey]

theorem find_removeKey (s : KeyValueStore) (key key' : Str) :
    (s.removeKey key).2.find key' = if key = key' then none else s.find key' := by
  simp [removeKey, find, Std.ExtTreeMap.getElem?_erase]

theorem find_removeMany (s : KeyValueStore) (key key' : Str) (vs : List Int32) :
    (s.removeMany key vs).2.find key'
      = if key = key' then (s.find key).map (·.diff vs) else s.find key' := by
  have hloop : (fun (ws : List Int32) v => (eraseFirst v ws).getD ws) = List.erase :=
    funext fun ws => funext fun v => eraseFirst_getD v ws
  unfold removeMany
  cases hf : s.find key with
  | none =>
    simp only [Option.map_none]
    split
    · rename_i hkey; rw [← hkey]; exact hf
    · rfl
  | some ws => simp [hloop, List.diff_eq_foldl]

/-! The same for the values under a key, where an absent key and one without values agree. -/

theorem values_insertMany (s : KeyValueStore) (key key' : Str) (vs : List Int32) :
    (s.insertMany key vs).values key'
      = if key = key' then s.values key ++ vs else s.values key' := by
  rw [values, find_insertMany]
  split <;> rfl

theorem values_insert (s : KeyValueStore) (key key' : Str) (value : Int32) :
    (s.insert key value).values key'
      = if key = key' then s.values key ++ [value] else s.values key' :=
  values_insertMany s key key' [value]

theorem values_removeValue (s : KeyValueStore) (key key' : Str) (value : Int32) :
    (s.removeValue key value).2.values key'
      = if key = key' then (s.values key).erase value else s.values key' := by
  rw [values, find_removeValue, values]
  split
  · cases s.find key <;> rfl
  · rfl

theorem values_removeKey (s : KeyValueStore) (key key' : Str) :
    (s.removeKey key).2.values key' = if key = key' then [] else s.values key' := by
  rw [values, find_removeKey]
  split <;> rfl

theorem values_removeMany (s : KeyValueStore) (key key' : Str) (vs : List Int32) :
    (s.removeMany key vs).2.values key'
      = if key = key' then (s.values key).diff vs else s.values key' := by
  rw [values, find_removeMany, values]
  split
  · cases s.find key with
    | none => exact (List.nil_diff vs).symm
    | some us => rfl
  · rfl

/-! ## 3. Building a store pair by pair -/

/-- What `insertMany` of pairs with distinct keys leaves: each pair under its key. -/
theorem find_foldl_insertMany {l : List (Str × List Int32)} {s : KeyValueStore}
    (hnodup : (l.map Prod.fst).Nodup) (hfresh : ∀ p ∈ l, s.find p.1 = none) (key : Str) :
    (l.foldl (fun s p => s.insertMany p.1 p.2) s).find key
      = ((l.find? (·.1 = key)).map Prod.snd).or (s.find key) := by
  induction l generalizing s with
  | nil => simp
  | cons p l ih =>
    rw [List.map_cons, List.nodup_cons] at hnodup
    have hfresh' : ∀ q ∈ l, (s.insertMany p.1 p.2).find q.1 = none := by
      intro q hq
      have hne : p.1 ≠ q.1 := fun he => hnodup.1 (he ▸ List.mem_map_of_mem hq)
      rw [find_insertMany, if_neg hne]
      exact hfresh q (List.mem_cons_of_mem _ hq)
    rw [List.foldl_cons, ih hnodup.2 hfresh', find_insertMany, values,
      hfresh p List.mem_cons_self]
    by_cases hkey : p.1 = key
    · have hnone : l.find? (·.1 = key) = none := by
        refine List.find?_eq_none.mpr ?_
        intro q hq
        simpa using fun he : q.1 = key =>
          hnodup.1 ((hkey.trans he.symm) ▸ List.mem_map_of_mem hq)
      simp [hkey, hnone]
    · simp [hkey]

/-- The pairs of a store are its lookups. -/
theorem mem_getAll {s : KeyValueStore} {key : Str} {vs : List Int32} :
    (key, vs) ∈ s.getAll ↔ s.find key = some vs :=
  Std.ExtTreeMap.mem_toList_iff_getElem?_eq_some

/-- No key comes twice. -/
theorem nodup_map_fst_getAll (s : KeyValueStore) : (s.getAll.map Prod.fst).Nodup := by
  rw [getAll, Std.ExtTreeMap.map_fst_toList_eq_keys]
  exact Std.ExtTreeMap.nodup_keys

theorem find?_getAll (s : KeyValueStore) (key : Str) :
    (s.getAll.find? (·.1 = key)).map Prod.snd = s.find key := by
  cases hp : s.getAll.find? (·.1 = key) with
  | none =>
    cases hf : s.find key with
    | none => rfl
    | some vs =>
      have hne := List.find?_eq_none.mp hp (key, vs) (mem_getAll.mpr hf)
      exact absurd hne (by simp)
  | some p =>
    obtain ⟨k, vs⟩ := p
    have hk : k = key := by simpa using List.find?_some hp
    have hmem : (k, vs) ∈ s.getAll := List.mem_of_find?_eq_some hp
    rw [← hk, mem_getAll.mp hmem]
    rfl

/-- **Inserting a store's pairs one after the other rebuilds the store.** -/
theorem foldl_insertMany_getAll (s : KeyValueStore) :
    s.getAll.foldl (fun t p => t.insertMany p.1 p.2) ∅ = s := by
  refine ext_find ?_
  intro key
  rw [find_foldl_insertMany s.nodup_map_fst_getAll (fun p _ => find_empty p.1), find?_getAll,
    find_empty, Option.or_none]

/-- `getCopy` copies. -/
theorem getCopy_eq (s : KeyValueStore) : s.getCopy = s := foldl_insertMany_getAll s

end KeyValueStore

end ReplicatedMapReduce
