/-
# Removing several values at once

`removeMany` runs the erasing loop of `removeValue` once for each requested value, on the list it
is changing meanwhile.  A request takes the first value that is equal to it and still there, so
what goes does not depend on the order of the requests: what stays is the difference of two
multisets, in the order in which it was there before (`removeMany_spec`).

The server has no use for `removeMany`.  A client who wants several values removed sends an entry
for each of them, and that comes to the same (`removeMany_eq_removeEach`).
-/
import ReplicatedMapReduce.ValueOrder

namespace ReplicatedMapReduce

open Runs

/-! ## 1. One value after the other -/

namespace KeyValueStore

/-- `removeValue` for each of the values, in order. -/
def removeEach (s : KeyValueStore) (key : Str) (vs : List Int32) : KeyValueStore :=
  vs.foldl (fun s value => (s.removeValue key value).2) s

theorem find_removeEach (s : KeyValueStore) (key key' : Str) (vs : List Int32) :
    (s.removeEach key vs).find key'
      = if key = key' then (s.find key).map (·.diff vs) else s.find key' := by
  induction vs generalizing s with
  | nil =>
    split
    · rename_i hkey
      rw [hkey]
      exact Option.map_id'.symm
    · rfl
  | cons v vs ih =>
    have hstep : s.removeEach key (v :: vs) = (s.removeValue key v).2.removeEach key vs := rfl
    rw [hstep, ih, find_removeValue, find_removeValue, if_pos rfl, Option.map_map]
    split
    · refine congrArg (fun f => (s.find key).map f) ?_
      funext ws
      exact (List.diff_cons ws vs v).symm
    · rfl

/-- **The nested loop is the single one, once for each value.** -/
theorem removeMany_eq_removeEach (s : KeyValueStore) (key : Str) (vs : List Int32) :
    (s.removeMany key vs).2 = s.removeEach key vs := by
  refine ext_find ?_
  intro key'
  rw [find_removeMany, find_removeEach]

/-- Only the key decides what is returned. -/
theorem removeMany_fst (s : KeyValueStore) (key : Str) (vs : List Int32) :
    (s.removeMany key vs).1 = (s.find key).isSome := by
  unfold removeMany
  cases s.find key <;> rfl

/-- **The order of the requests is lost.** -/
theorem removeMany_perm (s : KeyValueStore) (key : Str) {vs ws : List Int32} (h : vs.Perm ws) :
    s.removeMany key vs = s.removeMany key ws := by
  refine Prod.ext ?_ (ext_find fun key' => ?_)
  · rw [removeMany_fst, removeMany_fst]
  · have hdiff : (fun us : List Int32 => us.diff vs) = fun us => us.diff ws :=
      funext fun us => h.diff_left us
    rw [find_removeMany, find_removeMany, hdiff]

end KeyValueStore

/-! ## 2. As multisets -/

namespace Bags

variable {κ α : Type*} [DecidableEq κ]

def addAll (b : Bags κ α) (key : κ) (values : Multiset α) : Bags κ α :=
  Function.update b key (b key + values)

def removeAll [DecidableEq α] (b : Bags κ α) (key : κ) (values : Multiset α) : Bags κ α :=
  Function.update b key (b key - values)

/-- **What was put in can be taken out again.** -/
theorem removeAll_addAll [DecidableEq α] (b : Bags κ α) (key : κ) (values : Multiset α) :
    (b.addAll key values).removeAll key values = b := by
  rw [removeAll, addAll, Function.update_self, Function.update_idem,
    Multiset.add_sub_cancel_right, Function.update_eq_self]

end Bags

theorem bags_insertMany (s : KeyValueStore) (key : Str) (vs : List Int32) :
    (s.insertMany key vs).bags = s.bags.addAll key ↑vs := by
  rw [bags_eq_update fun key' => s.values_insertMany key key' vs, ← Multiset.coe_add, Bags.addAll]
  rfl

/-- **`removeMany` is the difference of two multisets.** -/
theorem bags_removeMany (s : KeyValueStore) (key : Str) (vs : List Int32) :
    (s.removeMany key vs).2.bags = s.bags.removeAll key ↑vs := by
  rw [bags_eq_update fun key' => s.values_removeMany key key' vs, ← Multiset.coe_sub,
    Bags.removeAll]
  rfl

/-! ## 3. What `removeMany` does -/

/-- What the removal of the values under a key makes of a store, and what it returns. -/
structure Removal (s : KeyValueStore) (key : Str) (vs : List Int32) (removed : Bool)
    (t : KeyValueStore) : Prop where
  each : t = s.removeEach key vs
  returns : removed = true ↔ s.find key ≠ none
  others : ∀ key', key' ≠ key → t.find key' = s.find key'
  present : t.find key ≠ none ↔ s.find key ≠ none
  count : ∀ x, (t.values key).count x = (s.values key).count x - vs.count x
  order : (t.values key).Sublist (s.values key)

theorem removal_removeMany (s : KeyValueStore) (key : Str) (vs : List Int32) :
    Removal s key vs (s.removeMany key vs).1 (s.removeMany key vs).2 where
  each := s.removeMany_eq_removeEach key vs
  returns := by
    rw [KeyValueStore.removeMany_fst, Option.isSome_iff_ne_none]
  others key' hne := by
    rw [KeyValueStore.find_removeMany, if_neg hne.symm]
  present := by
    rw [KeyValueStore.find_removeMany, if_pos rfl, ne_eq, Option.map_eq_none_iff]
  count x := by
    rw [KeyValueStore.values_removeMany, if_pos rfl, List.count_diff]
  order := by
    rw [KeyValueStore.values_removeMany, if_pos rfl]
    exact List.diff_sublist _ _

/-- **Removal by multiplicity.**  For every store, key and list of values, `removeMany` leaves the
store that `removeValue` leaves after each of the values, in which every value is there as often
as before less the number of requests for it; the order of the requests does not matter; and
removing what was inserted restores the bags. -/
theorem removeMany_spec (s : KeyValueStore) (key : Str) (vs : List Int32) :
    Removal s key vs (s.removeMany key vs).1 (s.removeMany key vs).2 ∧
    (∀ ws, vs.Perm ws → s.removeMany key ws = s.removeMany key vs) ∧
    SameBags ((s.insertMany key vs).removeMany key vs).2 s := by
  refine ⟨removal_removeMany s key vs, fun ws hperm => ?_, ?_⟩
  · exact s.removeMany_perm key hperm.symm
  · rw [sameBags_iff, bags_removeMany, bags_insertMany, Bags.removeAll_addAll]

end ReplicatedMapReduce
