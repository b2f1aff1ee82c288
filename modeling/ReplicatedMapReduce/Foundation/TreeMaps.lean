/-
# Facts about ordered maps

`Std.ExtTreeMap` is a `std::map`: extensional, and enumerated in the order of its keys.  Seven
things are needed of it that its library does not say directly.

* Filling a map from a list of keys, the value depending on the key alone
  (`getElem?_foldl_insert`).
* What an insertion does to the list of pairs, up to order (`toList_insert_perm`), and from it
  what it does to a sum over the pairs (`sum_toList_insert`).
* Erasing a list of keys (`getElem?_foldl_erase`).
* Which keys are among the first ones of the enumeration, said by counting the greater keys
  (`mem_take_keys_iff`): erasing all but the last `n` keys keeps exactly those with fewer than
  `n` greater ones.  Inserting a key does not change how many are greater than it.
* Which pair is the last one (`of_getLast?_toList`).
* What an iterator from `lower_bound` on goes through (`mem_keysFrom`), what is left when all of
  that is erased (`getElem?_erase_keysFrom`), which key is the first one
  that meets a condition (`find?_keys_eq_some`), and how many keys there are (`size_eq_length`).
* What an iterator from `begin` on goes through while a condition holds that smaller keys meet as
  well (`mem_pairsWhile`), and which pair of these is the last one (`of_getLast?_pairsWhile`).
-/
import Mathlib.Algebra.Order.Ring.Nat
import Mathlib.Algebra.BigOperators.Group.List.Basic
import Mathlib.Data.List.Basic
import Mathlib.Data.List.TakeWhile

namespace TreeMaps

open Std

variable {κ ν : Type} [Ord κ] [TransOrd κ] [LawfulEqOrd κ]

/-! ## 1. Filling and erasing along a list -/

/-- What is found after one insertion, with the keys compared for equality. -/
theorem getElem?_insert_eq [DecidableEq κ] (m : ExtTreeMap κ ν) (k : κ) (v : ν) (key : κ) :
    (m.insert k v)[key]? = if key = k then some v else m[key]? := by
  rw [ExtTreeMap.getElem?_insert]
  by_cases hk : key = k
  · rw [if_pos hk, if_pos (LawfulEqCmp.compare_eq_iff_eq.mpr hk.symm)]
  · rw [if_neg hk, if_neg fun h => hk (LawfulEqCmp.compare_eq_iff_eq.mp h).symm]

theorem getElem?_erase_eq [DecidableEq κ] (m : ExtTreeMap κ ν) (k key : κ) :
    (m.erase k)[key]? = if key = k then none else m[key]? := by
  rw [ExtTreeMap.getElem?_erase]
  by_cases hk : key = k
  · rw [if_pos hk, if_pos (LawfulEqCmp.compare_eq_iff_eq.mpr hk.symm)]
  · rw [if_neg hk, if_neg fun h => hk (LawfulEqCmp.compare_eq_iff_eq.mp h).symm]

theorem getElem?_foldl_insert [DecidableEq κ] (f : κ → ν) (m : ExtTreeMap κ ν) (keys : List κ)
    (k : κ) :
    (keys.foldl (fun r key => r.insert key (f key)) m)[k]?
      = if k ∈ keys then some (f k) else m[k]? := by
  induction keys generalizing m with
  | nil => simp
  | cons key keys ih =>
    rw [List.foldl_cons, ih, ExtTreeMap.getElem?_insert]
    by_cases hkeys : k ∈ keys
    · simp [hkeys]
    · by_cases hk : key = k
      · subst hk
        simp [hkeys]
      · have hk' : ¬ k = key := fun h => hk h.symm
        simp [hkeys, hk, hk']

theorem getElem?_foldl_erase [DecidableEq κ] (m : ExtTreeMap κ ν) (keys : List κ) (k : κ) :
    (keys.foldl (fun r key => r.erase key) m)[k]? = if k ∈ keys then none else m[k]? := by
  induction keys generalizing m with
  | nil => simp
  | cons key keys ih =>
    rw [List.foldl_cons, ih, ExtTreeMap.getElem?_erase]
    by_cases hkeys : k ∈ keys
    · simp [hkeys]
    · by_cases hk : key = k
      · subst hk
        simp [hkeys]
      · have hk' : ¬ k = key := fun h => hk h.symm
        simp [hkeys, hk, hk']

/-! ## 2. The pairs after an insertion -/

omit [LawfulEqOrd κ] in
theorem mem_of_eq_some {m : ExtTreeMap κ ν} {k : κ} {v : ν} (h : m[k]? = some v) : k ∈ m := by
  rw [ExtTreeMap.mem_iff_isSome_getElem?, h]
  rfl

theorem nodup_toList (m : ExtTreeMap κ ν) : m.toList.Nodup := by
  refine m.distinct_keys_toList.imp fun h he => h ?_
  rw [he]
  exact ReflCmp.compare_self

theorem toList_insert_perm [DecidableEq κ] (m : ExtTreeMap κ ν) (k : κ) (v : ν) :
    (m.insert k v).toList.Perm ((k, v) :: m.toList.filter (·.1 ≠ k)) := by
  have hnodup : ((k, v) :: m.toList.filter (·.1 ≠ k)).Nodup :=
    List.nodup_cons.mpr ⟨by simp, (nodup_toList m).filter _⟩
  refine (List.perm_ext_iff_of_nodup (nodup_toList _) hnodup).mpr ?_
  intro p
  obtain ⟨key, w⟩ := p
  rw [ExtTreeMap.mem_toList_iff_getElem?_eq_some, ExtTreeMap.getElem?_insert, List.mem_cons,
    List.mem_filter, ExtTreeMap.mem_toList_iff_getElem?_eq_some]
  by_cases hk : k = key
  · subst hk
    simp [eq_comm]
  · have hk' : ¬ key = k := fun h => hk h.symm
    simp [hk, hk']

/-- **A sum over the pairs, before and after an insertion.** -/
theorem sum_toList_insert [DecidableEq κ] (f : κ × ν → ℕ) (m : ExtTreeMap κ ν) (k : κ) (v : ν) :
    ((m.insert k v).toList.map f).sum + (m[k]?.elim 0 fun w => f (k, w))
      = (m.toList.map f).sum + f (k, v) := by
  have hinsert : ∀ w, ((m.insert k w).toList.map f).sum
      = f (k, w) + ((m.toList.filter (·.1 ≠ k)).map f).sum := by
    intro w
    rw [((toList_insert_perm m k w).map f).sum_eq, List.map_cons, List.sum_cons]
  cases hm : m[k]? with
  | none =>
    have hall : m.toList.filter (·.1 ≠ k) = m.toList := by
      refine List.filter_eq_self.mpr ?_
      intro p hp
      have hp' : m[p.1]? = some p.2 := ExtTreeMap.mem_toList_iff_getElem?_eq_some.mp hp
      refine decide_eq_true ?_
      intro he
      rw [he, hm] at hp'
      exact absurd hp' (by simp)
    rw [hinsert, hall, Option.elim_none]
    omega
  | some w =>
    have hself : m.insert k w = m := by
      refine ExtTreeMap.ext_getElem? ?_
      intro key
      rw [ExtTreeMap.getElem?_insert]
      by_cases hk : k = key
      · subst hk
        simp [hm]
      · simp [hk]
    have hm' := hinsert w
    rw [hself] at hm'
    rw [hinsert, hm', Option.elim_some]
    omega

/-! ## 3. The first keys of the enumeration -/

/-- The greater keys of a map. -/
def keysAbove (m : ExtTreeMap κ ν) (k : κ) : List κ :=
  m.keys.filter fun key => compare k key == .lt

/-- **A key is among all but the last `n` exactly when `n` keys are greater.** -/
theorem mem_take_keys_iff {m : ExtTreeMap κ ν} {k : κ} (hk : k ∈ m.keys) (n : ℕ) :
    k ∈ m.keys.take (m.keys.length - n) ↔ n ≤ (keysAbove m k).length := by
  obtain ⟨below, above, hsplit⟩ := List.append_of_mem hk
  have hordered : (below ++ k :: above).Pairwise fun a b => compare a b = .lt :=
    hsplit ▸ m.ordered_keys
  obtain ⟨-, habove, hbelow⟩ := List.pairwise_append.mp hordered
  have hkeys : keysAbove m k = above := by
    have h1 : below.filter (fun key => compare k key == .lt) = [] := by
      refine List.filter_eq_nil_iff.mpr ?_
      intro key hkey
      have hlt : compare key k = .lt := hbelow key hkey k List.mem_cons_self
      have hgt : compare k key = .gt := OrientedCmp.gt_of_lt hlt
      simp [hgt]
    have h2 : above.filter (fun key => compare k key == .lt) = above := by
      refine List.filter_eq_self.mpr ?_
      intro key hkey
      simp [(List.pairwise_cons.mp habove).1 key hkey]
    have h3 : compare k k = .eq := ReflCmp.compare_self
    rw [keysAbove, hsplit, List.filter_append, List.filter_cons, h1, h2, h3]
    rfl
  have hnot : k ∉ below := fun h => by
    have hlt : compare k k = .lt := hbelow k h k List.mem_cons_self
    exact absurd (hlt.symm.trans (ReflCmp.compare_self : compare k k = .eq)) (by simp)
  rw [hkeys, hsplit, List.length_append, List.length_cons]
  constructor
  · intro hmem
    by_contra hlt
    have htake : (below ++ k :: above).take (below.length + (above.length + 1) - n)
        = below.take (below.length + (above.length + 1) - n) := by
      rw [List.take_append, show below.length + (above.length + 1) - n - below.length = 0 by omega,
        List.take_zero, List.append_nil]
    rw [htake] at hmem
    exact hnot (List.mem_of_mem_take hmem)
  · intro hle
    obtain ⟨j, hj⟩ : ∃ j, below.length + (above.length + 1) - n = below.length + (j + 1) :=
      ⟨above.length - n, by omega⟩
    rw [hj, List.take_length_add_append, List.take_succ_cons]
    exact List.mem_append_right _ List.mem_cons_self

theorem mem_keysAbove {m : ExtTreeMap κ ν} {k key : κ} :
    key ∈ keysAbove m k ↔ key ∈ m ∧ compare k key = .lt := by
  rw [keysAbove, List.mem_filter, ExtTreeMap.mem_keys, beq_iff_eq]

/-- Which keys are greater than `k` does not depend on whether `k` is there. -/
theorem length_keysAbove_insert_self (m : ExtTreeMap κ ν) (k : κ) (v : ν) :
    (keysAbove (m.insert k v) k).length = (keysAbove m k).length := by
  have hnodup : ∀ m' : ExtTreeMap κ ν, (keysAbove m' k).Nodup := fun m' =>
    (List.filter_sublist).nodup ExtTreeMap.nodup_keys
  refine ((List.perm_ext_iff_of_nodup (hnodup _) (hnodup _)).mpr fun key => ?_).length_eq
  rw [mem_keysAbove, mem_keysAbove, ExtTreeMap.mem_insert]
  constructor
  · rintro ⟨heq | hmem, hlt⟩
    · exact absurd (heq.symm.trans hlt) (by simp)
    · exact ⟨hmem, hlt⟩
  · rintro ⟨hmem, hlt⟩
    exact ⟨Or.inr hmem, hlt⟩

/-- The last pair of the enumeration is the one under the greatest key. -/
theorem of_getLast?_toList {m : ExtTreeMap κ ν} {k : κ} {v : ν}
    (h : m.toList.getLast? = some (k, v)) :
    m[k]? = some v ∧ ∀ key ∈ m, key = k ∨ compare key k = .lt := by
  refine ⟨ExtTreeMap.mem_toList_iff_getElem?_eq_some.mp (List.mem_of_getLast? h), ?_⟩
  intro key hkey
  obtain ⟨front, hfront⟩ := List.getLast?_eq_some_iff.mp h
  have hordered : (front ++ [(k, v)]).Pairwise fun p q => compare p.1 q.1 = .lt :=
    hfront ▸ m.ordered_keys_toList
  have hmem : (key, m[key]) ∈ front ++ [(k, v)] := by
    rw [← hfront, ExtTreeMap.mem_toList_iff_getElem?_eq_some]
    exact ExtTreeMap.getElem?_eq_some_getElem hkey
  rcases List.mem_append.mp hmem with hin | hlast
  · exact Or.inr ((List.pairwise_append.mp hordered).2.2 _ hin _ (List.mem_singleton_self (k, v)))
  · exact Or.inl (congrArg Prod.fst (List.mem_singleton.mp hlast))

/-- The first pair of the enumeration is the one under the least key. -/
theorem of_head?_toList {m : ExtTreeMap κ ν} {k : κ} {v : ν}
    (h : m.toList.head? = some (k, v)) :
    m[k]? = some v ∧ ∀ key ∈ m, key = k ∨ compare k key = .lt := by
  refine ⟨ExtTreeMap.mem_toList_iff_getElem?_eq_some.mp (List.mem_of_head? h), ?_⟩
  intro key hkey
  obtain ⟨rest, hrest⟩ := List.head?_eq_some_iff.mp h
  have hordered : ((k, v) :: rest).Pairwise fun p q => compare p.1 q.1 = .lt :=
    hrest ▸ m.ordered_keys_toList
  have hmem : (key, m[key]) ∈ (k, v) :: rest := by
    rw [← hrest, ExtTreeMap.mem_toList_iff_getElem?_eq_some]
    exact ExtTreeMap.getElem?_eq_some_getElem hkey
  rcases List.mem_cons.mp hmem with hfirst | hin
  · exact Or.inl (congrArg Prod.fst hfirst)
  · exact Or.inr ((List.pairwise_cons.mp hordered).1 _ hin)

/-! ## 4. Iterators -/

/-- The keys from `lower_bound(k)` on. -/
def keysFrom (m : ExtTreeMap κ ν) (k : κ) : List κ :=
  m.keys.dropWhile fun key => compare key k == .lt

omit [TransOrd κ] [LawfulEqOrd κ] [Ord κ] in
/-- In an ordered list, what is dropped at the front would be dropped everywhere. -/
theorem dropWhile_eq_filter {r : κ → κ → Prop} {p : κ → Bool} {l : List κ}
    (hordered : l.Pairwise r) (hdown : ∀ a b, r a b → p b = true → p a = true) :
    l.dropWhile p = l.filter fun a => !p a := by
  induction l with
  | nil => rfl
  | cons a l ih =>
    obtain ⟨ha, hl⟩ := List.pairwise_cons.mp hordered
    cases hpa : p a with
    | true =>
      rw [List.dropWhile_cons_of_pos hpa, List.filter_cons_of_neg (by simp [hpa]), ih hl]
    | false =>
      have hall : ∀ b ∈ l, (!p b) = true := by
        intro b hb
        by_contra hpb
        have hpb' : p b = true := by simpa using hpb
        rw [hdown a b (ha b hb) hpb'] at hpa
        exact absurd hpa (by simp)
      rw [List.dropWhile_cons_of_neg (by simp [hpa]), List.filter_cons_of_pos (by simp [hpa]),
        List.filter_eq_self.mpr hall]

theorem mem_keysFrom {m : ExtTreeMap κ ν} {k key : κ} :
    key ∈ keysFrom m k ↔ key ∈ m ∧ compare key k ≠ .lt := by
  have hdown : ∀ a b : κ, compare a b = .lt → (compare b k == .lt) = true →
      (compare a k == .lt) = true := by
    intro a b hab hbk
    rw [beq_iff_eq] at hbk ⊢
    exact TransCmp.lt_trans hab hbk
  rw [keysFrom, dropWhile_eq_filter m.ordered_keys hdown, List.mem_filter, ExtTreeMap.mem_keys]
  simp

/-- Everything from `lower_bound(k)` on is erased. -/
theorem getElem?_erase_keysFrom [DecidableEq κ] (m : ExtTreeMap κ ν) (k key : κ) :
    ((keysFrom m k).foldl (fun r key => r.erase key) m)[key]?
      = if compare key k = .lt then m[key]? else none := by
  rw [getElem?_foldl_erase]
  by_cases hlt : compare key k = .lt
  · rw [if_pos hlt, if_neg fun h => (mem_keysFrom.mp h).2 hlt]
  · rw [if_neg hlt]
    split
    · rfl
    · rename_i hmem
      exact ExtTreeMap.getElem?_eq_none fun h => hmem (mem_keysFrom.mpr ⟨h, hlt⟩)

/-- The first key that meets a condition is less than all others that do. -/
theorem find?_keys_eq_some {m : ExtTreeMap κ ν} {p : κ → Bool} {k : κ} :
    m.keys.find? p = some k ↔
      k ∈ m ∧ p k = true ∧ ∀ key ∈ m, p key = true → key = k ∨ compare k key = .lt := by
  constructor
  · intro h
    obtain ⟨hpk, front, rest, hkeys, hfront⟩ := List.find?_eq_some_iff_append.mp h
    have hmem : ∀ key, key ∈ m ↔ key ∈ front ++ k :: rest := by
      intro key
      rw [← hkeys, ExtTreeMap.mem_keys]
    refine ⟨(hmem k).mpr (by simp), hpk, fun key hkey hp => ?_⟩
    have hordered : (front ++ k :: rest).Pairwise fun a b => compare a b = .lt :=
      hkeys ▸ m.ordered_keys
    rcases List.mem_append.mp ((hmem key).mp hkey) with hin | hin
    · exact absurd hp (by simpa using hfront key hin)
    · rcases List.mem_cons.mp hin with rfl | hin
      · exact Or.inl rfl
      · exact Or.inr ((List.pairwise_cons.mp (List.pairwise_append.mp hordered).2.1).1 key hin)
  · rintro ⟨hk, hpk, hleast⟩
    have hsome : (m.keys.find? p).isSome := by
      rw [List.find?_isSome]
      exact ⟨k, ExtTreeMap.mem_keys.mpr hk, hpk⟩
    obtain ⟨k', hk'⟩ := Option.isSome_iff_exists.mp hsome
    rw [hk']
    obtain ⟨hpk', front, rest, hkeys, hfront⟩ := List.find?_eq_some_iff_append.mp hk'
    have hmem' : k' ∈ m := by
      rw [← ExtTreeMap.mem_keys, hkeys]
      simp
    rcases hleast k' hmem' hpk' with heq | hlt
    · rw [heq]
    · -- then `k` comes before `k'`, and would have been found first
      have hordered : (front ++ k' :: rest).Pairwise fun a b => compare a b = .lt :=
        hkeys ▸ m.ordered_keys
      have hin : k ∈ front ++ k' :: rest := by
        rw [← hkeys, ExtTreeMap.mem_keys]
        exact hk
      rcases List.mem_append.mp hin with hin | hin
      · exact absurd hpk (by simpa using hfront k hin)
      · rcases List.mem_cons.mp hin with rfl | hin
        · rfl
        · have hgt : compare k' k = .lt :=
            (List.pairwise_cons.mp (List.pairwise_append.mp hordered).2.1).1 k hin
          rw [OrientedCmp.gt_of_lt hlt] at hgt
          exact absurd hgt (by simp)

/-- The pairs from `begin()` on, as long as their keys meet a condition. -/
def pairsWhile (m : ExtTreeMap κ ν) (p : κ → Bool) : List (κ × ν) :=
  m.toList.takeWhile fun kv => p kv.1

section PairsWhile

variable {m : ExtTreeMap κ ν} {p : κ → Bool}

/-- If smaller keys meet the condition as well, these are all the pairs whose keys meet it. -/
theorem mem_pairsWhile (hdown : ∀ a b, compare a b = .lt → p b = true → p a = true)
    {kv : κ × ν} : kv ∈ pairsWhile m p ↔ m[kv.1]? = some kv.2 ∧ p kv.1 = true := by
  have hmem : ∀ {q}, q ∈ m.toList ↔ m[q.1]? = some q.2 := by
    rintro ⟨k, v⟩
    exact ExtTreeMap.mem_toList_iff_getElem?_eq_some
  rw [← hmem, pairsWhile]
  have hsplit := List.takeWhile_append_dropWhile (p := fun q : κ × ν => p q.1) (l := m.toList)
  have hordered : (m.toList.takeWhile (fun q => p q.1) ++
      m.toList.dropWhile fun q => p q.1).Pairwise fun a b => compare a.1 b.1 = .lt := by
    rw [hsplit]
    exact m.ordered_keys_toList
  constructor
  · intro h
    exact ⟨(List.takeWhile_sublist _).mem h,
      @List.mem_takeWhile_imp _ (fun q : κ × ν => p q.1) _ _ h⟩
  · rintro ⟨h, hp⟩
    rw [← hsplit, List.mem_append] at h
    refine h.resolve_right fun hrest => ?_
    -- the first pair of the rest has a key that does not meet the condition
    cases hcase : m.toList.dropWhile fun q => p q.1 with
    | nil =>
      rw [hcase] at hrest
      exact absurd hrest List.not_mem_nil
    | cons q rest =>
      have hnot : ¬ p q.1 = true := by
        have hhead := List.head?_dropWhile_not (fun q : κ × ν => p q.1) m.toList
        rw [hcase] at hhead
        simpa using hhead
      rw [hcase] at hrest hordered
      rcases List.mem_cons.mp hrest with rfl | hrest
      · exact hnot hp
      · exact hnot (hdown _ _ ((List.pairwise_cons.mp
          (List.pairwise_append.mp hordered).2.1).1 kv hrest) hp)

/-- The last of these pairs is under the greatest key that meets the condition. -/
theorem of_getLast?_pairsWhile (hdown : ∀ a b, compare a b = .lt → p b = true → p a = true)
    {k : κ} {v : ν} (h : (pairsWhile m p).getLast? = some (k, v)) :
    m[k]? = some v ∧ p k = true ∧ ∀ key ∈ m, p key = true → key = k ∨ compare key k = .lt := by
  obtain ⟨hk, hp⟩ := (mem_pairsWhile hdown).mp (List.mem_of_getLast? h)
  refine ⟨hk, hp, fun key hkey hpkey => ?_⟩
  have hmem : (key, m[key]) ∈ pairsWhile m p :=
    (mem_pairsWhile hdown).mpr ⟨ExtTreeMap.getElem?_eq_some_getElem hkey, hpkey⟩
  obtain ⟨front, hfront⟩ := List.getLast?_eq_some_iff.mp h
  have hordered : (front ++ [(k, v)]).Pairwise fun p q => compare p.1 q.1 = .lt := by
    rw [← hfront]
    exact m.ordered_keys_toList.sublist (List.takeWhile_sublist _)
  rw [hfront] at hmem
  rcases List.mem_append.mp hmem with hin | hlast
  · exact Or.inr ((List.pairwise_append.mp hordered).2.2 _ hin _ (List.mem_singleton_self (k, v)))
  · exact Or.inl (congrArg Prod.fst (List.mem_singleton.mp hlast))

end PairsWhile

/-- A map has as many entries as any list of its keys without repetitions. -/
theorem size_eq_length {m : ExtTreeMap κ ν} {l : List κ} (hnodup : l.Nodup)
    (h : ∀ k, k ∈ m ↔ k ∈ l) : m.size = l.length := by
  rw [← ExtTreeMap.length_keys]
  refine ((List.perm_ext_iff_of_nodup ExtTreeMap.nodup_keys hnodup).mpr ?_).length_eq
  intro k
  rw [ExtTreeMap.mem_keys, h]

end TreeMaps
