/-
# The order of the values under a key cannot be observed

Clients insert values under the same key at the same time, and the log fixes some order.  What a
map-reduce answers does not depend on it.

The reason is that a store means no more to a map-reduce than a `Bags`: a multiset of values for
each key, where a key without values is as good as absent.  On bags the three operations are
adding an element, taking one out and emptying a key, and the operations of the store do exactly
that (`bags_apply`), although they append at the end, erase the first occurrence, and leave an
emptied key behind.  So two stores with the same bags keep the same bags under the same entries,
whatever they look like inside; additions commute with each other, so the order of a group of
insertions is gone once it is in the bags; and a fold with a commutative operation is a function
of the bag (`performMapReduce_of_bags`).  Addition and multiplication of `int` commute under
wraparound too.
-/
import ReplicatedMapReduce.Replica
import Mathlib.Data.Multiset.MapFold
import Mathlib.Logic.Function.Basic

namespace ReplicatedMapReduce

open Runs

/-! ## 1. Bags -/

/-- A multiset of values for each key. -/
abbrev Bags (κ α : Type*) := κ → Multiset α

namespace Bags

variable {κ α : Type*} [DecidableEq κ]

def add (b : Bags κ α) (key : κ) (value : α) : Bags κ α :=
  Function.update b key (value ::ₘ b key)

def remove [DecidableEq α] (b : Bags κ α) (key : κ) (value : α) : Bags κ α :=
  Function.update b key ((b key).erase value)

def clear (b : Bags κ α) (key : κ) : Bags κ α := Function.update b key 0

/-- Additions commute, under one key or two. -/
theorem add_add_comm (b : Bags κ α) (key key' : κ) (value value' : α) :
    (b.add key value).add key' value' = (b.add key' value').add key value := by
  rcases eq_or_ne key key' with rfl | hne
  · simp only [add, Function.update_self, Function.update_idem]
    rw [Multiset.cons_swap]
  · simp only [add, Function.update_of_ne hne, Function.update_of_ne hne.symm]
    exact Function.update_comm hne _ _ b

/-- The same bags, of other elements. -/
def map {β : Type*} (f : α → β) (b : Bags κ α) : Bags κ β := fun key => (b key).map f

theorem map_update {β : Type*} (f : α → β) (b : Bags κ α) (key : κ) (bag : Multiset α) :
    map f (Function.update b key bag) = Function.update (b.map f) key (bag.map f) := by
  funext key'
  rcases eq_or_ne key' key with rfl | hne
  · rw [map, Function.update_self, Function.update_self]
  · rw [map, Function.update_of_ne hne, Function.update_of_ne hne, map]

theorem map_add {β : Type*} (f : α → β) (b : Bags κ α) (key : κ) (value : α) :
    (b.add key value).map f = (b.map f).add key (f value) := by
  rw [add, map_update, Multiset.map_cons, add, map]

theorem map_remove {β : Type*} [DecidableEq α] [DecidableEq β] {f : α → β}
    (hf : Function.Injective f) (b : Bags κ α) (key : κ) (value : α) :
    (b.remove key value).map f = (b.map f).remove key (f value) := by
  rw [remove, map_update, Multiset.map_erase f hf, remove, map]

theorem map_clear {β : Type*} (f : α → β) (b : Bags κ α) (key : κ) :
    (b.clear key).map f = (b.map f).clear key := by
  rw [clear, map_update, Multiset.map_zero, clear]

end Bags

/-- What a payload does to the bags. -/
def OpPayload.applyBags (p : OpPayload) (b : Bags Str Int32) : Bags Str Int32 :=
  match p.type with
  | .insertValue => b.add p.key p.value
  | .deleteValue => b.remove p.key p.value
  | .deleteKey => b.clear p.key
  | .mapReduce => b
  | .unknown _ => b

/-- **The order of insertions is gone once they are in the bags.** -/
theorem foldl_applyBags_perm {ps qs : List OpPayload} (hperm : ps.Perm qs)
    (hinsert : ∀ p ∈ ps, p.type = .insertValue) (b : Bags Str Int32) :
    ps.foldl (fun b p => p.applyBags b) b = qs.foldl (fun b p => p.applyBags b) b := by
  refine hperm.foldl_eq' ?_ b
  intro p hp q hq b
  simp only [OpPayload.applyBags, hinsert p hp, hinsert q hq]
  exact b.add_add_comm _ _ _ _

/-! ## 2. A store as bags -/

/-- The values of every key, without their order. -/
def KeyValueStore.bags (s : KeyValueStore) : Bags Str Int32 := fun key => ↑(s.values key)

/-- Two stores are equivalent: every key has the same values in both, each as often. -/
def SameBags (s t : KeyValueStore) : Prop := ∀ key, (s.values key).Perm (t.values key)

theorem sameBags_iff {s t : KeyValueStore} : SameBags s t ↔ s.bags = t.bags := by
  rw [funext_iff]
  exact forall_congr' fun key => Multiset.coe_eq_coe.symm

/-- An operation that changes the values of one key changes one bag. -/
theorem bags_eq_update {s t : KeyValueStore} {key : Str} {vs : List Int32}
    (h : ∀ key', t.values key' = if key = key' then vs else s.values key') :
    t.bags = Function.update s.bags key ↑vs := by
  funext key'
  rw [KeyValueStore.bags, h]
  rcases eq_or_ne key key' with rfl | hne
  · rw [if_pos rfl, Function.update_self]
  · rw [if_neg hne, Function.update_of_ne hne.symm]
    rfl

/-- **The operations of the store are the operations on bags.** -/
theorem bags_apply (p : OpPayload) (s : KeyValueStore) :
    (p.apply s).bags = p.applyBags s.bags := by
  unfold OpPayload.apply OpPayload.applyBags
  cases p.type with
  | insertValue =>
    have hbag : (↑(s.values p.key ++ [p.value]) : Multiset Int32) = p.value ::ₘ s.bags p.key :=
      Multiset.coe_eq_coe.mpr (List.perm_append_singleton _ _)
    rw [bags_eq_update fun key' => s.values_insert p.key key' p.value, hbag, Bags.add]
  | deleteValue =>
    rw [bags_eq_update fun key' => s.values_removeValue p.key key' p.value, ← Multiset.coe_erase,
      Bags.remove]
    rfl
  | deleteKey =>
    rw [bags_eq_update fun key' => s.values_removeKey p.key key', Multiset.coe_nil, Bags.clear]
  | mapReduce => rfl
  | unknown code => rfl

theorem bags_foldl_apply (ps : List OpPayload) (s : KeyValueStore) :
    (ps.foldl (fun s p => p.apply s) s).bags = ps.foldl (fun b p => p.applyBags b) s.bags := by
  induction ps generalizing s with
  | nil => rfl
  | cons p ps ih => rw [List.foldl_cons, ih, bags_apply, List.foldl_cons]

/-! ## 3. A map-reduce sees bags only -/

/-- Both reduce operations commute. -/
theorem reduceValues_perm {store : KeyValueStore} {reduceOp : Str} {f : Int32 → Int32}
    {g : Int32 → Int32 → Int32} {e : Int32}
    (hg : (MapReduce.new store).reduceFunctions[reduceOp]? = some (g, e)) {vs ws : List Int32}
    (h : vs.Perm ws) : MapReduce.reduceValues f g e vs = MapReduce.reduceValues f g e ws := by
  have hcomm : RightCommutative g := by
    rcases MapReduce.reduceFunctions_new_cases hg with ⟨-, rfl, -⟩ | ⟨-, rfl, -⟩
    · exact ⟨fun a b c => by rw [Int32.add_assoc, Int32.add_comm b c, ← Int32.add_assoc]⟩
    · exact ⟨fun a b c => by rw [Int32.mul_assoc, Int32.mul_comm b c, ← Int32.mul_assoc]⟩
  exact (h.map f).foldl_eq e

/-- **On equivalent stores every map-reduce answers the same.** -/
theorem performMapReduce_of_bags {s t : KeyValueStore} (h : SameBags s t) (mapOp reduceOp : Str)
    (keys : List Str) :
    (MapReduce.new s).performMapReduce mapOp reduceOp keys
      = (MapReduce.new t).performMapReduce mapOp reduceOp keys :=
  MapReduce.performMapReduce_congr fun _ _ _ _ hg key _ => reduceValues_perm hg (h key)

/-! ## 4. Runs -/

/-- Committing payloads, each at some index. -/
def commits (entries : List (UInt64 × OpPayload)) : List Action :=
  entries.map fun entry => .commit entry.1 entry.2

section NuRaft

variable [NuRaft]

/-- Payloads that can be committed are committed, whatever the state. -/
theorem exists_run_commits {entries : List (UInt64 × OpPayload)}
    (hsound : ∀ entry ∈ entries, entry.2.Sound) (r : Replica) :
    ∃ t, Run step (fun _ _ => True) r (commits entries) t := by
  induction entries generalizing r with
  | nil => exact ⟨r, Run.refl r⟩
  | cons entry entries ih =>
    obtain ⟨u, hu⟩ := (step_commitAt_isSome_iff r entry.1 (.payload entry.2)).mpr
      (hsound entry List.mem_cons_self)
    obtain ⟨t, hrest⟩ := ih (fun e he => hsound e (List.mem_cons_of_mem _ he)) u
    exact ⟨t, Run.cons trivial hu hrest⟩

/-- **Run lemma.**  A run of commits does to the store what its payloads do, in order. -/
theorem kvStore_of_run {guard : Replica → Action → Prop} {entries : List (UInt64 × OpPayload)}
    {r t : Replica} (hrun : Run step guard r (commits entries) t) :
    t.sm.kvStore = (entries.map Prod.snd).foldl (fun s p => p.apply s) r.sm.kvStore := by
  induction entries generalizing r with
  | nil =>
    cases hrun
    rfl
  | cons entry entries ih =>
    rw [commits, List.map_cons] at hrun
    cases hrun with
    | @cons _ u _ _ _ _ hs hrest =>
      have hcommit : step r ((Entry.payload entry.2).commitAt entry.1) = some u := hs
      obtain ⟨hc, -⟩ := step_commitAt hcommit
      rw [ih hrest, hc.kvStore, Entry.apply]
      rfl

/-- And to the bags what they do there. -/
theorem bags_of_run {guard : Replica → Action → Prop} {entries : List (UInt64 × OpPayload)}
    {r t : Replica} (hrun : Run step guard r (commits entries) t) :
    t.sm.kvStore.bags
      = (entries.map Prod.snd).foldl (fun b p => p.applyBags b) r.sm.kvStore.bags := by
  rw [kvStore_of_run hrun, bags_foldl_apply]

/-- **The order of values is invisible.**  Let two replicas with equivalent stores commit the
same insertions, each in an order of its own and at indices of its own, and then the same
entries.  Their stores are equivalent, and every map-reduce with existing operations answers the
same on both. -/
theorem valueOrder_invisible {r₁ r₂ t₁ t₂ : Replica}
    {inserts₁ inserts₂ entries₁ entries₂ : List (UInt64 × OpPayload)}
    (hsame : SameBags r₁.sm.kvStore r₂.sm.kvStore)
    (hinsert : ∀ entry ∈ inserts₁, entry.2.type = .insertValue)
    (hperm : (inserts₁.map Prod.snd).Perm (inserts₂.map Prod.snd))
    (hentries : entries₁.map Prod.snd = entries₂.map Prod.snd)
    (hrun₁ : Run step (fun _ _ => True) r₁ (commits (inserts₁ ++ entries₁)) t₁)
    (hrun₂ : Run step (fun _ _ => True) r₂ (commits (inserts₂ ++ entries₂)) t₂) :
    SameBags t₁.sm.kvStore t₂.sm.kvStore ∧
    ∀ mapOp reduceOp keys, MapReduce.Existing mapOp reduceOp → ∃ results,
      (MapReduce.new t₁.sm.kvStore).performMapReduce mapOp reduceOp keys = .ok results ∧
      (MapReduce.new t₂.sm.kvStore).performMapReduce mapOp reduceOp keys = .ok results := by
  have hbags : t₁.sm.kvStore.bags = t₂.sm.kvStore.bags := by
    rw [bags_of_run hrun₁, bags_of_run hrun₂, List.map_append, List.map_append,
      List.foldl_append, List.foldl_append, hentries, sameBags_iff.mp hsame,
      foldl_applyBags_perm hperm]
    intro p hp
    obtain ⟨entry, hentry, rfl⟩ := List.mem_map.mp hp
    exact hinsert entry hentry
  have hsame' : SameBags t₁.sm.kvStore t₂.sm.kvStore := sameBags_iff.mpr hbags
  refine ⟨hsame', fun mapOp reduceOp keys hexisting => ?_⟩
  obtain ⟨results, hresults⟩ :=
    (MapReduce.performMapReduce_returns_iff t₁.sm.kvStore mapOp reduceOp keys).mpr hexisting
  refine ⟨results, hresults, ?_⟩
  rw [← performMapReduce_of_bags hsame', hresults]

end NuRaft

/-- An insertion under `books`. -/
def insertBooks (value : Int32) : OpPayload :=
  { type := .insertValue, key := str "books", value }

theorem valueOrder_books : ∃ t₁ t₂ : Replica, t₁.sm.kvStore ≠ t₂.sm.kvStore ∧
    SameBags t₁.sm.kvStore t₂.sm.kvStore ∧ ∃ results,
      (MapReduce.new t₁.sm.kvStore).performMapReduce (str "square") (str "sum") [str "books"]
        = .ok results ∧
      (MapReduce.new t₂.sm.kvStore).performMapReduce (str "square") (str "sum") [str "books"]
        = .ok results := by
  let := littleEndian
  have hruns : ∃ t₁ t₂, Run step (fun _ _ => True) (Replica.init false)
        (commits ([(1, insertBooks 3), (2, insertBooks 4)] ++
          [(3, { insertBooks 5 with type := .deleteValue })])) t₁ ∧
      Run step (fun _ _ => True) (Replica.init false)
        (commits ([(1, insertBooks 4), (2, insertBooks 3)] ++
          [(3, { insertBooks 5 with type := .deleteValue })])) t₂ ∧
      t₁.sm.kvStore ≠ t₂.sm.kvStore :=
    ⟨_, _, Run.cons trivial rfl (Run.cons trivial rfl (Run.cons trivial rfl (Run.refl _))),
      Run.cons trivial rfl (Run.cons trivial rfl (Run.cons trivial rfl (Run.refl _))), by decide⟩
  obtain ⟨t₁, t₂, hrun₁, hrun₂, hne⟩ := hruns
  obtain ⟨hsame, hresults⟩ := valueOrder_invisible (fun key => List.Perm.refl _) (by decide)
    (by decide) rfl hrun₁ hrun₂
  exact ⟨t₁, t₂, hne, hsame, hresults _ _ _ (by decide)⟩

end ReplicatedMapReduce
