/-
# Operations on different keys are independent

Each operation touches only the key it names: an insertion creates that key if need be, a removal
of a value may leave it without values, a removal of the key takes it away, and no other key is
looked at.  So a store is a state made of cells (`KeyValueStore.cells`), one for each key, and a
log is a history for each key, whose entries act on that key's list alone.  Map-reduces and
unknown operation types are in no history.

It follows that a log can be rearranged at will, as long as the entries that name the same key
keep their order.
-/
import ReplicatedMapReduce.Server
import ReplicatedMapReduce.ValueOrder
import ReplicatedMapReduce.Foundation.Cells

namespace ReplicatedMapReduce

open Runs Cells

/-! ## 1. One key -/

/-- What an entry can do to the list under a key. -/
inductive KeyOp
  | insert (value : Int32)
  | removeValue (value : Int32)
  | removeKey
  deriving DecidableEq

/-- The list under a key, `none` while the key is not there. -/
def KeyOp.effect (vs : Option (List Int32)) : KeyOp → Option (List Int32)
  | .insert value => some (vs.getD [] ++ [value])
  | .removeValue value => vs.map (·.erase value)
  | .removeKey => none

/-- The key a payload works on, and what it does there. -/
def OpPayload.keyOp (p : OpPayload) : Option (Str × KeyOp) :=
  match p.type with
  | .insertValue => some (p.key, .insert p.value)
  | .deleteValue => some (p.key, .removeValue p.value)
  | .deleteKey => some (p.key, .removeKey)
  | .mapReduce => none
  | .unknown _ => none

theorem keyOp_eq_some {p : OpPayload} {key : Str} {op : KeyOp} :
    p.keyOp = some (key, op) ↔ p.key = key ∧
      ((p.type = .insertValue ∧ op = .insert p.value) ∨
        (p.type = .deleteValue ∧ op = .removeValue p.value) ∨
        (p.type = .deleteKey ∧ op = .removeKey)) := by
  unfold OpPayload.keyOp
  cases p.type <;> simp [eq_comm]

theorem find_apply_target {p : OpPayload} {key : Str} {op : KeyOp}
    (h : p.keyOp = some (key, op)) (s : KeyValueStore) :
    (p.apply s).find key = KeyOp.effect (s.find key) op := by
  unfold OpPayload.apply
  obtain ⟨rfl, hop⟩ := keyOp_eq_some.mp h
  rcases hop with ⟨htype, rfl⟩ | ⟨htype, rfl⟩ | ⟨htype, rfl⟩
  · simp only [htype, KeyValueStore.find_insert, if_true, KeyOp.effect, KeyValueStore.values]
  · simp only [htype, KeyValueStore.find_removeValue, if_true, KeyOp.effect]
  · simp only [htype, KeyValueStore.find_removeKey, if_true, KeyOp.effect]

theorem find_apply_other {p : OpPayload} {key : Str} (h : ∀ op, p.keyOp ≠ some (key, op))
    (s : KeyValueStore) : (p.apply s).find key = s.find key := by
  simp only [ne_eq, keyOp_eq_some] at h
  unfold OpPayload.apply
  cases htype : p.type with
  | insertValue =>
    have hne : p.key ≠ key := fun hkey => h _ ⟨hkey, Or.inl ⟨htype, rfl⟩⟩
    simp only [KeyValueStore.find_insert, if_neg hne]
  | deleteValue =>
    have hne : p.key ≠ key := fun hkey => h _ ⟨hkey, Or.inr (Or.inl ⟨htype, rfl⟩)⟩
    simp only [KeyValueStore.find_removeValue, if_neg hne]
  | deleteKey =>
    have hne : p.key ≠ key := fun hkey => h _ ⟨hkey, Or.inr (Or.inr ⟨htype, rfl⟩)⟩
    simp only [KeyValueStore.find_removeKey, if_neg hne]
  | mapReduce => rfl
  | unknown code => rfl

/-- **A store is made of cells**, one list for each key. -/
def KeyValueStore.cells : Cellwise KeyValueStore Str (Option (List Int32)) OpPayload KeyOp where
  act s p := p.apply s
  read s key := s.find key
  target p := p.keyOp
  effect := KeyOp.effect
  read_act_target h := find_apply_target h _
  read_act_other h := find_apply_other h _
  ext h := KeyValueStore.ext_find h

/-! ## 2. Two logs -/

/-- An `INSERT_VALUE`, `DELETE_VALUE` or `DELETE_KEY` that names the key. -/
def OpPayload.Names (key : Str) (p : OpPayload) : Prop :=
  p.key = key ∧ (p.type = .insertValue ∨ p.type = .deleteValue ∨ p.type = .deleteKey)

instance (key : Str) : DecidablePred (OpPayload.Names key) :=
  fun _ => inferInstanceAs (Decidable (_ ∧ _))

/-- The entries that name a key, in order. -/
def entriesNaming (key : Str) (entries : List (UInt64 × OpPayload)) : List OpPayload :=
  (entries.map Prod.snd).filter (OpPayload.Names key ·)

/-- Whatever does not name a key leaves it alone. -/
theorem effectOn_of_not_names {key : Str} {p : OpPayload} (h : ¬ p.Names key) :
    KeyValueStore.cells.effectOn key p = none := by
  refine Option.eq_none_iff_forall_ne_some.mpr ?_
  intro op hop
  obtain ⟨hkey, htype⟩ := keyOp_eq_some.mp (KeyValueStore.cells.effectOn_eq_some.mp hop)
  refine h ⟨hkey, ?_⟩
  rcases htype with ⟨htype, -⟩ | ⟨htype, -⟩ | ⟨htype, -⟩
  · exact Or.inl htype
  · exact Or.inr (Or.inl htype)
  · exact Or.inr (Or.inr htype)

theorem history_entriesNaming (key : Str) (entries : List (UInt64 × OpPayload)) :
    KeyValueStore.cells.history key (entriesNaming key entries)
      = KeyValueStore.cells.history key (entries.map Prod.snd) := by
  refine KeyValueStore.cells.history_filter ?_ _
  intro p hp
  exact effectOn_of_not_names (of_decide_eq_false hp)

section NuRaft

variable [NuRaft]

/-- **Operations on different keys are independent.**  If two logs have the same entries for each
key, in the same order, both can be committed from any state, and leave the same store. -/
theorem keys_independent (r : Replica) {entries₁ entries₂ : List (UInt64 × OpPayload)}
    (hsound₁ : ∀ entry ∈ entries₁, entry.2.Sound) (hsound₂ : ∀ entry ∈ entries₂, entry.2.Sound)
    (hsame : ∀ key, entriesNaming key entries₁ = entriesNaming key entries₂) :
    ∃ t₁ t₂, Run step (fun _ _ => True) r (commits entries₁) t₁ ∧
      Run step (fun _ _ => True) r (commits entries₂) t₂ ∧ t₁.sm.kvStore = t₂.sm.kvStore := by
  obtain ⟨t₁, hrun₁⟩ := exists_run_commits hsound₁ r
  obtain ⟨t₂, hrun₂⟩ := exists_run_commits hsound₂ r
  refine ⟨t₁, t₂, hrun₁, hrun₂, ?_⟩
  rw [kvStore_of_run hrun₁, kvStore_of_run hrun₂]
  refine KeyValueStore.cells.foldl_eq_of_history ?_ r.sm.kvStore
  intro key
  rw [← history_entriesNaming, hsame, history_entriesNaming]

end NuRaft

/-- Two keys interleaved in two ways, with a map-reduce in one of the logs only. -/
theorem keys_independent_books : ∃ t₁ t₂,
    @Run _ _ (@step littleEndian) (fun _ _ => True) (Replica.init false)
      (commits [(1, insertBooks 3), (2, { insertBooks 3 with type := .deleteKey }),
        (3, { insertBooks 5 with key := str "devices" })]) t₁ ∧
    @Run _ _ (@step littleEndian) (fun _ _ => True) (Replica.init false)
      (commits [(1, { insertBooks 5 with key := str "devices" }), (2, insertBooks 3),
        (3, booksPayload (str "double")), (4, { insertBooks 3 with type := .deleteKey })]) t₂ ∧
    t₁.sm.kvStore = t₂.sm.kvStore := by
  let := littleEndian
  refine keys_independent (Replica.init false) (by decide) (by decide) ?_
  intro key
  rcases eq_or_ne key (str "books") with rfl | hbooks
  · decide
  · rcases eq_or_ne key (str "devices") with rfl | hdevices
    · decide
    · simp [entriesNaming, OpPayload.Names, insertBooks, booksPayload, hbooks.symm,
        hdevices.symm]

end ReplicatedMapReduce
