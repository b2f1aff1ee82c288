/-
# What a map-reduce computes, as arithmetic

The three map operations and the two reduce operations are arithmetic on `int`, and `int` wraps
around.  This file says what that comes to over the integers.

* `performMapReduce_spec`: whatever the store and the keys, the answer under a key is the one
  `int` congruent modulo `2 ^ 32` to the exact sum or product of the exactly mapped values.  The
  detour of a missing key, the repetitions in the list of keys and the wraparound of every single
  step cannot be seen in it.
* `noOverflow_iff`: no step wraps around, and the answer is exact, exactly when the values of
  the key are small enough, in a sense that depends on the pair of operations (`Fits`).  Nothing
  on the way from a command to the loops asks whether they are.
-/
import ReplicatedMapReduce.ValueOrder
import ReplicatedMapReduce.Foundation.Wraparound
import Mathlib.Algebra.BigOperators.Ring.List
import Mathlib.Algebra.Order.BigOperators.Group.List
import Mathlib.Algebra.Order.Ring.Abs
import Mathlib.Tactic.Linarith

namespace ReplicatedMapReduce

open Runs Wraparound

/-! ## 1. The operations -/

/-- The map operations that exist. -/
inductive MapOp
  | square
  | double
  | triple
  deriving DecidableEq

namespace MapOp

def name : MapOp → Str
  | square => str "square"
  | double => str "double"
  | triple => str "triple"

/-- On `int`, as the lambdas of the table. -/
def op : MapOp → Int32 → Int32
  | square => fun x => x * x
  | double => fun x => x * 2
  | triple => fun x => x * 3

/-- On the integers. -/
def exact : MapOp → ℤ → ℤ
  | square => fun x => x * x
  | double => fun x => x * 2
  | triple => fun x => x * 3

theorem op_eq (m : MapOp) (v : Int32) : m.op v = Int32.ofInt (m.exact v.toInt) := by
  cases m <;> simp [op, exact, Int32.ofInt_mul]

end MapOp

/-- The reduce operations that exist. -/
inductive ReduceOp
  | sum
  | product
  deriving DecidableEq

namespace ReduceOp

def name : ReduceOp → Str
  | sum => str "sum"
  | product => str "product"

/-- On `int`, as the lambdas of the table. -/
def op : ReduceOp → Int32 → Int32 → Int32
  | sum => fun x y => x + y
  | product => fun x y => x * y

def identity : ReduceOp → Int32
  | sum => 0
  | product => 1

/-- On the integers. -/
def exact : ReduceOp → ℤ → ℤ → ℤ
  | sum => fun x y => x + y
  | product => fun x y => x * y

/-- A whole list at once. -/
def total : ReduceOp → List ℤ → ℤ
  | sum => List.sum
  | product => List.prod

theorem op_ofInt (r : ReduceOp) (a b : ℤ) :
    r.op (Int32.ofInt a) (Int32.ofInt b) = Int32.ofInt (r.exact a b) := by
  cases r with
  | sum => exact (Int32.ofInt_add a b).symm
  | product => exact (Int32.ofInt_mul a b).symm

theorem op_eq (r : ReduceOp) (a b : Int32) :
    r.op a b = Int32.ofInt (r.exact a.toInt b.toInt) := by
  rw [← op_ofInt, Int32.ofInt_toInt, Int32.ofInt_toInt]

/-- The loop of the reduction, over the integers. -/
theorem foldl_exact (r : ReduceOp) (zs : List ℤ) :
    zs.foldl r.exact r.identity.toInt = r.total zs := by
  cases r with
  | sum => exact List.sum_eq_foldl.symm
  | product => exact List.prod_eq_foldl.symm

end ReduceOp

namespace MapReduce

theorem mapFunctions_new (store : KeyValueStore) (m : MapOp) :
    (new store).mapFunctions[m.name]? = some m.op := by
  cases m <;> rfl

theorem reduceFunctions_new (store : KeyValueStore) (r : ReduceOp) :
    (new store).reduceFunctions[r.name]? = some (r.op, r.identity) := by
  cases r <;> rfl

end MapReduce

/-- Map and reduce, over the integers. -/
def exactMapReduce (m : MapOp) (r : ReduceOp) (vs : List ℤ) : ℤ := r.total (vs.map m.exact)

/-- The values under a key, as integers. -/
def KeyValueStore.integers (s : KeyValueStore) (key : Str) : List ℤ :=
  (s.values key).map Int32.toInt

/-! ## 2. With wraparound -/

/-- **The two loops compute the exact result, wrapped once.** -/
theorem reduceValues_eq (m : MapOp) (r : ReduceOp) (vs : List Int32) :
    MapReduce.reduceValues m.op r.op r.identity vs
      = Int32.ofInt (exactMapReduce m r (vs.map Int32.toInt)) := by
  have hmap : vs.map m.op = ((vs.map Int32.toInt).map m.exact).map Int32.ofInt := by
    rw [List.map_map, List.map_map]
    exact List.map_congr_left fun v _ => m.op_eq v
  have hfold := foldl_ofInt r.op_ofInt r.identity.toInt ((vs.map Int32.toInt).map m.exact)
  rw [Int32.ofInt_toInt, r.foldl_exact] at hfold
  rw [MapReduce.reduceValues, hmap, hfold, exactMapReduce]

/-- What is found under a key in the answer of an existing pair of operations. -/
theorem performMapReduce_getElem? (store : KeyValueStore) (m : MapOp) (r : ReduceOp)
    (keys : List Str) :
    ∃ results, (MapReduce.new store).performMapReduce m.name r.name keys = .ok results ∧
      ∀ key : Str, results[key]? = if key ∈ keys
        then some (Int32.ofInt (exactMapReduce m r (store.integers key))) else none := by
  refine ⟨_, (MapReduce.performMapReduce_eq_ok (MapReduce.new store)).mpr
    ⟨m.op, r.op, r.identity, MapReduce.mapFunctions_new store m,
      MapReduce.reduceFunctions_new store r, rfl⟩, fun key => ?_⟩
  have hfill := TreeMaps.getElem?_foldl_insert
    (fun key => MapReduce.reduceValues m.op r.op r.identity (store.values key)) ∅ keys key
  rw [Std.ExtTreeMap.getElem?_empty, reduceValues_eq] at hfill
  refine hfill.trans ?_
  by_cases hkey : key ∈ keys
  · rw [if_pos hkey, if_pos hkey]
    rfl
  · rw [if_neg hkey, if_neg hkey]

/-- **The full specification of `performMapReduce`.**  It throws exactly when one of the names is
unknown.  For known names the keys of the answer are the listed keys, and under each of them
stands the one `int` congruent to the exact result over the values of that key, which is the
identity element when the key is missing or empty. -/
theorem performMapReduce_spec (store : KeyValueStore) (keys : List Str) :
    (∀ mapOp reduceOp, (∃ e, (MapReduce.new store).performMapReduce mapOp reduceOp keys = .error e)
      ↔ mapOp ∉ [str "square", str "double", str "triple"] ∨
        reduceOp ∉ [str "sum", str "product"]) ∧
    ∀ (m : MapOp) (r : ReduceOp), ∃ results,
      (MapReduce.new store).performMapReduce m.name r.name keys = .ok results ∧
      (∀ key, key ∈ results ↔ key ∈ keys) ∧
      ∀ key ∈ keys, ∃ result, results[key]? = some result ∧
        (∀ w : Int32, w = result ↔
          w.toInt ≡ exactMapReduce m r (store.integers key) [ZMOD 2 ^ 32]) ∧
        (store.find key = none ∨ store.find key = some [] → result = r.identity) := by
  constructor
  · intro mapOp reduceOp
    have hreturns := MapReduce.performMapReduce_returns_iff store mapOp reduceOp keys
    have hexists : ¬ MapReduce.Existing mapOp reduceOp ↔
        mapOp ∉ [str "square", str "double", str "triple"] ∨
          reduceOp ∉ [str "sum", str "product"] := not_and_or
    rw [← hexists, ← hreturns]
    cases (MapReduce.new store).performMapReduce mapOp reduceOp keys <;> simp
  · intro m r
    obtain ⟨results, hok, hget⟩ := performMapReduce_getElem? store m r keys
    refine ⟨results, hok, fun key => ?_, fun key hkey => ?_⟩
    · rw [Std.ExtTreeMap.mem_iff_isSome_getElem?, hget]
      by_cases hkey : key ∈ keys
      · simp [hkey]
      · simp [hkey]
    · refine ⟨_, (hget key).trans (if_pos hkey), fun w => eq_ofInt_iff, fun hempty => ?_⟩
      have hvalues : store.values key = [] := by
        rcases hempty with h | h <;> rw [KeyValueStore.values, h] <;> rfl
      rw [KeyValueStore.integers, hvalues]
      cases r <;> rfl

/-! ## 3. Without wraparound -/

/-- The exact results of everything `performMapReduce` computes for the values of one key, each
on the operands it really has: the mapped values, and the accumulator after every step. -/
def intermediates (m : MapOp) (r : ReduceOp) (vs : List Int32) : List ℤ :=
  vs.map (fun v => m.exact v.toInt) ++ steps r.op r.exact r.identity (vs.map m.op)

/-- No `int` operation overflows. -/
def NoOverflow (m : MapOp) (r : ReduceOp) (vs : List Int32) : Prop :=
  ∀ z ∈ intermediates m r vs, InRange z

/-- **Which values do not overflow**, for each pair of operations.  The values of an initial part
of the list are those the accumulator has seen at some point. -/
def Fits (m : MapOp) (r : ReduceOp) (vs : List ℤ) : Prop :=
  match m, r with
  | .square, .sum => (vs.map fun v => v * v).sum ≤ 2147483647
  | .double, .sum =>
    (∀ v ∈ vs, -1073741824 ≤ v ∧ v ≤ 1073741823) ∧
      ∀ p ∈ vs.inits, -1073741824 ≤ p.sum ∧ p.sum ≤ 1073741823
  | .triple, .sum =>
    (∀ v ∈ vs, |v| ≤ 715827882) ∧ ∀ p ∈ vs.inits, |p.sum| ≤ 715827882
  | .square, .product =>
    (∀ v ∈ vs, |v| ≤ 46340) ∧ ∀ p ∈ vs.inits, |p.prod| ≤ 46340
  | .double, .product =>
    (∀ v ∈ vs, -1073741824 ≤ v ∧ v ≤ 1073741823) ∧
      ∀ p ∈ vs.inits, InRange (p.prod * 2 ^ p.length)
  | .triple, .product =>
    (∀ v ∈ vs, |v| ≤ 715827882) ∧ ∀ p ∈ vs.inits, InRange (p.prod * 3 ^ p.length)

instance (m : MapOp) (r : ReduceOp) (vs : List ℤ) : Decidable (Fits m r vs) :=
  match m, r with
  | .square, .sum => inferInstanceAs (Decidable (_ ≤ _))
  | .double, .sum => inferInstanceAs (Decidable (_ ∧ _))
  | .triple, .sum => inferInstanceAs (Decidable (_ ∧ _))
  | .square, .product => inferInstanceAs (Decidable (_ ∧ _))
  | .double, .product => inferInstanceAs (Decidable (_ ∧ _))
  | .triple, .product => inferInstanceAs (Decidable (_ ∧ _))

theorem inRange_square_iff (z : ℤ) : InRange (z * z) ↔ |z| ≤ 46340 := by
  rw [InRange, abs_le]
  constructor
  · rintro ⟨-, hlt⟩
    constructor <;> nlinarith
  · rintro ⟨hlo, hhi⟩
    constructor <;> nlinarith

theorem inRange_double_iff (z : ℤ) : InRange (z * 2) ↔ -1073741824 ≤ z ∧ z ≤ 1073741823 := by
  rw [InRange]
  omega

theorem inRange_triple_iff (z : ℤ) : InRange (z * 3) ↔ |z| ≤ 715827882 := by
  rw [InRange, abs_le]
  omega

/-- The exact results of the initial parts, all at once. -/
theorem noOverflow_iff_inits (m : MapOp) (r : ReduceOp) (vs : List Int32) :
    NoOverflow m r vs ↔ (∀ v ∈ vs.map Int32.toInt, InRange (m.exact v)) ∧
      ∀ p ∈ (vs.map Int32.toInt).inits, InRange (exactMapReduce m r p) := by
  rw [NoOverflow, intermediates, List.forall_mem_append, List.forall_mem_map,
    List.forall_mem_map, inRange_steps_iff r.op_eq]
  refine and_congr_right fun hmapped => ?_
  have hexact : (vs.map m.op).map Int32.toInt = (vs.map Int32.toInt).map m.exact := by
    rw [List.map_map, List.map_map]
    refine List.map_congr_left ?_
    intro v hv
    rw [Function.comp_apply, m.op_eq, toInt_ofInt (hmapped v hv)]
    rfl
  rw [hexact, List.map_inits, List.forall_mem_map]
  simp only [r.foldl_exact, exactMapReduce]

theorem exact_double_sum (p : List ℤ) : exactMapReduce .double .sum p = p.sum * 2 := by
  have h := List.sum_map_mul_right p id (2 : ℤ)
  rwa [List.map_id] at h

theorem exact_triple_sum (p : List ℤ) : exactMapReduce .triple .sum p = p.sum * 3 := by
  have h := List.sum_map_mul_right p id (3 : ℤ)
  rwa [List.map_id] at h

theorem exact_square_product (p : List ℤ) :
    exactMapReduce .square .product p = p.prod * p.prod := by
  have h := List.prod_map_mul (l := p) (f := id) (g := id)
  rwa [List.map_id] at h

theorem exact_double_product (p : List ℤ) :
    exactMapReduce .double .product p = p.prod * 2 ^ p.length := by
  have h := List.prod_map_mul (l := p) (f := id) (g := fun _ => (2 : ℤ))
  rwa [List.map_id, List.map_const', List.prod_replicate] at h

theorem exact_triple_product (p : List ℤ) :
    exactMapReduce .triple .product p = p.prod * 3 ^ p.length := by
  have h := List.prod_map_mul (l := p) (f := id) (g := fun _ => (3 : ℤ))
  rwa [List.map_id, List.map_const', List.prod_replicate] at h

/-- Squares only add up, so the last sum of squares is the greatest number there is. -/
theorem inRange_squares_iff (vs : List ℤ) :
    ((∀ v ∈ vs, InRange (v * v)) ∧ ∀ p ∈ vs.inits, InRange (exactMapReduce .square .sum p))
      ↔ (vs.map fun v => v * v).sum ≤ 2147483647 := by
  have hnonneg : ∀ p : List ℤ, ∀ z ∈ p.map fun v => v * v, 0 ≤ z := by
    intro p z hz
    obtain ⟨v, -, rfl⟩ := List.mem_map.mp hz
    exact mul_self_nonneg v
  constructor
  · rintro ⟨-, hall⟩
    have htotal : InRange (vs.map fun v => v * v).sum :=
      hall vs ((List.mem_inits vs vs).mpr (List.prefix_refl vs))
    exact Int.le_of_lt_add_one htotal.2
  · intro htotal
    refine ⟨fun v hv => ?_, fun p hp => ?_⟩
    · have hle : v * v ≤ (vs.map fun v => v * v).sum :=
        List.single_le_sum (hnonneg vs) _ (List.mem_map_of_mem hv)
      have hpos : 0 ≤ v * v := mul_self_nonneg v
      rw [InRange]
      omega
    · have hsub : (p.map fun v => v * v).Sublist (vs.map fun v => v * v) :=
        (((List.mem_inits p vs).mp hp).sublist).map _
      have hle : (p.map fun v => v * v).sum ≤ (vs.map fun v => v * v).sum :=
        hsub.sum_le_sum (hnonneg vs)
      have hpos : 0 ≤ (p.map fun v => v * v).sum := List.sum_nonneg (hnonneg p)
      have heq : exactMapReduce .square .sum p = (p.map fun v => v * v).sum := rfl
      rw [heq, InRange]
      omega

/-- **No step overflows exactly when the values fit.** -/
theorem noOverflow_iff (m : MapOp) (r : ReduceOp) (vs : List Int32) :
    NoOverflow m r vs ↔ Fits m r (vs.map Int32.toInt) := by
  rw [noOverflow_iff_inits]
  cases m with
  | square =>
    cases r with
    | sum => exact inRange_squares_iff _
    | product => simp only [exact_square_product, MapOp.exact, inRange_square_iff, Fits]
  | double =>
    cases r with
    | sum => simp only [exact_double_sum, MapOp.exact, inRange_double_iff, Fits]
    | product => simp only [exact_double_product, MapOp.exact, inRange_double_iff, Fits]
  | triple =>
    cases r with
    | sum => simp only [exact_triple_sum, MapOp.exact, inRange_triple_iff, Fits]
    | product => simp only [exact_triple_product, MapOp.exact, inRange_triple_iff, Fits]

/-- Without overflow the answer is exact. -/
theorem toInt_reduceValues {m : MapOp} {r : ReduceOp} {vs : List Int32}
    (h : NoOverflow m r vs) :
    (MapReduce.reduceValues m.op r.op r.identity vs).toInt
      = exactMapReduce m r (vs.map Int32.toInt) := by
  have hwhole : vs.map Int32.toInt ∈ (vs.map Int32.toInt).inits :=
    (List.mem_inits _ _).mpr (List.prefix_refl _)
  rw [reduceValues_eq, toInt_ofInt (((noOverflow_iff_inits m r vs).mp h).2 _ hwhole)]

/-! ## 4. Every reachable store -/

/-- `performMapReduce` overflows for none of the keys, and answers the exact results. -/
def ExactResults (store : KeyValueStore) (m : MapOp) (r : ReduceOp) (keys : List Str) : Prop :=
  ∃ results, (MapReduce.new store).performMapReduce m.name r.name keys = .ok results ∧
    ∀ key ∈ keys, NoOverflow m r (store.values key) ∧
      ∃ result, results[key]? = some result ∧
        result.toInt = exactMapReduce m r (store.integers key)

/-- **A map-reduce is exact exactly when the values of its keys fit**, whatever insertions and
deletions the store comes from. -/
theorem exactResults_iff [NuRaft] {asyncSnapshot : Bool} {entries : List (UInt64 × OpPayload)}
    {t : Replica}
    (_hentries : ∀ entry ∈ entries,
      entry.2.type = .insertValue ∨ entry.2.type = .deleteValue ∨ entry.2.type = .deleteKey)
    (_hrun : Run step (fun _ _ => True) (Replica.init asyncSnapshot) (commits entries) t)
    (m : MapOp) (r : ReduceOp) (keys : List Str) :
    ExactResults t.sm.kvStore m r keys ↔
      ∀ key ∈ keys, Fits m r (t.sm.kvStore.integers key) := by
  constructor
  · rintro ⟨results, -, hall⟩ key hkey
    exact (noOverflow_iff m r _).mp (hall key hkey).1
  · intro hfits
    obtain ⟨results, hok, hget⟩ := performMapReduce_getElem? t.sm.kvStore m r keys
    refine ⟨results, hok, fun key hkey => ?_⟩
    have hno : NoOverflow m r (t.sm.kvStore.values key) :=
      (noOverflow_iff m r _).mpr (hfits key hkey)
    refine ⟨hno, _, (hget key).trans (if_pos hkey), ?_⟩
    rw [KeyValueStore.integers, ← reduceValues_eq, toInt_reduceValues hno]

/-- `3` and `4` are small enough to be squared and added. -/
theorem exactResults_books : ∃ t : Replica,
    t.sm.kvStore.integers (str "books") = [3, 4] ∧
    ExactResults t.sm.kvStore .square .sum [str "books"] := by
  let := littleEndian
  have hrun : ∃ t, Run step (fun _ _ => True) (Replica.init false)
      (commits [(1, insertBooks 3), (2, insertBooks 4)]) t ∧
      t.sm.kvStore.integers (str "books") = [3, 4] :=
    ⟨_, Run.cons trivial rfl (Run.cons trivial rfl (Run.refl _)), by decide⟩
  obtain ⟨t, hrun, ht⟩ := hrun
  refine ⟨t, ht, (exactResults_iff (by decide) hrun .square .sum [str "books"]).mpr ?_⟩
  intro key hkey
  obtain rfl : key = str "books" := by simpa using hkey
  rw [ht]
  decide

/-- One value whose square does not fit an `int`. -/
theorem exactResults_overflow :
    ¬ ∀ (entries : List (UInt64 × OpPayload)) (t : Replica),
      (∀ entry ∈ entries, entry.2.type = .insertValue ∨ entry.2.type = .deleteValue ∨
        entry.2.type = .deleteKey) →
      @Run _ _ (@step littleEndian) (fun _ _ => True) (Replica.init false)
        (commits entries) t →
      ∀ m r keys, ExactResults t.sm.kvStore m r keys := by
  let := littleEndian
  intro h
  have hrun : ∃ t, Run step (fun _ _ => True) (Replica.init false)
      (commits [(1, insertBooks 46341)]) t ∧ t.sm.kvStore.values (str "books") = [46341] :=
    ⟨_, Run.cons trivial rfl (Run.refl _), by decide⟩
  obtain ⟨t, hrun, ht⟩ := hrun
  obtain ⟨results, -, hall⟩ := h _ t (by decide) hrun .square .sum [str "books"]
  have hno := (hall (str "books") (by decide)).1
  rw [ht] at hno
  have hrange : InRange 2147488281 := hno _ (by decide)
  exact absurd hrange (by decide)

end ReplicatedMapReduce
