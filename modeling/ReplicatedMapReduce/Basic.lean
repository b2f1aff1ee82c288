/-
# What the program stands on: bytes, `int`, exceptions and NuRaft's buffers

The server is C++ over the NuRaft library.  This module fixes the few things of that ground
that the program's own code touches:

* `Str` is `std::string`, a string of bytes; `std::map<std::string, _>` orders its keys byte by
  byte, unsigned, which is the order `compare` has on lists of `UInt8`;
* `int` is `Int32`, two's complement, and `stoi` reads one;
* a call can fail: an exception leaves it, or it does something C++ gives no meaning to
  (`Fault`);
* `NuRaft` is the part of the library that is not in the repository: the buffers that log
  entries, replies and snapshot objects travel in.  It is a parameter of everything below, and
  its fields are all that is used of it.
-/
import ReplicatedMapReduce.Foundation.Decimal
import ReplicatedMapReduce.Foundation.Memory

namespace ReplicatedMapReduce

/-! ## 1. Bytes and integers -/

/-- `std::string`. -/
abbrev Str := List UInt8

/-- A string literal of the source.  All of them are ASCII, one byte a character. -/
def str (s : String) : Str := s.toList.map Char.toUInt8

/-- `std::map<K, V>`: iterated in the order of the keys. -/
abbrev Map (κ ν : Type) [Ord κ] := Std.ExtTreeMap κ ν

/-! ## 2. Failures -/

/-- The exceptions the program can meet. -/
inductive StdException
  | runtimeError (what : Str)
  | invalidArgument
  | outOfRange
  /-- NuRaft's buffer has too few bytes left. -/
  | notEnoughData
  deriving DecidableEq

/-- How a call fails to return. -/
inductive Fault
  /-- The exception leaves the call. -/
  | thrown (e : StdException)
  /-- The result of a lookup was used although it is `end()`. -/
  | endDereferenced
  /-- `v[i]` where `v` has only `size` elements. -/
  | outOfBounds (i size : ℕ)
  /-- An `assert` does not hold. -/
  | assertionFailed
  deriving DecidableEq

/-- What every successful turn of a loop keeps, the loop keeps. -/
theorem foldlM_invariant {ε α β : Type} {f : β → α → Except ε β} {P : β → Prop} {l : List α}
    (hstep : ∀ a ∈ l, ∀ b b', P b → f b a = .ok b' → P b') {b b' : β}
    (h : l.foldlM f b = .ok b') : P b → P b' := by
  induction l generalizing b with
  | nil =>
    cases h
    exact id
  | cons a l ih =>
    intro hb
    rw [List.foldlM_cons] at h
    cases hf : f b a with
    | error e => rw [hf] at h; exact absurd h (by simp [bind, Except.bind])
    | ok c =>
      rw [hf] at h
      exact ih (fun x hx => hstep x (List.mem_cons_of_mem _ hx)) h
        (hstep a List.mem_cons_self b c hb hf)

/-- A loop whose turns fail exactly on bad elements returns exactly when there are none, and has
done what the turns do. -/
theorem foldlM_eq_ok_iff {ε α β : Type} {f : β → α → Except ε β} {g : β → α → β} {Good : α → Prop}
    (hgood : ∀ a b, Good a → f b a = .ok (g b a))
    (hbad : ∀ a b, ¬ Good a → ∃ e, f b a = .error e) {l : List α} {b b' : β} :
    l.foldlM f b = .ok b' ↔ (∀ a ∈ l, Good a) ∧ b' = l.foldl g b := by
  induction l generalizing b with
  | nil => simp [pure, Except.pure, eq_comm]
  | cons a l ih =>
    rw [List.foldlM_cons, List.forall_mem_cons, List.foldl_cons]
    by_cases ha : Good a
    · rw [hgood a b ha]
      exact ih.trans (and_congr_left' (and_iff_right ha).symm)
    · obtain ⟨e, he⟩ := hbad a b ha
      rw [he]
      refine iff_of_false (by simp [bind, Except.bind]) ?_
      rintro ⟨⟨hgood, -⟩, -⟩
      exact ha hgood

/-! ## 3. Reading and printing an `int` -/

/-- `std::stoi`: `strtol`, and then the range of `int`. -/
def stoi (s : Str) : Except StdException Int32 :=
  match Decimal.strtol s with
  | none => .error .invalidArgument
  | some z =>
    if -2 ^ 31 ≤ z ∧ z < 2 ^ 31 then .ok (Int32.ofInt z) else .error .outOfRange

/-- What `stream << value` writes. -/
def printValue (value : Int32) : Str := Decimal.printInt value.toInt

/-- **`stoi` returns exactly the `int` that `strtol` reads.** -/
theorem stoi_eq_ok_iff {s : Str} {value : Int32} :
    stoi s = .ok value ↔ Decimal.strtol s = some value.toInt := by
  unfold stoi
  cases Decimal.strtol s with
  | none => simp
  | some z =>
    dsimp only
    rw [Option.some.injEq]
    split
    · rename_i hrange
      rw [Except.ok.injEq]
      constructor
      · rintro rfl
        exact (Int32.toInt_ofInt_of_le hrange.1 hrange.2).symm
      · rintro rfl
        exact Int32.ofInt_toInt value
    · rename_i hrange
      refine iff_of_false (by simp) ?_
      rintro rfl
      exact hrange ⟨value.le_toInt, value.toInt_lt⟩

/-- It fails in one of two ways. -/
theorem stoi_error {s : Str} {e : StdException} (h : stoi s = .error e) :
    (e = .invalidArgument ∧ Decimal.strtol s = none) ∨
      (e = .outOfRange ∧ ∃ z, Decimal.strtol s = some z ∧ ¬ (-2 ^ 31 ≤ z ∧ z < 2 ^ 31)) := by
  unfold stoi at h
  split at h
  · rename_i hnone
    cases h
    exact Or.inl ⟨rfl, hnone⟩
  · rename_i z hz
    split at h
    · exact absurd h (by simp)
    · rename_i hrange
      cases h
      exact Or.inr ⟨rfl, z, hz, hrange⟩

/-- **Every `int` is read back from its text**, the two extreme ones included. -/
theorem stoi_printValue (value : Int32) : stoi (printValue value) = .ok value :=
  stoi_eq_ok_iff.mpr (Decimal.strtol_printInt value.toInt)

/-- Reading an `int` and printing it again does not make it longer. -/
theorem length_printValue_le {s : Str} {value : Int32} (h : stoi s = .ok value) :
    (printValue value).length ≤ s.length :=
  Decimal.length_printInt_le (stoi_eq_ok_iff.mp h)

theorem printValue_ne_nil (value : Int32) : printValue value ≠ [] :=
  Decimal.printInt_ne_nil _

/-- The text of an `int` is made of digits and the minus sign. -/
theorem not_mem_printValue {c : UInt8} (hminus : c ≠ '-'.toUInt8)
    (hdigit : Decimal.isDigit c = false) (value : Int32) : c ∉ printValue value := by
  intro hc
  rcases Decimal.mem_printInt hc with h | h
  · exact hminus h
  · rw [hdigit] at h
    exact absurd h (by simp)

/-! ## 4. NuRaft's buffers -/

/-- The calls on `nuraft::buffer` and `nuraft::buffer_serializer`, and what is relied on.
`putRaw`, `putU64` and `putU8` give the bytes the call appends; `getUlong` and `getByte` read
from the front and hand back what is left. -/
class NuRaft where
  putRaw : Str → Str
  getStr : Str → Except StdException Str
  putU64 : UInt64 → Str
  putU8 : UInt8 → Str
  getUlong : Str → Except StdException (UInt64 × Str)
  getByte : Str → Except StdException (UInt8 × Str)
  /-- `put_raw` writes the given bytes and no length. -/
  putRaw_eq : ∀ data, putRaw data = data
  /-- `get_str` reads a 4-byte little-endian length `n` and then `n` bytes. -/
  getStr_eq : ∀ data, 4 + Memory.leValue (data.take 4) ≤ data.length →
    getStr data = .ok ((data.drop 4).take (Memory.leValue (data.take 4)))
  /-- `get_str` throws when there are fewer. -/
  getStr_throws : ∀ data, data.length < 4 + Memory.leValue (data.take 4) ∨ data.length < 4 →
    ∃ e, getStr data = .error e
  /-- What `put_u64` writes, `get_ulong` reads back. -/
  getUlong_putU64 : ∀ n rest, getUlong (putU64 n ++ rest) = .ok (n, rest)
  /-- What `put_u8` writes, `get_byte` reads back. -/
  getByte_putU8 : ∀ b rest, getByte (putU8 b ++ rest) = .ok (b, rest)

/-- The first `k` bytes as a number, and what is left. -/
def takeLE (k : ℕ) (data : Str) : Except StdException (ℕ × Str) :=
  if data.length < k then .error .notEnoughData
  else .ok (Memory.leValue (data.take k), data.drop k)

theorem takeLE_leBytes_append {k n : ℕ} (h : n < 256 ^ k) (rest : Str) :
    takeLE k (Memory.leBytes k n ++ rest) = .ok (n, rest) := by
  have hlen := Memory.length_leBytes k n
  rw [takeLE, if_neg (by rw [List.length_append, hlen]; omega), List.take_left' hlen,
    List.drop_left' hlen, Memory.leValue_leBytes h]

/-- Buffers that put every integer little-endian, as `get_str` reads its length: the runs on
concrete inputs below are over these. -/
@[reducible] def littleEndian : NuRaft where
  putRaw data := data
  getStr data := do
    let (n, rest) ← takeLE 4 data
    if rest.length < n then .error .notEnoughData else .ok (rest.take n)
  putU64 n := Memory.leBytes 8 n.toNat
  putU8 b := Memory.leBytes 1 b.toNat
  getUlong data := (takeLE 8 data).map fun (n, rest) => (UInt64.ofNat n, rest)
  getByte data := (takeLE 1 data).map fun (b, rest) => (UInt8.ofNat b, rest)
  putRaw_eq _ := rfl
  getStr_eq data h := by
    have hrest : ¬ (data.drop 4).length < Memory.leValue (data.take 4) := by
      rw [List.length_drop]
      omega
    rw [takeLE, if_neg (by omega)]
    exact if_neg hrest
  getStr_throws data h := by
    unfold takeLE
    split
    · exact ⟨_, rfl⟩
    · refine ⟨.notEnoughData, if_pos ?_⟩
      rw [List.length_drop]
      omega
  getUlong_putU64 n rest := by
    rw [takeLE_leBytes_append n.toNat_lt]
    exact congrArg (fun m => Except.ok (m, rest)) UInt64.ofNat_toNat
  getByte_putU8 b rest := by
    rw [takeLE_leBytes_append b.toNat_lt]
    exact congrArg (fun m => Except.ok (m, rest)) UInt8.ofNat_toNat

end ReplicatedMapReduce
