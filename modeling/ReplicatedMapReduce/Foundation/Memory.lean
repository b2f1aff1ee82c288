/-
# A byte-addressed process memory

The memory of one process is a byte at every 64-bit address; an address that is not mapped
would fault where this model still reads a byte, so every reader here is more forgiving than
the machine.  Words are little-endian.  `memcpy` overwrites a block and nothing else.

The lemma the rest rests on is `readBytes_memcpy_readBytes`: a block that was copied from one
memory to another reads the same at the same offset.  What it does NOT say is anything about
the bytes a copied pointer points to: those are still the bytes of the memory that is read.
-/
import Mathlib.Algebra.Order.Ring.Nat
import Mathlib.Data.List.Basic
import Mathlib.Data.Nat.Notation

namespace Memory

/-! ## 1. Little-endian words -/

/-- The number a block of bytes holds, least significant byte first. -/
def leValue : List UInt8 → ℕ
  | [] => 0
  | b :: bs => b.toNat + 256 * leValue bs

/-- The `k` low bytes of a number, least significant first. -/
def leBytes : ℕ → ℕ → List UInt8
  | 0, _ => []
  | k + 1, n => UInt8.ofNat n :: leBytes k (n / 256)

theorem length_leBytes (k n : ℕ) : (leBytes k n).length = k := by
  induction k generalizing n with
  | zero => rfl
  | succ k ih => rw [leBytes, List.length_cons, ih]

theorem leValue_leBytes {k n : ℕ} (h : n < 256 ^ k) : leValue (leBytes k n) = n := by
  induction k generalizing n with
  | zero =>
    rw [Nat.pow_zero] at h
    rw [leBytes, leValue]
    omega
  | succ k ih =>
    rw [Nat.pow_succ] at h
    have hhead : (UInt8.ofNat n).toNat = n % 256 := UInt8.toNat_ofNat'
    rw [leBytes, leValue, ih (by omega), hhead]
    omega

/-- A machine address. -/
abbrev Addr := UInt64

/-- The memory of one process. -/
abbrev Mem := Addr → UInt8

/-- The block of `n` bytes at `a`. -/
def readBytes (m : Mem) (a : Addr) (n : ℕ) : List UInt8 :=
  (List.range n).map fun i => m (a + UInt64.ofNat i)

/-- The 64-bit word at `a`. -/
def readU64 (m : Mem) (a : Addr) : UInt64 := UInt64.ofNat (leValue (readBytes m a 8))

/-- The 32-bit `int` at `a`. -/
def readInt32 (m : Mem) (a : Addr) : Int32 :=
  (UInt32.ofNat (leValue (readBytes m a 4))).toInt32

/-- `memcpy(dst, bytes, bytes.size())`. -/
def memcpy (dst : Addr) (bytes : List UInt8) (m : Mem) : Mem := fun x =>
  (bytes[(x - dst).toNat]?).getD (m x)

/-! ## 2. What a copy reads as -/

@[simp] theorem length_readBytes (m : Mem) (a : Addr) (n : ℕ) :
    (readBytes m a n).length = n := by
  simp [readBytes]

/-- A block depends on its own bytes only. -/
theorem readBytes_congr {m m' : Mem} {a a' : Addr} {n : ℕ}
    (h : ∀ i < n, m (a + UInt64.ofNat i) = m' (a' + UInt64.ofNat i)) :
    readBytes m a n = readBytes m' a' n :=
  List.map_congr_left fun i hi => h i (List.mem_range.mp hi)

/-- Two blocks of one length are the same if all their bytes are. -/
theorem readBytes_eq_iff {m m' : Mem} {a : Addr} {n : ℕ} :
    readBytes m a n = readBytes m' a n ↔
      ∀ i < n, m (a + UInt64.ofNat i) = m' (a + UInt64.ofNat i) := by
  refine ⟨fun h i hi => ?_, readBytes_congr⟩
  have hbyte := congrArg (fun bytes => bytes[i]?) h
  simpa [readBytes, hi] using hbyte

/-- The address `o` bytes past `dst` is `o` bytes past `dst`. -/
theorem toNat_offset (dst : Addr) {o : ℕ} (ho : o < 2 ^ 64) :
    (dst + UInt64.ofNat o - dst).toNat = o := by
  rw [UInt64.add_comm, UInt64.add_sub_cancel, UInt64.toNat_ofNat_of_lt' ho]

/-- Outside the block a copy changes nothing. -/
theorem memcpy_of_le {dst x : Addr} {bytes : List UInt8} (m : Mem)
    (h : bytes.length ≤ (x - dst).toNat) : memcpy dst bytes m x = m x := by
  rw [memcpy, List.getElem?_eq_none h, Option.getD_none]

/-- **A copied block reads the same at the same offset.** -/
theorem readBytes_memcpy_readBytes (m m' : Mem) (src dst : Addr) {size o n : ℕ}
    (hfit : o + n ≤ size) (hsize : size ≤ 2 ^ 64) :
    readBytes (memcpy dst (readBytes m src size) m') (dst + UInt64.ofNat o) n
      = readBytes m (src + UInt64.ofNat o) n := by
  refine readBytes_congr ?_
  intro i hi
  have hassoc : ∀ a : Addr, a + UInt64.ofNat o + UInt64.ofNat i = a + UInt64.ofNat (o + i) := by
    intro a
    rw [UInt64.add_assoc, ← UInt64.ofNat_add]
  have hin : o + i < (readBytes m src size).length := by
    rw [length_readBytes]
    omega
  rw [hassoc, hassoc, memcpy, toNat_offset dst (by omega), List.getElem?_eq_getElem hin]
  simp [readBytes]

/-- A block that ends before the copy begins is not touched. -/
theorem readBytes_memcpy_below (m : Mem) (a : Addr) {bytes : List UInt8} {n k : ℕ} (hn : n ≤ k)
    (hfit : bytes.length + k ≤ 2 ^ 64) :
    readBytes (memcpy (a + UInt64.ofNat k) bytes m) a n = readBytes m a n := by
  refine readBytes_congr fun i hi => memcpy_of_le m ?_
  have hk : (UInt64.ofNat k).toNat = k % 2 ^ 64 := UInt64.toNat_ofNat'
  have hi' : (UInt64.ofNat i).toNat = i % 2 ^ 64 := UInt64.toNat_ofNat'
  rw [UInt64.toNat_sub, UInt64.toNat_add, UInt64.toNat_add, hk, hi']
  have ha := a.toNat_lt
  omega

/-- The first byte of a block. -/
theorem head?_readBytes (m : Mem) (a : Addr) {n : ℕ} (hn : 0 < n) :
    (readBytes m a n).head? = some (m a) := by
  obtain ⟨k, rfl⟩ : ∃ k, n = k + 1 := ⟨n - 1, by omega⟩
  have hzero : a + UInt64.ofNat 0 = a := UInt64.add_zero a
  rw [readBytes, List.range_succ_eq_map, List.map_cons, List.head?_cons, hzero]

end Memory
