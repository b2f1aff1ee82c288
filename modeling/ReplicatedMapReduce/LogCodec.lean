/-
# The codec of the log: `enc_log` and `dec_log`

`enc_log` copies the `sizeof(op_payload)` bytes of a payload object into the entry, and `dec_log`
copies them over another object, in whatever process commits the entry.  An `int` lives in those
bytes.  A `std::string` does not: the object holds a pointer and a length, and the characters are
where the pointer points, in the object's own small buffer or on the heap of the process that
built it.  A `std::vector` holds pointers to its elements, which are string objects again.

So what a replica decodes is the leader's pointers read in the replica's memory
(`readString_decoded`).  Two memories that differ at one address decode different characters, and
the memory can be anything: the bytes of an entry determine the payload exactly when there is
nothing behind a pointer, that is when every string is empty and there are no keys
(`decodes_encLog_iff`).  No client command makes such a payload, and two replicas in the same
state can commit the same insertion and end in different ones (`replicas_diverge`).

What is studied is what is read.  That the copied object is destroyed in the end, with pointers it
does not own, is the same mistake seen from the other side: a `commit` of the source that has come
so far need not return.  No result of this development is about that.

The objects are laid out as on a 64-bit machine with the GNU library: a string is 32 bytes
(pointer, length, 16 bytes of buffer), a vector three pointers, an `int` four bytes and padding.
-/
import ReplicatedMapReduce.Replica

namespace ReplicatedMapReduce

open Memory

/-! ## 1. Objects in memory -/

def sizeofString : ℕ := 32

def sizeofOpPayload : ℕ := 136

/-- What starts `o` bytes into the object at `a`. -/
def member (a : Addr) (o : ℕ) : Addr := a + UInt64.ofNat o

/-- The string whose object is at `a`: as many bytes as its length says, from where its pointer
points. -/
def readString (m : Mem) (a : Addr) : Str :=
  readBytes m (readU64 m a) (readU64 m (member a 8)).toNat

/-- The strings of the vector whose object is at `a`: the objects between its two pointers. -/
def readStrings (m : Mem) (a : Addr) : List Str :=
  (List.range ((readU64 m (member a 8) - readU64 m a).toNat / sizeofString)).map fun i =>
    readString m (member (readU64 m a) (i * sizeofString))

/-- The payload whose object is at `a`. -/
def readPayload (m : Mem) (a : Addr) : OpPayload where
  type := OpType.ofCode (readInt32 m (member a 0))
  key := readString m (member a 8)
  value := readInt32 m (member a 40)
  mapOp := readString m (member a 48)
  reduceOp := readString m (member a 80)
  keys := readStrings m (member a 112)

theorem member_zero (a : Addr) : member a 0 = a := UInt64.add_zero a

theorem member_member (a : Addr) (o o' : ℕ) : member (member a o) o' = member a (o + o') := by
  rw [member, member, member, UInt64.add_assoc, ← UInt64.ofNat_add]

/-! ## 2. The codec -/

def encLog (m : Mem) (payload : Addr) : List UInt8 := readBytes m payload sizeofOpPayload

/-- `dec_log`: the memory afterwards. -/
def decLog (log : List UInt8) (payloadOut : Addr) (m : Mem) : Except Fault Mem :=
  if log.length = sizeofOpPayload then .ok (memcpy payloadOut log m)
  else .error .assertionFailed

/-- `commit`, from the buffer NuRaft hands over; the local `payload` is at the given address.  It
goes as far as what is done with the payload: the destructor, which takes the copied pointers for
its own and frees what they point to, is left out. -/
def StateMachine.commitBuffer [NuRaft] (sm : StateMachine) (logIdx : UInt64) (data : List UInt8)
    (payload : Addr) (m : Mem) : Except Fault (StateMachine × Str) :=
  match decLog data payload m with
  | .error e => .error e
  | .ok m => sm.commit logIdx (readPayload m payload)

/-- The entry is decoded to `p` by every replica, whatever is in its memory and wherever its
local `payload` is. -/
def Decodes (log : List UInt8) (p : OpPayload) : Prop :=
  ∀ (m : Mem) (a : Addr), ∃ m', decLog log a m = .ok m' ∧ readPayload m' a = p

/-- The memory of a replica that has decoded the payload the leader has at `a`. -/
def decoded (m : Mem) (a : Addr) (m' : Mem) (a' : Addr) : Mem := memcpy a' (encLog m a) m'

theorem length_encLog (m : Mem) (a : Addr) : (encLog m a).length = sizeofOpPayload :=
  length_readBytes m a sizeofOpPayload

theorem decLog_encLog (m : Mem) (a : Addr) (m' : Mem) (a' : Addr) :
    decLog (encLog m a) a' m' = .ok (decoded m a m' a') := by
  rw [decLog, if_pos (length_encLog m a), decoded]

theorem decodes_encLog (m : Mem) (a : Addr) (p : OpPayload) :
    Decodes (encLog m a) p ↔ ∀ m' a', readPayload (decoded m a m' a') a' = p := by
  simp only [Decodes, decLog_encLog, Except.ok.injEq, exists_eq_left']

/-! ## 3. What a replica reads -/

section Decoded

variable (m : Mem) (a : Addr) (m' : Mem) (a' : Addr)

/-- Inside the object, every byte is the leader's. -/
theorem readBytes_decoded {o n : ℕ} (h : o + n ≤ sizeofOpPayload) :
    readBytes (decoded m a m' a') (member a' o) n = readBytes m (member a o) n :=
  readBytes_memcpy_readBytes m m' a a' h (by decide)

theorem readU64_decoded {o : ℕ} (h : o + 8 ≤ sizeofOpPayload) :
    readU64 (decoded m a m' a') (member a' o) = readU64 m (member a o) := by
  rw [readU64, readU64, readBytes_decoded m a m' a' h]

theorem readInt32_decoded {o : ℕ} (h : o + 4 ≤ sizeofOpPayload) :
    readInt32 (decoded m a m' a') (member a' o) = readInt32 m (member a o) := by
  rw [readInt32, readInt32, readBytes_decoded m a m' a' h]

/-- **Pointer and length are the leader's, the characters are the replica's.** -/
theorem readString_decoded {o : ℕ} (h : o + 16 ≤ sizeofOpPayload) :
    readString (decoded m a m' a') (member a' o) =
      readBytes (decoded m a m' a') (readU64 m (member a o))
        (readU64 m (member a (o + 8))).toNat := by
  rw [readString, member_member, readU64_decoded m a m' a' (by omega),
    readU64_decoded m a m' a' (by omega)]

theorem readStrings_decoded {o : ℕ} (h : o + 16 ≤ sizeofOpPayload) :
    readStrings (decoded m a m' a') (member a' o) =
      (List.range ((readU64 m (member a (o + 8)) - readU64 m (member a o)).toNat
        / sizeofString)).map fun i =>
          readString (decoded m a m' a') (member (readU64 m (member a o)) (i * sizeofString)) := by
  rw [readStrings, member_member, readU64_decoded m a m' a' (by omega),
    readU64_decoded m a m' a' (by omega)]

end Decoded

/-! ## 4. Nothing behind a pointer -/

theorem readString_eq_nil_iff (m : Mem) (a : Addr) :
    readString m a = [] ↔ (readU64 m (member a 8)).toNat = 0 := by
  rw [← List.length_eq_zero_iff, readString, length_readBytes]

theorem readStrings_eq_nil_iff (m : Mem) (a : Addr) :
    readStrings m a = [] ↔ (readU64 m (member a 8) - readU64 m a).toNat / sizeofString = 0 := by
  rw [← List.length_eq_zero_iff, readStrings, List.length_map, List.length_range]

theorem readString_decoded_of_nil {m : Mem} {a : Addr} (m' : Mem) (a' : Addr) {o : ℕ}
    (ho : o + 16 ≤ sizeofOpPayload) (h : readString m (member a o) = []) :
    readString (decoded m a m' a') (member a' o) = [] := by
  rw [readString_eq_nil_iff, member_member] at h
  rw [readString_decoded m a m' a' ho, h]
  rfl

theorem readStrings_decoded_of_nil {m : Mem} {a : Addr} (m' : Mem) (a' : Addr) {o : ℕ}
    (ho : o + 16 ≤ sizeofOpPayload) (h : readStrings m (member a o) = []) :
    readStrings (decoded m a m' a') (member a' o) = [] := by
  rw [readStrings_eq_nil_iff, member_member] at h
  rw [readStrings_decoded m a m' a' ho, h]
  rfl

/-- Below the object a replica reads what it had there. -/
theorem readBytes_decoded_below (m : Mem) (a : Addr) (m' : Mem) (x : Addr) {n k : ℕ} (hn : n ≤ k)
    (hk : k ≤ 64) : readBytes (decoded m a m' (member x k)) x n = readBytes m' x n := by
  refine readBytes_memcpy_below m' x hn ?_
  rw [length_encLog, sizeofOpPayload]
  omega

/-- A replica whose local `payload` is just above the address the leader's string has its first
character at reads whatever byte it has there. -/
theorem head?_readString_decoded {m : Mem} {a : Addr} {o : ℕ} (ho : o + 16 ≤ sizeofOpPayload)
    (hlen : 0 < (readU64 m (member a (o + 8))).toNat) (m' : Mem) :
    (readString (decoded m a m' (member (readU64 m (member a o)) 1))
      (member (member (readU64 m (member a o)) 1) o)).head?
        = some (m' (readU64 m (member a o))) := by
  have hfirst := congrArg List.head?
    (readBytes_decoded_below m a m' (readU64 m (member a o)) (le_refl 1) (by omega))
  rw [head?_readBytes _ _ Nat.one_pos, head?_readBytes _ _ Nat.one_pos] at hfirst
  rw [readString_decoded _ _ _ _ ho, head?_readBytes _ _ hlen]
  exact hfirst

/-- **A string that reads the same in every memory is empty.** -/
theorem readString_eq_nil_of_decoded {m : Mem} {a : Addr} {o : ℕ} (ho : o + 16 ≤ sizeofOpPayload)
    {s : Str} (h : ∀ m' a', readString (decoded m a m' a') (member a' o) = s) : s = [] := by
  rcases Nat.eq_zero_or_pos (readU64 m (member a (o + 8))).toNat with hlen | hlen
  · rw [← h m a, readString_decoded m a m a ho, hlen]
    rfl
  · have h0 := head?_readString_decoded ho hlen fun _ => 0
    have h1 := head?_readString_decoded ho hlen fun _ => 1
    rw [h] at h0 h1
    rw [h0] at h1
    exact absurd h1 (by decide)

/-- A word of a memory that holds the same byte everywhere. -/
theorem readU64_const (b : UInt8) (a : Addr) :
    readU64 (fun _ => b) a = readU64 (fun _ => b) 0 := rfl

/-- **A vector that reads the same in every memory is empty.** -/
theorem readStrings_eq_nil_of_decoded {m : Mem} {a : Addr} {o : ℕ}
    (ho : o + 16 ≤ sizeofOpPayload) {ss : List Str}
    (h : ∀ m' a', readStrings (decoded m a m' a') (member a' o) = ss) : ss = [] := by
  rcases Nat.eq_zero_or_pos ((readU64 m (member a (o + 8)) - readU64 m (member a o)).toNat
    / sizeofString) with hlen | hlen
  · rw [← h m a, readStrings_decoded m a m a ho, hlen]
    rfl
  · -- decode just above the length of the first element, and look how long it is
    have hhead : ∀ m' : Mem, (ss.head?).map List.length
        = some (readU64 m' (member (readU64 m (member a o)) 8)).toNat := by
      intro m'
      obtain ⟨k, hk⟩ := Nat.exists_eq_add_of_lt hlen
      rw [← h m' (member (member (readU64 m (member a o)) 8) 8), readStrings_decoded _ _ _ _ ho,
        hk, Nat.zero_add, List.range_succ_eq_map, List.map_cons, List.head?_cons,
        Option.map_some, Nat.zero_mul, member_zero, readString, length_readBytes, readU64,
        readBytes_decoded_below m a m' _ (le_refl 8) (by omega), ← readU64]
    have h0 := hhead fun _ => 0
    have h1 := hhead fun _ => 1
    rw [h0, readU64_const, readU64_const 1] at h1
    exact absurd h1 (by decide)

/-! ## 5. What an entry determines -/

/-- **The bytes of an entry determine the payload exactly when it has no text in it**: no key,
no names of operations, no list of keys. -/
theorem decodes_encLog_iff (m : Mem) (a : Addr) :
    Decodes (encLog m a) (readPayload m a) ↔
      (readPayload m a).key = [] ∧ (readPayload m a).mapOp = [] ∧
        (readPayload m a).reduceOp = [] ∧ (readPayload m a).keys = [] := by
  rw [decodes_encLog]
  constructor
  · intro h
    simp only [readPayload, OpPayload.mk.injEq] at h ⊢
    exact ⟨readString_eq_nil_of_decoded (by decide) fun m' a' => (h m' a').2.1,
      readString_eq_nil_of_decoded (by decide) fun m' a' => (h m' a').2.2.2.1,
      readString_eq_nil_of_decoded (by decide) fun m' a' => (h m' a').2.2.2.2.1,
      readStrings_eq_nil_of_decoded (by decide) fun m' a' => (h m' a').2.2.2.2.2⟩
  · rintro ⟨hkey, hmapOp, hreduceOp, hkeys⟩ m' a'
    have htype := readInt32_decoded m a m' a' (o := 0) (by decide)
    have hvalue := readInt32_decoded m a m' a' (o := 40) (by decide)
    simp only [readPayload] at hkey hmapOp hreduceOp hkeys ⊢
    rw [htype, hvalue, hkey, hmapOp, hreduceOp, hkeys,
      readString_decoded_of_nil m' a' (by decide) hkey,
      readString_decoded_of_nil m' a' (by decide) hmapOp,
      readString_decoded_of_nil m' a' (by decide) hreduceOp,
      readStrings_decoded_of_nil m' a' (by decide) hkeys]

/-- A replica that commits the bytes of an insertion inserts the value, under the key it reads. -/
theorem commitBuffer_insertValue [NuRaft] {m : Mem} {a : Addr}
    (htype : (readPayload m a).type = .insertValue) (sm : StateMachine) (logIdx : UInt64)
    (m' : Mem) (a' : Addr) :
    ∃ sm' ret, sm.commitBuffer logIdx (encLog m a) a' m' = .ok (sm', ret) ∧
      sm'.kvStore = sm.kvStore.insert (readString (decoded m a m' a') (member a' 8))
        (readPayload m a).value := by
  have htype' : (readPayload (decoded m a m' a') a').type = .insertValue := by
    rw [← htype]
    simp only [readPayload, readInt32_decoded m a m' a' (o := 0) (by decide)]
  have hvalue : (readPayload (decoded m a m' a') a').value = (readPayload m a).value := by
    simp only [readPayload, readInt32_decoded m a m' a' (o := 40) (by decide)]
  have hsound : (readPayload (decoded m a m' a') a').Sound := by
    intro hmr
    rw [htype'] at hmr
    exact absurd hmr (by simp)
  obtain ⟨sm', ret, h⟩ := (commit_returns_iff sm logIdx _).mpr hsound
  refine ⟨sm', ret, ?_, ?_⟩
  · rw [StateMachine.commitBuffer, decLog_encLog]
    exact h
  · rw [(commit_spec h).1.kvStore, Entry.apply, OpPayload.apply, htype', ← hvalue]
    simp only [readPayload]

/-- **Replicas diverge.**  For every insertion under a key that is not empty there are two
memories such that two replicas in the same state, committing the same bytes at the same index,
end with different stores. -/
theorem replicas_diverge [NuRaft] {m : Mem} {a : Addr}
    (htype : (readPayload m a).type = .insertValue) (hkey : (readPayload m a).key ≠ [])
    (sm : StateMachine) (logIdx : UInt64) :
    ∃ (payload : Addr) (m₁ m₂ : Mem) (sm₁ sm₂ : StateMachine) (ret₁ ret₂ : Str),
      sm.commitBuffer logIdx (encLog m a) payload m₁ = .ok (sm₁, ret₁) ∧
      sm.commitBuffer logIdx (encLog m a) payload m₂ = .ok (sm₂, ret₂) ∧
      sm₁.kvStore ≠ sm₂.kvStore := by
  have hlen : 0 < (readU64 m (member a (8 + 8))).toNat := by
    simp only [readPayload, ne_eq, readString_eq_nil_iff] at hkey
    rw [← member_member]
    exact Nat.pos_of_ne_zero hkey
  obtain ⟨sm₁, ret₁, h₁, hstore₁⟩ := commitBuffer_insertValue htype sm logIdx (fun _ => 0)
    (member (readU64 m (member a 8)) 1)
  obtain ⟨sm₂, ret₂, h₂, hstore₂⟩ := commitBuffer_insertValue htype sm logIdx (fun _ => 1)
    (member (readU64 m (member a 8)) 1)
  refine ⟨_, _, _, sm₁, sm₂, ret₁, ret₂, h₁, h₂, ?_⟩
  have hhead₁ := head?_readString_decoded (o := 8) (by decide) hlen fun _ => 0
  have hhead₂ := head?_readString_decoded (o := 8) (by decide) hlen fun _ => 1
  rw [hstore₁, hstore₂]
  generalize readString (decoded m a (fun _ => 0) _) _ = key₁ at hhead₁ ⊢
  generalize readString (decoded m a (fun _ => 1) _) _ = key₂ at hhead₂ ⊢
  intro hsame
  have hne : ¬ key₂ = key₁ := by
    rintro rfl
    rw [hhead₁] at hhead₂
    exact absurd hhead₂ (by decide)
  -- one of them has one more value under the first key
  have hvalues := congrArg (fun s => (s.values key₁).length) hsame
  simp only [KeyValueStore.values_insert, if_pos, if_neg hne, List.length_append,
    List.length_singleton] at hvalues
  omega

/-- A string object with its characters in its own buffer. -/
def shortString (a : Addr) (s : Str) : List UInt8 :=
  leBytes 8 (a + 16).toNat ++ leBytes 8 s.length ++ s ++ List.replicate (16 - s.length) 0

/-- A process with the payload of `+ books 3` at address 4096. -/
def booksMem : Mem :=
  memcpy 4096 (leBytes 8 0 ++ shortString 4104 (str "books") ++ leBytes 8 3 ++
    shortString 4144 [] ++ shortString 4176 [] ++ List.replicate 24 0) fun _ => 0

/-- Where the memory is all zeros, the five characters of `books` are zeros. -/
theorem books_not_decoded :
    readPayload booksMem 4096 = { type := .insertValue, key := str "books", value := 3 } ∧
    ¬ Decodes (encLog booksMem 4096) (readPayload booksMem 4096) := by
  refine ⟨by decide, fun h => ?_⟩
  have hzero := (decodes_encLog booksMem 4096 _).mp h (fun _ => 0) 8192
  exact absurd (congrArg OpPayload.key hzero) (by decide)

end ReplicatedMapReduce
