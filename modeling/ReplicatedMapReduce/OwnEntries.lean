/-
# The server that made the entry

The pointers in an entry lead to where the characters were in the process that made it
(`LogCodec.lean`).  In that process they may still be there: in blocking mode `append_log` returns
after the commit, and until then the payload is the handler's.  What another process, or a later
moment, makes of an entry depends on nothing but the bytes behind the pointers (`Behind`).  If they
are what they were, `dec_log` gives the payload back; for a payload without a list of keys that is
also necessary (`decoded_iff`).

In the life of one entry in the server that made it (`OwnEntry`) this can be checked (`Kept`).  The
decoded payload has the pointers, but does not own what they lead to, and its destructor does not
know that; what comes of it when `commit` returns is not part of the model.
-/
import ReplicatedMapReduce.LogCodec

namespace ReplicatedMapReduce

open Memory

/-! ## 1. Behind the pointers -/

/-- The characters of the string whose object is at `a`. -/
def Chars (m : Mem) (a x : Addr) : Prop :=
  ∃ k < (readU64 m (member a 8)).toNat, x = member (readU64 m a) k

/-- These addresses in a list. -/
def chars (m : Mem) (a : Addr) : List Addr :=
  (List.range (readU64 m (member a 8)).toNat).map fun k => member (readU64 m a) k

/-- How many strings the vector whose object is at `a` has. -/
def numStrings (m : Mem) (a : Addr) : ℕ :=
  (readU64 m (member a 8) - readU64 m a).toNat / sizeofString

/-- The object of the `i`-th string of the vector whose object is at `a`. -/
def elementAt (m : Mem) (a : Addr) (i : ℕ) : Addr := member (readU64 m a) (i * sizeofString)

/-- Where the pointers of the payload whose object is at `a` lead to: characters, and for the list
of keys the pointer and the length of each string and the characters of it. -/
def Behind (m : Mem) (a x : Addr) : Prop :=
  (∃ o ∈ [8, 48, 80], Chars m (member a o) x) ∨
  ∃ i < numStrings m (member a 112),
    (∃ k < 16, x = member (elementAt m (member a 112) i) k) ∨
      Chars m (elementAt m (member a 112) i) x

/-- These addresses in a list. -/
def behind (m : Mem) (a : Addr) : List Addr :=
  ([8, 48, 80].flatMap fun o => chars m (member a o)) ++
    (List.range (numStrings m (member a 112))).flatMap fun i =>
      ((List.range 16).map fun k => member (elementAt m (member a 112) i) k) ++
        chars m (elementAt m (member a 112) i)

theorem mem_behind_iff {m : Mem} {a x : Addr} : x ∈ behind m a ↔ Behind m a x := by
  simp only [behind, Behind, chars, Chars, List.mem_append, List.mem_flatMap, List.mem_map,
    List.mem_range, @eq_comm _ x]

theorem readString_eq_of_kept {m m' : Mem} {a : Addr}
    (hobject : ∀ k < 16, m' (member a k) = m (member a k))
    (hchars : ∀ x, Chars m a x → m' x = m x) : readString m' a = readString m a := by
  have hword : ∀ o, o + 8 ≤ 16 → readU64 m' (member a o) = readU64 m (member a o) := by
    intro o ho
    rw [readU64, readU64]
    refine congrArg (fun bytes => UInt64.ofNat (leValue bytes)) ?_
    refine readBytes_eq_iff.mpr fun i hi => ?_
    have hbyte := hobject (o + i) (by omega)
    rwa [← member_member] at hbyte
  have hpointer := hword 0 (by decide)
  rw [member_zero] at hpointer
  rw [readString, readString, hpointer, hword 8 (by decide)]
  exact readBytes_eq_iff.mpr fun i hi => hchars _ ⟨i, hi, rfl⟩

section Decoded

variable {m : Mem} {a : Addr} {m' : Mem} {a' : Addr}

/-- A string of the payload is read as it was exactly when its characters are what they were. -/
theorem readString_decoded_eq_iff {o : ℕ} (h : o + 16 ≤ sizeofOpPayload) :
    readString (decoded m a m' a') (member a' o) = readString m (member a o) ↔
      ∀ x, Chars m (member a o) x → decoded m a m' a' x = m x := by
  rw [readString_decoded m a m' a' h, readString, member_member, readBytes_eq_iff]
  constructor
  · rintro hbytes x ⟨k, hk, rfl⟩
    rw [member_member] at hk
    exact hbytes k hk
  · intro hchars k hk
    refine hchars _ ⟨k, ?_, rfl⟩
    rwa [member_member]

/-- The list of keys is read as it was exactly when each string at its old place is. -/
theorem readStrings_decoded_eq_iff {o : ℕ} (h : o + 16 ≤ sizeofOpPayload) :
    readStrings (decoded m a m' a') (member a' o) = readStrings m (member a o) ↔
      ∀ i < numStrings m (member a o),
        readString (decoded m a m' a') (elementAt m (member a o) i)
          = readString m (elementAt m (member a o) i) := by
  rw [readStrings_decoded m a m' a' h, readStrings, numStrings, member_member]
  simp only [elementAt, List.map_inj_left, List.mem_range]

/-- **When an entry is decoded to the payload it was made from**: exactly when the characters of its
strings, and the strings of its list, are where they were. -/
theorem readPayload_decoded_iff :
    readPayload (decoded m a m' a') a' = readPayload m a ↔
      (∀ o ∈ [8, 48, 80], ∀ x, Chars m (member a o) x → decoded m a m' a' x = m x) ∧
      ∀ i < numStrings m (member a 112),
        readString (decoded m a m' a') (elementAt m (member a 112) i)
          = readString m (elementAt m (member a 112) i) := by
  have htype := readInt32_decoded m a m' a' (o := 0) (by decide)
  have hvalue := readInt32_decoded m a m' a' (o := 40) (by decide)
  simp only [readPayload, OpPayload.mk.injEq, htype, hvalue, true_and,
    readString_decoded_eq_iff (by decide : 8 + 16 ≤ sizeofOpPayload),
    readString_decoded_eq_iff (by decide : 48 + 16 ≤ sizeofOpPayload),
    readString_decoded_eq_iff (by decide : 80 + 16 ≤ sizeofOpPayload),
    readStrings_decoded_eq_iff (by decide : 112 + 16 ≤ sizeofOpPayload),
    List.forall_mem_cons, List.not_mem_nil, false_imp_iff, implies_true, and_true, and_assoc]

/-- What is behind the pointers is enough. -/
theorem readPayload_decoded_of_kept (h : ∀ x, Behind m a x → decoded m a m' a' x = m x) :
    readPayload (decoded m a m' a') a' = readPayload m a := by
  refine readPayload_decoded_iff.mpr ⟨fun o ho x hx => h x (Or.inl ⟨o, ho, hx⟩), fun i hi => ?_⟩
  exact readString_eq_of_kept (fun k hk => h _ (Or.inr ⟨i, hi, Or.inl ⟨k, hk, rfl⟩⟩))
    fun x hx => h x (Or.inr ⟨i, hi, Or.inr hx⟩)

/-- **An entry without a list of keys is decoded to the payload it was made from exactly when what
is behind its pointers is still there.** -/
theorem decoded_iff (hkeys : (readPayload m a).keys = []) :
    readPayload (decoded m a m' a') a' = readPayload m a ↔
      ∀ x, Behind m a x → decoded m a m' a' x = m x := by
  refine ⟨fun h => ?_, readPayload_decoded_of_kept⟩
  have hnone : numStrings m (member a 112) = 0 :=
    (readStrings_eq_nil_iff m (member a 112)).mp hkeys
  rintro x (⟨o, ho, hx⟩ | ⟨i, hi, -⟩)
  · exact (readPayload_decoded_iff.mp h).1 o ho x hx
  · rw [hnone] at hi
    exact absurd hi (Nat.not_lt_zero i)

end Decoded

/-! ## 2. One's own entries -/

/-- The life of an entry in the server that makes it: the memory and the place of the payload when
it is encoded, and the memory and the place of the local `payload` when it is decoded. -/
structure OwnEntry where
  before : Mem
  payload : Addr
  after : Mem
  payloadOut : Addr

namespace OwnEntry

def log (e : OwnEntry) : List UInt8 := encLog e.before e.payload

/-- What the entry is made from. -/
def encoded (e : OwnEntry) : OpPayload := readPayload e.before e.payload

/-- Nothing behind the pointers has been written to, and the local `payload` is elsewhere. -/
def Kept (e : OwnEntry) : Prop :=
  ∀ x, Behind e.before e.payload x →
    e.after x = e.before x ∧ sizeofOpPayload ≤ (x - e.payloadOut).toNat

instance (e : OwnEntry) : Decidable e.Kept :=
  decidable_of_iff
    ((behind e.before e.payload).all fun x =>
      decide (e.after x = e.before x ∧ sizeofOpPayload ≤ (x - e.payloadOut).toNat))
    (by simp only [List.all_eq_true, mem_behind_iff, decide_eq_true_eq, Kept])

theorem Kept.readPayload_eq {e : OwnEntry} (h : e.Kept) :
    readPayload (decoded e.before e.payload e.after e.payloadOut) e.payloadOut = e.encoded := by
  refine readPayload_decoded_of_kept fun x hx => ?_
  obtain ⟨hsame, hapart⟩ := h x hx
  rw [decoded, memcpy_of_le _ ((length_encLog _ _).trans_le hapart), hsame]

/-- **A server decodes its own entry**, as long as what is behind the pointers is kept. -/
theorem Kept.decLog_eq {e : OwnEntry} (h : e.Kept) :
    ∃ mem, decLog e.log e.payloadOut e.after = .ok mem ∧
      readPayload mem e.payloadOut = e.encoded :=
  ⟨_, decLog_encLog _ _ _ _, h.readPayload_eq⟩

end OwnEntry

/-- The entry of `+ books 3`, decoded at another place of the same memory. -/
def booksEntry : OwnEntry := ⟨booksMem, 4096, booksMem, 8192⟩

theorem kept_booksEntry : booksEntry.Kept := by decide +kernel

/-- In the memory as it was, and in one where the first character of the key has become a `c`. -/
theorem decoded_books :
    readPayload (decoded booksMem 4096 booksMem 8192) 8192 = readPayload booksMem 4096 ∧
    readPayload (decoded booksMem 4096 (memcpy 4120 (str "c") booksMem) 8192) 8192
      ≠ readPayload booksMem 4096 := by
  have hkeys : (readPayload booksMem 4096).keys = [] := by decide
  constructor
  · refine (decoded_iff hkeys).mpr fun x hx => ?_
    obtain ⟨-, hapart⟩ := kept_booksEntry x hx
    exact memcpy_of_le _ ((length_encLog _ _).trans_le hapart)
  · intro h
    have hfirst : Behind booksMem 4096 4120 :=
      Or.inl ⟨8, by decide, 0, by decide, by decide⟩
    exact absurd ((decoded_iff hkeys).mp h 4120 hfirst) (by decide)

end ReplicatedMapReduce
