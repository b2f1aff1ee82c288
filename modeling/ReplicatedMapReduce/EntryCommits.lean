/-
# Committing the entries of a log store

What NuRaft has in its log are entries, and `commit` gets the data of one as it is: a payload comes
out of it only when `dec_log` has copied the data over the local `payload`, and which one depends on
where that is and on what is in the memory of the server at that moment (`LogEntry.decode`).  So a
commit of an entry is a commit of no particular payload.  Where it is known what the entry is
decoded to, it is one of the actions of `Replica.lean` (`commitEntry_of_decode`), and if that is
known of every commit of a run, the run is one over the payloads (`run_decoded`).

Entries with a configuration go to `commit_config`, which reads nothing.

When it is known is another matter.  The entry alone is not enough (`decodes_encLog_iff`); in the
server that made it, it is enough that nothing behind its pointers has been written to
(`Kept.decode`).
-/
import ReplicatedMapReduce.OwnEntries
import ReplicatedMapReduce.LogPack
import ReplicatedMapReduce.Recovery

namespace ReplicatedMapReduce

open Memory Runs

/-! ## 1. Decoding an entry -/

/-- `log_val_type::app_log`, the type of the entries that `append_entries` makes. -/
def appLog : UInt8 := 1

/-- What an entry is decoded to where the local `payload` is at `payload`.  An entry of another type
is a configuration. -/
def LogEntry.decode (entry : LogEntry) (payload : Addr) (mem : Mem) : Except Fault Entry :=
  if entry.valType = appLog then
    (decLog entry.buf payload mem).map fun mem => .payload (readPayload mem payload)
  else .ok .config

theorem LogEntry.Same.symm {a b : LogEntry} (h : a.Same b) : b.Same a :=
  ⟨h.term.symm, h.buf.symm, h.valType.symm⟩

theorem LogEntry.Same.trans {a b c : LogEntry} (h : a.Same b) (h' : b.Same c) : a.Same c :=
  ⟨h.term.trans h'.term, h.buf.trans h'.buf, h.valType.trans h'.valType⟩

/-- **In the server that made the entry**, as long as what is behind its pointers is kept, it is
decoded to the payload it was made from. -/
theorem OwnEntry.Kept.decode {e : OwnEntry} (h : e.Kept) {entry : LogEntry}
    (htype : entry.valType = appLog) (hbuf : entry.buf = e.log) :
    entry.decode e.payloadOut e.after = .ok (.payload e.encoded) := by
  obtain ⟨mem, hdec, hpayload⟩ := h.decLog_eq
  rw [LogEntry.decode, if_pos htype, hbuf, hdec, ← hpayload]
  rfl

/-! ## 2. Commits -/

/-- An entry that is committed, with where the local `payload` is, and the memory of the server. -/
structure EntryCommit where
  logIdx : UInt64
  entry : LogEntry
  payload : Addr
  mem : Mem

/-- What the entry is decoded to is what the log says. -/
def EntryCommit.Decodes (log : ℕ → Entry) (c : EntryCommit) : Prop :=
  c.entry.decode c.payload c.mem = .ok (log c.logIdx.toNat)

/-- The action on the replica that is then carried out. -/
def EntryCommit.action (log : ℕ → Entry) (c : EntryCommit) : Action :=
  (log c.logIdx.toNat).commitAt c.logIdx

/-- The commits are of these entries, the first of them at `i + 1`. -/
def CommitsFrom (i : ℕ) (entries : List LogEntry) (cs : List EntryCommit) : Prop :=
  cs.map EntryCommit.entry = entries ∧
    cs.map (fun c => c.logIdx.toNat) = List.range' (i + 1) entries.length

section NuRaft

variable [NuRaft]

/-- The call NuRaft makes for an entry.  `none`: it does not return. -/
def commitEntry (r : Replica) (c : EntryCommit) : Option Replica :=
  if c.entry.valType = appLog then
    match r.sm.commitBuffer c.logIdx c.entry.buf c.payload c.mem with
    | .ok (sm, _) => some { r with sm }
    | .error _ => none
  else some { r with sm := r.sm.commitConfig c.logIdx }

/-- **Committing an entry is committing what it is decoded to.** -/
theorem commitEntry_of_decode {c : EntryCommit} {e : Entry}
    (h : c.entry.decode c.payload c.mem = .ok e) (r : Replica) :
    commitEntry r c = step r (e.commitAt c.logIdx) := by
  rw [LogEntry.decode] at h
  rw [commitEntry]
  split at h
  · rename_i htype
    rw [if_pos htype, StateMachine.commitBuffer]
    cases hdec : decLog c.entry.buf c.payload c.mem with
    | error e =>
      rw [hdec] at h
      exact absurd h (by simp [Except.map])
    | ok mem =>
      rw [hdec] at h
      cases h
      rfl
  · rename_i htype
    rw [if_neg htype]
    cases h
    rfl

/-- An entry that cannot be decoded is not committed. -/
theorem commitEntry_of_error {c : EntryCommit} {f : Fault}
    (h : c.entry.decode c.payload c.mem = .error f) (r : Replica) : commitEntry r c = none := by
  rw [LogEntry.decode] at h
  split at h
  · rename_i htype
    rw [commitEntry, if_pos htype, StateMachine.commitBuffer]
    cases hdec : decLog c.entry.buf c.payload c.mem with
    | error e => rfl
    | ok mem =>
      rw [hdec] at h
      exact absurd h (by simp [Except.map])
  · exact absurd h (by simp)

/-- Whatever the entry is decoded to, its index is the last committed one. -/
theorem lastCommittedIdx_commitEntry {r u : Replica} {c : EntryCommit}
    (h : commitEntry r c = some u) : u.sm.lastCommittedIdx = c.logIdx := by
  cases hdec : c.entry.decode c.payload c.mem with
  | ok e =>
    rw [commitEntry_of_decode hdec] at h
    exact (step_commitAt h).1.lastCommittedIdx
  | error f => exact absurd h (by simp [commitEntry_of_error hdec])

variable {log : ℕ → Entry}

/-- **Run lemma.**  Commits of entries that are decoded as the log says are commits of the log. -/
theorem run_decoded {q q' : Replica} {cs : List EntryCommit}
    (hrun : Run commitEntry (fun _ c => c.Decodes log) q cs q') :
    Run step (fun _ _ => True) q (cs.map (EntryCommit.action log)) q' :=
  hrun.refines (f := EntryCommit.action log) fun r _ _ hdec hs =>
    ⟨trivial, (commitEntry_of_decode hdec r).symm.trans hs⟩

omit [NuRaft] in
theorem CommitsFrom.recommits_eq {i : ℕ} {entries : List LogEntry} {cs : List EntryCommit}
    (h : CommitsFrom i entries cs) :
    cs.map (EntryCommit.action log) = recommits log i (i + entries.length) := by
  rw [recommits, Nat.add_sub_cancel_left, ← h.2, List.map_map]
  refine List.map_congr_left fun c _ => ?_
  rw [EntryCommit.action, Function.comp_apply, UInt64.ofNat_toNat]

/-- **Committing the rest of the log.**  From the store of index `i`, every run that commits entries
decoded as the log says ends with the store and the answers the log defines. -/
theorem CommitsFrom.run {i : ℕ} {entries : List LogEntry} {cs : List EntryCommit}
    (h : CommitsFrom i entries cs) (hroom : i + entries.length < 2 ^ 64)
    (hsound : ∀ j, i < j → j ≤ i + entries.length → (log j).Sound) {q q' : Replica}
    (hq : q.sm.kvStore = storeAt log i)
    (hrun : Run commitEntry (fun _ c => c.Decodes log) q cs q') :
    q'.sm.kvStore = storeAt log (i + entries.length) ∧
      Answered log i (i + entries.length) q'.sm := by
  obtain ⟨t, hrun', hstore, hans⟩ := run_recommits hroom hsound hq
  have hdecoded := run_decoded hrun
  rw [h.recommits_eq] at hdecoded
  obtain rfl := hrun'.unique hdecoded
  exact ⟨hstore, hans⟩

end NuRaft

/-! ## 3. A server at whose prompt three commands are typed -/

/-- The object of a payload; the strings of its list of keys are between two addresses. -/
def payloadObject (a : Addr) (type value : ℕ) (key mapOp reduceOp : Str) (first last : Addr) :
    List UInt8 :=
  leBytes 8 type ++ shortString (a + 8) key ++ leBytes 8 value ++ shortString (a + 48) mapOp ++
    shortString (a + 80) reduceOp ++ leBytes 8 first.toNat ++ leBytes 8 last.toNat ++
    leBytes 8 last.toNat

/-- The payloads of `+ books 3`, `+ books 4` and `mapReduce --m square --r sum --k books`. -/
def promptMem : Mem :=
  memcpy 4096 (payloadObject 4096 0 3 (str "books") [] [] 0 0)
    (memcpy 4352 (payloadObject 4352 0 4 (str "books") [] [] 0 0)
      (memcpy 4608 (payloadObject 4608 3 0 (str "NULL") (str "square") (str "sum") 4864 4896)
        (memcpy 4864 (shortString 4864 (str "books")) fun _ => 0)))

/-- Each of them is decoded at one place of the same memory. -/
def promptEntry (payload : Addr) : OwnEntry := ⟨promptMem, payload, promptMem, 8192⟩

def OwnEntry.logEntry (e : OwnEntry) : LogEntry :=
  { term := 1, buf := e.log, valType := appLog, timestamp := 0, hasCrc32 := false, crc32 := 0 }

/-- The entries of `booksLog`. -/
def promptLog : ℕ → LogEntry
  | 1 => (promptEntry 4096).logEntry
  | 2 => (promptEntry 4352).logEntry
  | 3 => (promptEntry 4608).logEntry
  | _ => entryOf ""

theorem decode_promptLog {i : ℕ} (h1 : 1 ≤ i) (h3 : i ≤ 3) :
    (promptLog i).decode 8192 promptMem = .ok (booksLog i) := by
  have hkept : (promptEntry 4096).Kept ∧ (promptEntry 4352).Kept ∧ (promptEntry 4608).Kept := by
    decide +kernel
  obtain rfl | rfl | rfl : i = 1 ∨ i = 2 ∨ i = 3 := by omega
  · exact (hkept.1.decode rfl rfl).trans (by decide +kernel)
  · exact (hkept.2.1.decode rfl rfl).trans (by decide +kernel)
  · exact (hkept.2.2.decode rfl rfl).trans (by decide +kernel)

end ReplicatedMapReduce
