/-
# Handing a snapshot from a leader to a follower

A follower too far behind the log is sent a snapshot: the leader's `read_logical_snp_obj` fills a
buffer, the follower's `save_logical_snp_obj` takes it apart and stores what it finds under the
snapshot's index, and `apply_snapshot` then makes it the follower's store.

**The two ends do not agree on the framing.**  The writer puts the bare text into the buffer
(`put_raw`); the reader asks for a string (`get_str`), which is a 4-byte length and that many
bytes.  So the reader takes the first four characters of the text for a length `n`, and if that
many characters are left it parses the window of length `n` behind them.  It can never get the
store back (`not_transferred`): either the buffer is too short, or the store it reads prints at
most `n + 3` characters (`length_serialize_window_le`), while the store that was sent prints at
least `n + 4`.

**And the follower has to have made a snapshot at that very index itself.**
`save_logical_snp_obj` writes through the result of its lookup, where `read_logical_snp_obj` and
`apply_snapshot` first compare it with `end()`.  With data that decodes, the installation works
exactly when there is an entry already (`installs_iff`).
-/
import ReplicatedMapReduce.SnapshotText
import ReplicatedMapReduce.Replica

namespace ReplicatedMapReduce

open Runs

section NuRaft

variable [NuRaft]

/-! ## 1. What `get_str` can return -/

/-- A string that was read is a window of the buffer, behind its first four bytes. -/
theorem getStr_ok {data text : Str} (h : NuRaft.getStr data = .ok text) :
    ∃ n, 4 + n ≤ data.length ∧ text = (data.drop 4).take n := by
  rcases Nat.lt_or_ge data.length (4 + Memory.leValue (data.take 4)) with hshort | hlong
  · obtain ⟨e, he⟩ := NuRaft.getStr_throws data (Or.inl hshort)
    rw [he] at h
    exact absurd h (by simp)
  · rw [NuRaft.getStr_eq data hlong, Except.ok.injEq] at h
    exact ⟨_, hlong, h.symm⟩

/-! ## 2. Installing a snapshot -/

/-- The follower takes the data of object 0: the call returns, there is an entry that holds `t`
afterwards, and applying the snapshot makes `t` the store. -/
def Installs (follower : StateMachine) (s : Snapshot) (data : Str) (t : KeyValueStore) : Prop :=
  ∃ sm, follower.saveLogicalSnpObj s 0 data = .ok sm ∧
    (sm.snapshots[s.lastLogIdx]?).map SnapshotCtx.kvStore = some t ∧
    sm.applySnapshot s = (true, { sm with kvStore := t })

/-- What `save_logical_snp_obj` does with data that decodes, where there is an entry. -/
theorem saveLogicalSnpObj_of_entry {follower : StateMachine} {s : Snapshot} {data text : Str}
    {t : KeyValueStore} {entry : SnapshotCtx} (htext : NuRaft.getStr data = .ok text)
    (ht : deserializeKvStore text = .ok t)
    (hentry : follower.snapshots[s.lastLogIdx]? = some entry) :
    follower.saveLogicalSnpObj s 0 data = .ok { follower with
      snapshots := follower.snapshots.insert s.lastLogIdx { entry with kvStore := t } } := by
  simp only [StateMachine.saveLogicalSnpObj, if_true, htext, ht, hentry]

/-- And where there is none: nothing stops it from using the result of the lookup. -/
theorem saveLogicalSnpObj_of_not_entry {follower : StateMachine} {s : Snapshot} {data text : Str}
    {t : KeyValueStore} (htext : NuRaft.getStr data = .ok text)
    (ht : deserializeKvStore text = .ok t) (hentry : follower.snapshots[s.lastLogIdx]? = none) :
    follower.saveLogicalSnpObj s 0 data = .error .endDereferenced := by
  simp only [StateMachine.saveLogicalSnpObj, if_true, htext, ht, hentry]

/-- A store that was installed was read from the data. -/
theorem Installs.decodes {follower : StateMachine} {s : Snapshot} {data : Str}
    {t : KeyValueStore} (h : Installs follower s data t) :
    ∃ text, NuRaft.getStr data = .ok text ∧ deserializeKvStore text = .ok t := by
  obtain ⟨sm, hsave, hentry, -⟩ := h
  rcases StateMachine.saveLogicalSnpObj_ok hsave with
    ⟨hobj, -⟩ | ⟨text, t', entry, -, htext, ht', -, rfl⟩
  · exact absurd rfl hobj
  · rw [Std.ExtTreeMap.getElem?_insert_self, Option.map_some, Option.some.injEq] at hentry
    exact ⟨text, htext, hentry ▸ ht'⟩

/-- Whatever the state of the follower: with data that decodes to `t`, `t` is installed exactly
when the lookup finds an entry. -/
theorem installs_iff_mem {follower : StateMachine} {s : Snapshot} {data text : Str}
    {t : KeyValueStore} (htext : NuRaft.getStr data = .ok text)
    (ht : deserializeKvStore text = .ok t) :
    Installs follower s data t ↔ s.lastLogIdx ∈ follower.snapshots := by
  rw [Std.ExtTreeMap.mem_iff_isSome_getElem?]
  constructor
  · rintro ⟨sm, hsave, -⟩
    cases hentry : follower.snapshots[s.lastLogIdx]? with
    | none =>
      rw [saveLogicalSnpObj_of_not_entry htext ht hentry] at hsave
      exact absurd hsave (by simp)
    | some entry => rfl
  · intro hsome
    obtain ⟨entry, hentry⟩ := Option.isSome_iff_exists.mp hsome
    refine ⟨_, saveLogicalSnpObj_of_entry htext ht hentry, ?_, ?_⟩
    · rw [Std.ExtTreeMap.getElem?_insert_self]
      rfl
    · simp [StateMachine.applySnapshot]

/-- The calls a node gets while it is not being sent a snapshot, and the jobs it started. -/
def OwnCall : Action → Prop
  | .saveLogicalSnpObj _ _ _ => False
  | _ => True

/-- **A follower can install a snapshot exactly when it already has an entry for its index**, in
every state its own commits, snapshots and restores have brought it to. -/
theorem installs_iff {asyncSnapshot : Bool} {as : List Action} {r : Replica}
    (_hrun : Run step (fun _ a => OwnCall a) (Replica.init asyncSnapshot) as r)
    {s : Snapshot} {data text : Str} {t : KeyValueStore} (htext : NuRaft.getStr data = .ok text)
    (ht : deserializeKvStore text = .ok t) :
    Installs r.sm s data t ↔ s.lastLogIdx ∈ r.sm.snapshots :=
  installs_iff_mem htext ht

end NuRaft

/-- The store with 1 and 3 under `books`. -/
def booksStore : KeyValueStore := ⟨(∅ : Map Str (List Int32)).insert (str "books") [1, 3]⟩

/-- A node that retains one snapshot, of the given store at index 2. -/
def retaining (t : KeyValueStore) : StateMachine :=
  { StateMachine.init false with snapshots := (∅ : Map _ _).insert 2 ⟨⟨2, 1⟩, t⟩ }

/-- The text of `booksStore`, as `get_str` expects it. -/
def booksData : Str := [11, 0, 0, 0] ++ str "books:1,3,;"

theorem installs_iff_books :
    @Installs littleEndian (StateMachine.init true) ⟨2, 1⟩ booksData booksStore ↔
      (2 : UInt64) ∈ (StateMachine.init true).snapshots := by
  let := littleEndian
  have htext : NuRaft.getStr booksData = .ok (str "books:1,3,;") := by decide
  have ht : deserializeKvStore (str "books:1,3,;") = .ok booksStore := by decide
  exact installs_iff (Run.refl (Replica.init true)) htext ht

/-- A follower that has just started cannot be brought up to date. -/
theorem not_installs_fresh :
    ¬ ∀ (as : List Action) (r : Replica) (s : Snapshot) (data text : Str) (t : KeyValueStore),
      @Run _ _ (@step littleEndian) (fun _ a => OwnCall a) (Replica.init false) as r →
      littleEndian.getStr data = .ok text → deserializeKvStore text = .ok t →
      @Installs littleEndian r.sm s data t := by
  let := littleEndian
  intro h
  obtain ⟨sm, hsave, -⟩ := h [] (Replica.init false) ⟨2, 1⟩ booksData (str "books:1,3,;") booksStore
    (Run.refl _) (by decide) (by decide)
  rw [show (Replica.init false).sm.saveLogicalSnpObj ⟨2, 1⟩ 0 booksData = .error .endDereferenced
    by decide] at hsave
  exact absurd hsave (by simp)

section NuRaft

variable [NuRaft]

/-! ## 3. From the leader to the follower -/

/-- Object 0 of the leader's snapshot, handed to the follower, installs `t` there. -/
def Transferred (leader follower : StateMachine) (s : Snapshot) (t : KeyValueStore) : Prop :=
  ∃ data, (leader.readLogicalSnpObj s 0).1 = some data ∧ Installs follower s data t

/-- **No snapshot ever arrives**, whatever store the leader retains and whatever the follower
has. -/
theorem not_transferred {leader : StateMachine} (follower : StateMachine) {s : Snapshot}
    {ctx : SnapshotCtx} (hleader : leader.snapshots[s.lastLogIdx]? = some ctx) :
    ¬ Transferred leader follower s ctx.kvStore := by
  rintro ⟨data, hread, hinstalls⟩
  have hdata : data = serializeKvStore ctx.kvStore := by
    simp only [StateMachine.readLogicalSnpObj, hleader, if_true, NuRaft.putRaw_eq,
      Option.some.injEq] at hread
    exact hread.symm
  obtain ⟨text, htext, hstore⟩ := hinstalls.decodes
  obtain ⟨n, hn, rfl⟩ := getStr_ok htext
  rw [hdata] at hn hstore
  -- what was read has clean keys, so its text is the text that was sent
  have hclean : CleanKeys ctx.kvStore := cleanKeys_of_deserialize hstore
  have hlen := length_serialize_window_le hclean 4 n hstore
  omega

end NuRaft

theorem not_transferred_books :
    ¬ @Transferred littleEndian (retaining booksStore) (retaining ∅) ⟨2, 1⟩ booksStore := by
  let := littleEndian
  have hleader : (retaining booksStore).snapshots[(⟨2, 1⟩ : Snapshot).lastLogIdx]?
      = some ⟨⟨2, 1⟩, booksStore⟩ := by decide
  exact not_transferred (retaining ∅) hleader

/-- `books:1,3,;` is read as a string of more than a thousand million bytes. -/
theorem transfer_books_throws :
    ¬ ∀ (leader follower : StateMachine) (s : Snapshot) (ctx : SnapshotCtx),
      deserializeKvStore (serializeKvStore ctx.kvStore) = .ok ctx.kvStore →
      leader.snapshots[s.lastLogIdx]? = some ctx → s.lastLogIdx ∈ follower.snapshots →
      @Transferred littleEndian leader follower s ctx.kvStore := by
  let := littleEndian
  intro h
  obtain ⟨data, hread, sm, hsave, -⟩ := h (retaining booksStore) (retaining ∅) ⟨2, 1⟩
    ⟨⟨2, 1⟩, booksStore⟩ (by decide) (by decide) (by decide)
  rw [show ((retaining booksStore).readLogicalSnpObj ⟨2, 1⟩ 0).1 = some (str "books:1,3,;")
    by decide] at hread
  cases hread
  rw [show (retaining ∅).saveLogicalSnpObj ⟨2, 1⟩ 0 (str "books:1,3,;")
    = .error (.thrown .notEnoughData) by decide] at hsave
  exact absurd hsave (by simp)

end ReplicatedMapReduce
