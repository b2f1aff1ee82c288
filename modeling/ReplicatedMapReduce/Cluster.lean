/-
# The cluster

Several members, each driven by NuRaft at its own pace: what one of them appends, commits or
compacts says nothing about when another one does.  All that consensus gives is that whatever entry
a member commits at an index is the one the cluster has agreed on there; that it decodes the entry
to the payload that was meant is asked of each member beside that (`Driven`).

From that the members agree (`agreement`), in every interleaving: on the store, whenever they have
committed equally far; on the answer to every map-reduce both have committed; and on the committed
entries both still have in their log stores, even though these may have been compacted at different
indices.

A member that is behind catches up from the log store of any other one that reaches back far enough,
and from no other (`bringsUp_iff`): a snapshot is only taken by a member that has one at the same
index already, and one that is behind has not.

A server that is new to the cluster gets the log as a pack.  As long as the log of the leader has
never been compacted that is all it needs (`joining`); afterwards `pack` asserts.

At an entry that asks for an operation which does not exist every member stops (`stopped_at`).
-/
import ReplicatedMapReduce.Member

namespace ReplicatedMapReduce

open Memory Runs

variable {raftLog : ℕ → LogEntry} {log : ℕ → Entry}

/-! ## 1. Agreement -/

/-- The answer to a map-reduce that has been committed is what the log defines. -/
theorem Recorded.getMapReduceResults {r : Replica} (h : Recorded log r) {j : UInt64} (hpos : 0 < j)
    (hj : j ≤ r.sm.lastCommittedIdx) {p : OpPayload} (hp : log j.toNat = .payload p)
    (htype : p.type = .mapReduce) :
    resultsAt log j.toNat = some (r.sm.getMapReduceResults j) := by
  rw [UInt64.lt_iff_toNat_lt] at hpos
  rw [UInt64.le_iff_toNat_le] at hj
  have hzero : (0 : UInt64).toNat = 0 := rfl
  have hsound : p.Sound := by
    have hentry := h.sound j.toNat (by omega) hj
    rwa [hp] at hentry
  obtain ⟨results, -, hresults⟩ := Entry.results_payload htype hsound (storeAt log (j.toNat - 1))
  have hresults' : resultsAt log j.toNat = some results := by rw [resultsAt, hp, hresults]
  rw [hresults', StateMachine.getMapReduceResults, h.answered j results (by omega) hj hresults']
  rfl

section NuRaft

variable [NuRaft] [LogBuffers]

/-- **The members of a cluster agree.**  In every interleaving of their events, any two members
that have committed up to the same index have the same store; they have the same answer to every
map-reduce both have committed, and the same entry, but for timestamp and checksum, at every index
both have committed and still have in the log store. -/
theorem agreement {ι : Type} [DecidableEq ι] {dummy : ι → LogEntry} {es : List (ι × MemberEvent)}
    {c : ι → Member}
    (hrun : Run (interleave memberStep) (fun c e => Driven raftLog log (c e.1) e.2)
      (fun k => Member.init (dummy k)) es c) (a b : ι) :
    ((c a).replica.sm.lastCommittedIdx = (c b).replica.sm.lastCommittedIdx →
      (c a).replica.sm.kvStore = (c b).replica.sm.kvStore) ∧
    (∀ (j : UInt64) (p : OpPayload), 0 < j → j ≤ (c a).replica.sm.lastCommittedIdx →
      j ≤ (c b).replica.sm.lastCommittedIdx → log j.toNat = .payload p → p.type = .mapReduce →
      (c a).replica.sm.getMapReduceResults j = (c b).replica.sm.getMapReduceResults j) ∧
    (∀ (i : UInt64) (entry entry' : LogEntry), i ≠ 0 → i ≤ (c a).replica.sm.lastCommittedIdx →
      i ≤ (c b).replica.sm.lastCommittedIdx → (c a).logStore.logs[i]? = some entry →
      (c b).logStore.logs[i]? = some entry' → entry.Same entry') := by
  obtain ⟨w, hw⟩ := inStep_of_run (hrun.project a)
  obtain ⟨v, hv⟩ := inStep_of_run (hrun.project b)
  refine ⟨fun hsame => ?_, fun j p hpos ha hb hp htype => ?_,
    fun i entry entry' hi ha hb hentry hentry' => ?_⟩
  · have htracks := hw.recorded.tracks
    rw [TracksLog, hsame] at htracks
    exact htracks.trans hv.recorded.tracks.symm
  · have hanswer := hw.recorded.getMapReduceResults hpos ha hp htype
    rw [hv.recorded.getMapReduceResults hpos hb hp htype, Option.some.injEq] at hanswer
    exact hanswer.symm
  · rw [hw.holds.lookup i hi] at hentry
    rw [hv.holds.lookup i hi] at hentry'
    have hsame := hw.agrees _ entry (UInt64.le_iff_toNat_le.mp ha) hentry
    exact hsame.trans (hv.agrees _ entry' (UInt64.le_iff_toNat_le.mp hb) hentry').symm

/-! ## 2. Catching up -/

/-- What `a` has for a member `b` that has committed less: the entries that bring it to the same
store, whenever it commits them and decodes them to what was meant, or a snapshot beyond its last
commit that it can take. -/
def Member.BringsUp (log : ℕ → Entry) (a b : Member) : Prop :=
  (∃ entries, a.logStore.logEntries b.nextCommit a.nextCommit = .ok entries ∧
    ∀ (q : Replica) (cs : List EntryCommit),
      CommitsFrom b.replica.sm.lastCommittedIdx.toNat entries cs →
      Run commitEntry (fun _ c => c.Decodes log) b.replica cs q →
      q.sm.kvStore = a.replica.sm.kvStore) ∨
  ∃ (s : Snapshot) (data : Str) (sm : StateMachine),
    b.replica.sm.lastCommittedIdx < s.lastLogIdx ∧
    (a.replica.sm.readLogicalSnpObj s 0).1 = some data ∧
    b.replica.sm.saveLogicalSnpObj s 0 data = .ok sm

omit [LogBuffers] in
/-- A snapshot beyond its last commit is not one a member can take: it has no entry for it. -/
theorem InStep.not_saves {m : Member} {w : Window LogEntry} (h : InStep raftLog log m w)
    {s : Snapshot} (hs : m.replica.sm.lastCommittedIdx < s.lastLogIdx) :
    m.replica.sm.snapshots[s.lastLogIdx]? = none ∧
      ∀ (data : Str) (sm : StateMachine), m.replica.sm.saveLogicalSnpObj s 0 data ≠ .ok sm := by
  have hnone : m.replica.sm.snapshots[s.lastLogIdx]? = none := by
    refine Std.ExtTreeMap.getElem?_eq_none fun hmem => ?_
    rw [UInt64.lt_iff_toNat_lt] at hs
    exact absurd hs (Nat.not_lt.mpr (h.recorded.notAhead _ hmem))
  refine ⟨hnone, fun data sm hsave => ?_⟩
  rcases StateMachine.saveLogicalSnpObj_ok hsave with
    ⟨hobj, -⟩ | ⟨text, kvStore, entry, -, -, -, hentry, -⟩
  · exact hobj rfl
  · rw [hnone] at hentry
    exact absurd hentry (by simp)

omit [NuRaft] [LogBuffers] in
/-- A member reads what another one has committed beyond its own last commit if its log reaches back
to that, and otherwise the assertion fails. -/
theorem InStep.logEntries_nextCommit {a b : Member} {v w : Window LogEntry}
    (hv : InStep raftLog log a v) (hw : InStep raftLog log b w)
    (hle : b.replica.sm.lastCommittedIdx ≤ a.replica.sm.lastCommittedIdx) :
    a.logStore.logEntries b.nextCommit a.nextCommit =
      if a.logStore.startIdx ≤ b.nextCommit
      then .ok (v.slice b.nextCommit.toNat a.nextCommit.toNat) else .error .assertionFailed := by
  have hcommit := hv.toNat_nextCommit
  have hcommit' := hw.toNat_nextCommit
  have hahead := hv.ahead
  have hcovers := hv.covers
  have hsnap := hv.lastSnapshotIdx_le
  rw [UInt64.le_iff_toNat_le] at hle
  have hstart : b.nextCommit ≠ 0 := by
    rw [Holds.toNat_ne_zero, hcommit']
    exact Nat.succ_ne_zero _
  have hstop : b.nextCommit ≤ a.nextCommit := by
    rw [UInt64.le_iff_toNat_le, hcommit, hcommit']
    exact Nat.succ_le_succ hle
  have hreach : a.logStore.startIdx ≤ b.nextCommit ↔ v.first ≤ b.nextCommit.toNat := by
    rw [UInt64.le_iff_toNat_le, hv.holds.start]
  rw [hv.holds.logEntries_eq hstart hstop]
  refine if_congr (Iff.trans ⟨?_, fun hfirst => Or.inr ⟨hfirst, by omega⟩⟩ hreach.symm) rfl rfl
  rintro (heq | ⟨hfirst, -⟩)
  · -- both have committed equally far, and a log is not compacted beyond the last commit
    rw [heq]
    omega
  · exact hfirst

/-- **Who can catch up.**  In every interleaving of the members' events, a member brings another
one that has not committed more to its own store exactly if its log reaches back to the other's last
commit.  If it does not, reading the entries fails on the assertion.  No snapshot makes up for them:
for none beyond its last commit has the other one an entry, and no data is taken for it. -/
theorem bringsUp_iff {ι : Type} [DecidableEq ι] {dummy : ι → LogEntry}
    {es : List (ι × MemberEvent)} {c : ι → Member}
    (hrun : Run (interleave memberStep) (fun c e => Driven raftLog log (c e.1) e.2)
      (fun k => Member.init (dummy k)) es c) (a b : ι)
    (hle : (c b).replica.sm.lastCommittedIdx ≤ (c a).replica.sm.lastCommittedIdx) :
    ((c a).BringsUp log (c b) ↔ (c a).logStore.startIdx ≤ (c b).nextCommit) ∧
    (¬ (c a).logStore.startIdx ≤ (c b).nextCommit →
      (c a).logStore.logEntries (c b).nextCommit (c a).nextCommit = .error .assertionFailed) ∧
    ∀ s : Snapshot, (c b).replica.sm.lastCommittedIdx < s.lastLogIdx →
      (c b).replica.sm.snapshots[s.lastLogIdx]? = none ∧
      ∀ (data : Str) (sm : StateMachine),
        (c b).replica.sm.saveLogicalSnpObj s 0 data ≠ .ok sm := by
  obtain ⟨v, hv⟩ := inStep_of_run (hrun.project a)
  obtain ⟨w, hw⟩ := inStep_of_run (hrun.project b)
  have hread := hv.logEntries_nextCommit hw hle
  refine ⟨⟨?_, fun hstart => ?_⟩, fun hstart => ?_, fun s hs => hw.not_saves hs⟩
  · rintro (⟨entries, hentries, -⟩ | ⟨s, data, sm, hlt, -, hsave⟩)
    · by_contra hstart
      rw [hread, if_neg hstart] at hentries
      exact absurd hentries (by simp)
    · exact absurd hsave ((hw.not_saves hlt).2 data sm)
  · have hfirst : v.first ≤ (c b).replica.sm.lastCommittedIdx.toNat + 1 := by
      rwa [UInt64.le_iff_toNat_le, hv.holds.start, hw.toNat_nextCommit] at hstart
    obtain ⟨entries, hentries, hcommits⟩ := hv.catch_up hfirst hle
    refine Or.inl ⟨entries, hentries, fun q cs hcs hrun' => ?_⟩
    exact (hcommits _ q cs hw.recorded.tracks hcs hrun').1
  · rw [hread, if_neg hstart]

/-! ## 3. Joining -/

/-- Commits of the next entries, one after the other. -/
def commitsNext (cs : List (Addr × Mem)) : List MemberEvent :=
  cs.map fun c => .commitNext c.1 c.2

/-- **A member commits what it has**, one entry after the other, and decodes it to what was meant.
That the entries are the ones agreed on is known of all it has. -/
theorem InStep.run_commitsNext {m m' : Member} {w : Window LogEntry} (h : InStep raftLog log m w)
    (hagreed : ∀ i entry, w.get i = some entry → entry.Same (raftLog i))
    {cs : List (Addr × Mem)}
    (hnext : m.replica.sm.lastCommittedIdx.toNat + cs.length < w.next)
    (hrun : Run memberStep (fun m e => ∀ payload mem, e = .commitNext payload mem →
      m.DecodesNext log payload mem) m (commitsNext cs) m') :
    InStep raftLog log m' w ∧
      m'.replica.sm.lastCommittedIdx.toNat = m.replica.sm.lastCommittedIdx.toNat + cs.length := by
  induction cs generalizing m with
  | nil =>
    cases hrun
    exact ⟨h, rfl⟩
  | cons c cs ih =>
    rw [List.length_cons] at hnext
    cases hrun with
    | @cons _ u _ _ _ hdec hs hrest =>
      have hcommit := h.toNat_nextCommit
      have hslot : m.nextCommit < m.logStore.nextSlot := by
        rw [UInt64.lt_iff_toNat_lt, h.holds.toNat_nextSlot]
        omega
      obtain ⟨entry, hget, hentry⟩ := h.entryAt_nextCommit hslot
      have hdec' := hdec c.1 c.2 rfl
      have hdriven : Driven raftLog log m (.commitNext c.1 c.2) := by
        refine ⟨hslot, fun entry' hentry' => ?_, hdec'⟩
        rw [hentry] at hentry'
        cases hentry'
        exact hagreed _ entry hget
      have hu := h.commitNext hdriven hs
      have hlast : u.replica.sm.lastCommittedIdx.toNat
          = m.replica.sm.lastCommittedIdx.toNat + 1 := by
        rw [memberStep_commitNext hentry (hdec' entry hentry), Option.map_eq_some_iff] at hs
        obtain ⟨r, hr, rfl⟩ := hs
        rw [← hcommit]
        exact congrArg UInt64.toNat (step_commitAt hr).1.lastCommittedIdx
      obtain ⟨hm', hlast'⟩ := ih hu (by omega) hrest
      refine ⟨hm', ?_⟩
      rw [hlast', hlast, List.length_cons]
      omega

omit [NuRaft] in
/-- The first entries of a log that has not been compacted, as a pack and as what arrives. -/
theorem Holds.pack_first {s : InmemLogStore} {w : Window LogEntry} (h : Holds s w)
    (hfirst : w.first = 1) {n : ℕ} (hn : n < w.next) (hcnt : n < 2 ^ 31)
    (hsize : ∀ (i : UInt64) (entry : LogEntry), i ≠ 0 → i.toNat ≤ n → s.logs[i]? = some entry →
      (LogBuffers.serialize entry).length < 2 ^ 31) :
    ∃ data arrived, s.pack 1 n = .ok data ∧ InmemLogStore.unpack data = (arrived, .ok ()) ∧
      arrived.length = n ∧
      ∀ i entry', 0 < i → arrived[i - 1]? = some entry' →
        ∃ entry, w.get i = some entry ∧ entry'.Same entry := by
  have hone : (1 : UInt64).toNat = 1 := rfl
  have hlt := h.next_lt
  have hpack := h.pack_eq (by decide : (1 : UInt64) ≠ 0)
    (by omega : (1 : UInt64).toNat + n < 2 ^ 64)
  rw [if_pos (Or.inr (by omega)), hone] at hpack
  have hlen : (w.slice 1 (1 + n)).length = n := by
    rw [Window.length_slice (by omega) (by omega), Nat.add_sub_cancel_left]
  have hslice : ∀ k, k < n → (w.slice 1 (1 + n))[k]? = w.get (k + 1) := by
    intro k hk
    rw [Window.getElem?_slice (by omega), if_pos (by omega), Nat.add_comm]
  have hsize' : ∀ entry ∈ w.slice 1 (1 + n), (LogBuffers.serialize entry).length < 2 ^ 31 := by
    intro entry hentry
    obtain ⟨k, hk, hget⟩ := List.mem_iff_getElem.mp hentry
    have hidx : (UInt64.ofNat (k + 1)).toNat = k + 1 := by
      have hlt' : k + 1 < 2 ^ 64 := by omega
      exact UInt64.toNat_ofNat_of_lt' hlt'
    have hne : UInt64.ofNat (k + 1) ≠ 0 := Holds.toNat_ne_zero.mpr (by omega)
    refine hsize (UInt64.ofNat (k + 1)) entry hne (by omega) ?_
    rw [h.lookup _ hne, hidx, ← hslice k (by omega), List.getElem?_eq_getElem hk, hget]
  obtain ⟨arrived, hunpack, hall⟩ := InmemLogStore.unpack_packed (by omega) hsize'
  refine ⟨_, arrived, hpack, hunpack, hall.length_eq.trans hlen, fun i entry' hi hentry' => ?_⟩
  obtain ⟨hk, rfl⟩ := List.getElem?_eq_some_iff.mp hentry'
  have hk' : i - 1 < (w.slice 1 (1 + n)).length := hall.length_eq ▸ hk
  refine ⟨(w.slice 1 (1 + n))[i - 1], ?_, hall.get hk hk'⟩
  have hget := hslice (i - 1) (by omega)
  rw [Nat.sub_add_cancel hi] at hget
  rw [← hget, List.getElem?_eq_getElem hk']

/-- **Joining.**  Let a leader have committed something.  If its log begins at index 1, the
committed entries go to a new server as one pack, and it has the same ones at the same indices, but
for timestamp and checksum; and in every run in which it commits them, decoding each to the payload
that was meant, it ends with the store of the leader and its answers.  If the log of the leader has
been compacted, packing the beginning of it fails. -/
theorem joining {dummy : LogEntry} (dummy' : LogEntry) {es : List MemberEvent} {leader : Member}
    {n : ℕ}
    (hrun : Run memberStep (Driven raftLog log) (Member.init dummy) es leader)
    (hn : n = leader.replica.sm.lastCommittedIdx.toNat) (hpos : 0 < n) (hcnt : n < 2 ^ 31)
    (hsize : ∀ (i : UInt64) (entry : LogEntry), i ≠ 0 → i.toNat ≤ n →
      leader.logStore.logs[i]? = some entry → (LogBuffers.serialize entry).length < 2 ^ 31) :
    (leader.logStore.startIdx = 1 →
      ∃ data joined, leader.logStore.pack 1 n = .ok data ∧
        memberStep (Member.init dummy') (.sync data) = some joined ∧
        (∀ i : UInt64, 0 < i → i ≤ leader.replica.sm.lastCommittedIdx →
          ∃ entry entry', leader.logStore.logs[i]? = some entry ∧
            joined.logStore.logs[i]? = some entry' ∧ entry'.Same entry) ∧
        ∀ (cs : List (Addr × Mem)) (m : Member), cs.length = n →
          Run memberStep (fun m e => ∀ payload mem, e = .commitNext payload mem →
            m.DecodesNext log payload mem) joined (commitsNext cs) m →
          m.replica.sm.lastCommittedIdx = leader.replica.sm.lastCommittedIdx ∧
          m.replica.sm.kvStore = leader.replica.sm.kvStore ∧
          ∀ (j : UInt64) (p : OpPayload), 0 < j → j ≤ leader.replica.sm.lastCommittedIdx →
            log j.toNat = .payload p → p.type = .mapReduce →
            m.replica.sm.getMapReduceResults j = leader.replica.sm.getMapReduceResults j) ∧
    (leader.logStore.startIdx ≠ 1 → leader.logStore.pack 1 n = .error .assertionFailed) := by
  obtain ⟨w, h⟩ := inStep_of_run hrun
  have hahead := h.ahead
  have hlt := h.holds.next_lt
  have hone : (1 : UInt64).toNat = 1 := rfl
  have hstart : leader.logStore.startIdx = 1 ↔ w.first = 1 := by
    rw [← h.holds.start, ← hone, UInt64.toNat_inj]
  refine ⟨fun hfirst => ?_, fun hfirst => ?_⟩
  · rw [hstart] at hfirst
    obtain ⟨data, arrived, hpack, hunpack, hlen, harrived⟩ :=
      h.holds.pack_first hfirst (by omega) hcnt hsize
    -- the new server has the entries that arrived, from index 1 on
    have hinit := inStep_init raftLog log dummy'
    have hnextSlot : (Member.init dummy').logStore.nextSlot.toNat = 1 := hinit.holds.toNat_nextSlot
    have hdriven : Driven raftLog log (Member.init dummy') (.sync data) := by
      rw [Driven, hunpack, hnextSlot]
      dsimp only
      exact ⟨List.length_pos_iff.mp (by omega), by omega⟩
    obtain ⟨joined, hjoined⟩ : ∃ joined, memberStep (Member.init dummy') (.sync data)
        = some joined := ⟨_, rfl⟩
    have hin : InStep raftLog log joined ((⟨1, []⟩ : Window LogEntry).patch 1 arrived) := by
      have hsync := hinit.sync hdriven hjoined
      rwa [hunpack] at hsync
    have hzero : joined.replica.sm.lastCommittedIdx.toNat = 0 := by
      cases hjoined
      rfl
    have htouch : (⟨1, []⟩ : Window LogEntry).Touches 1 arrived.length := Or.inl rfl
    have hnext : ((⟨1, []⟩ : Window LogEntry).patch 1 arrived).next = 1 + arrived.length := by
      rw [Window.next_patch htouch, if_pos rfl]
    have hget : ∀ i, 0 < i → i ≤ n →
        ((⟨1, []⟩ : Window LogEntry).patch 1 arrived).get i = arrived[i - 1]? := by
      intro i h1 h2
      rw [Window.get_patch htouch, if_pos (by omega)]
    have hagreed : ∀ i entry', ((⟨1, []⟩ : Window LogEntry).patch 1 arrived).get i = some entry' →
        entry'.Same (raftLog i) := by
      intro i entry' hentry'
      have hi := Window.isSome_get_iff.mp (Option.isSome_iff_exists.mpr ⟨entry', hentry'⟩)
      have hpos' := hin.holds.first_pos
      rw [hget i (by omega) (by omega)] at hentry'
      obtain ⟨entry, hentry, hsame⟩ := harrived i entry' (by omega) hentry'
      exact hsame.trans (h.agrees i entry (by omega) hentry)
    refine ⟨data, joined, hpack, hjoined, fun i h1 h2 => ?_, fun cs m hcs hcommits => ?_⟩
    · rw [UInt64.lt_iff_toNat_lt] at h1
      rw [UInt64.le_iff_toNat_le, ← hn] at h2
      have hzero' : (0 : UInt64).toNat = 0 := rfl
      have hi : i ≠ 0 := Holds.toNat_ne_zero.mpr (by omega)
      obtain ⟨entry', hentry'⟩ : ∃ entry', arrived[i.toNat - 1]? = some entry' :=
        ⟨_, List.getElem?_eq_getElem (by omega)⟩
      obtain ⟨entry, hentry, hsame⟩ := harrived _ entry' (by omega) hentry'
      refine ⟨entry, entry', (h.holds.lookup i hi).trans hentry, ?_, hsame⟩
      exact ((hin.holds.lookup i hi).trans (hget _ (by omega) h2)).trans hentry'
    · obtain ⟨hm, hlast⟩ := hin.run_commitsNext hagreed (by omega) hcommits
      rw [hzero, Nat.zero_add, hcs, hn, UInt64.toNat_inj] at hlast
      refine ⟨hlast, ?_, fun j p h1 h2 hp htype => ?_⟩
      · have htracks := hm.recorded.tracks
        rw [TracksLog, hlast] at htracks
        exact htracks.trans h.recorded.tracks.symm
      · have hanswer := hm.recorded.getMapReduceResults h1 (hlast ▸ h2) hp htype
        rw [h.recorded.getMapReduceResults h1 h2 hp htype, Option.some.injEq] at hanswer
        exact hanswer.symm
  · rw [ne_eq, hstart] at hfirst
    have hwpos := h.holds.first_pos
    rw [h.holds.pack_eq (by decide) (by omega : (1 : UInt64).toNat + n < 2 ^ 64), if_neg (by omega)]

/-! ## 4. Where every member stops -/

/-- **No member gets past an entry that cannot be committed.**  In every interleaving of the
members' events, if the agreed entry at an index is a map-reduce with an operation that does not
exist, the last commit of every member is in front of it. -/
theorem stopped_at {ι : Type} [DecidableEq ι] {dummy : ι → LogEntry}
    {es : List (ι × MemberEvent)} {c : ι → Member}
    (hrun : Run (interleave memberStep) (fun c e => Driven raftLog log (c e.1) e.2)
      (fun k => Member.init (dummy k)) es c) {i : ℕ} {p : OpPayload} (hpos : 0 < i)
    (hp : log i = .payload p) (htype : p.type = .mapReduce)
    (hmissing : ¬ MapReduce.Existing p.mapOp p.reduceOp) (k : ι) :
    (c k).replica.sm.lastCommittedIdx.toNat < i := by
  obtain ⟨w, hw⟩ := inStep_of_run (hrun.project k)
  by_contra hle
  have hsound := hw.recorded.sound i hpos (by omega)
  rw [hp] at hsound
  exact hmissing (hsound htype)

end NuRaft

/-- Two members with the same entry, one of which has made a snapshot and compacted it away. -/
theorem run_twoMembers : ∃ c : Bool → Member,
    @Run _ _ (interleave (@memberStep littleEndian littleEndianEntries))
      (fun c e => @Driven promptLog booksLog littleEndianEntries (c e.1) e.2)
      (fun _ => Member.init (entryOf ""))
      [(false, .append (promptLog 1)), (true, .append (promptLog 1)),
        (true, .commitNext 8192 promptMem), (false, .commitNext 8192 promptMem),
        (false, .createSnapshot ⟨1, 1⟩), (false, .compact 1)] c ∧
    (c false).replica.sm.lastCommittedIdx = (c true).replica.sm.lastCommittedIdx ∧
    ((c false).logStore.logs[(1 : UInt64)]?).isSome = false ∧
    ((c true).logStore.logs[(1 : UInt64)]?).isSome = true := by
  let := littleEndian
  let := littleEndianEntries
  have hroom : ∀ n, n < 10 → n + 1 < 2 ^ 64 := by
    intro n hn
    omega
  exact ⟨_, Run.cons (hroom 1 (by decide)) rfl (Run.cons (hroom 1 (by decide)) rfl
    (Run.cons (driven_promptLog (i := 1) (by decide) (by decide) (by decide) rfl rfl rfl)
      (interleave_eq (memberStep_promptLog (i := 1) (by decide) (by decide) rfl rfl))
    (Run.cons (driven_promptLog (i := 1) (by decide) (by decide) (by decide) rfl rfl rfl)
      (interleave_eq (memberStep_promptLog (i := 1) (by decide) (by decide) rfl rfl))
    (Run.cons rfl rfl
    (Run.cons (by rw [Driven]; decide) rfl (Run.refl _)))))), by decide, by decide, by decide⟩

/-- They have the same store. -/
theorem agreement_books : ∃ c : Bool → Member,
    (c false).replica.sm.kvStore = (c true).replica.sm.kvStore ∧
    ((c false).logStore.logs[(1 : UInt64)]?).isSome = false ∧
    ((c true).logStore.logs[(1 : UInt64)]?).isSome = true := by
  let := littleEndian
  let := littleEndianEntries
  obtain ⟨c, hrun, hsame, hfalse, htrue⟩ := run_twoMembers
  exact ⟨c, (agreement hrun false true).1 hsame, hfalse, htrue⟩

/-- One of the two members has not committed the entry when the other one compacts it away. -/
theorem bringsUp_books : ∃ c : Bool → Member,
    (c false).logStore.startIdx = 2 ∧ (c true).nextCommit = 1 ∧
    ¬ @Member.BringsUp littleEndian booksLog (c false) (c true) ∧
    (c false).logStore.logEntries 1 2 = .error .assertionFailed := by
  let := littleEndian
  let := littleEndianEntries
  have hroom : ∀ n, n < 10 → n + 1 < 2 ^ 64 := by
    intro n hn
    omega
  have hrun : ∃ c : Bool → Member, Run (interleave memberStep)
      (fun c e => Driven promptLog booksLog (c e.1) e.2) (fun _ => Member.init (entryOf ""))
      [(false, .append (promptLog 1)), (true, .append (promptLog 1)),
        (false, .commitNext 8192 promptMem), (false, .createSnapshot ⟨1, 1⟩),
        (false, .compact 1)] c ∧
      (c true).replica.sm.lastCommittedIdx ≤ (c false).replica.sm.lastCommittedIdx ∧
      (c false).logStore.startIdx = 2 ∧ (c true).nextCommit = 1 ∧ (c false).nextCommit = 2 :=
    ⟨_, Run.cons (hroom 1 (by decide)) rfl (Run.cons (hroom 1 (by decide)) rfl
      (Run.cons (driven_promptLog (i := 1) (by decide) (by decide) (by decide) rfl rfl rfl)
        (interleave_eq (memberStep_promptLog (i := 1) (by decide) (by decide) rfl rfl))
      (Run.cons rfl rfl
      (Run.cons (by rw [Driven]; decide) rfl (Run.refl _))))), by decide, by decide, by decide,
      by decide⟩
  obtain ⟨c, hrun, hle, hstart, hnext, hnext'⟩ := hrun
  obtain ⟨hiff, hfails, -⟩ := bringsUp_iff hrun false true hle
  have hbehind : ¬ (c false).logStore.startIdx ≤ (c true).nextCommit := by
    rw [hstart, hnext]
    decide
  have hread := hfails hbehind
  rw [hnext, hnext'] at hread
  exact ⟨c, hstart, hnext, fun h => hbehind (hiff.mp h), hread⟩

/-- A new server gets two entries and has the store of the leader when it has committed them. -/
theorem joining_books : ∃ (leader joined m : Member) (data : Str),
    @InmemLogStore.pack littleEndianEntries leader.logStore 1 2 = .ok data ∧
    @memberStep littleEndian littleEndianEntries (Member.init (entryOf "")) (.sync data)
      = some joined ∧
    @Run _ _ (@memberStep littleEndian littleEndianEntries) (fun m e => ∀ payload mem,
        e = .commitNext payload mem → m.DecodesNext booksLog payload mem) joined
      [.commitNext 8192 promptMem, .commitNext 8192 promptMem] m ∧
    m.replica.sm.kvStore = leader.replica.sm.kvStore := by
  let := littleEndian
  let := littleEndianEntries
  have hroom : ∀ n, n < 10 → n + 1 < 2 ^ 64 := by
    intro n hn
    omega
  have hrun : ∃ leader, Run memberStep (Driven promptLog booksLog) (Member.init (entryOf ""))
      [.append (promptLog 1), .append (promptLog 2), .commitNext 8192 promptMem,
        .commitNext 8192 promptMem] leader ∧
      leader.logStore = (((InmemLogStore.init (entryOf "")).append (promptLog 1)).2.append
        (promptLog 2)).2 ∧ leader.replica.sm.lastCommittedIdx = 2 :=
    ⟨_, Run.cons (hroom 1 (by decide)) rfl (Run.cons (hroom 2 (by decide)) rfl
      (Run.cons (driven_promptLog (i := 1) (by decide) (by decide) (by decide) rfl rfl rfl)
        (memberStep_promptLog (i := 1) (by decide) (by decide) rfl rfl)
      (Run.cons (driven_promptLog (i := 2) (by decide) (by decide) (by decide) rfl rfl rfl)
        (memberStep_promptLog (i := 2) (by decide) (by decide) rfl rfl) (Run.refl _)))), rfl,
      by decide⟩
  obtain ⟨leader, hrun, hstore, hlast⟩ := hrun
  have hholds : Holds leader.logStore ⟨1, [promptLog 1, promptLog 2]⟩ := by
    rw [hstore]
    exact (((holds_init _).append _ (by decide)).2.append _ (by decide)).2
  have hlength : (LogBuffers.serialize (promptLog 1)).length < 2 ^ 31 ∧
      (LogBuffers.serialize (promptLog 2)).length < 2 ^ 31 := by decide +kernel
  have hsize : ∀ (i : UInt64) (entry : LogEntry), i ≠ 0 → i.toNat ≤ 2 →
      leader.logStore.logs[i]? = some entry → (LogBuffers.serialize entry).length < 2 ^ 31 := by
    intro i entry hi _ hentry
    rw [hholds.lookup i hi, Window.get] at hentry
    split at hentry
    · exact absurd hentry (by simp)
    · have hmem : entry ∈ [promptLog 1, promptLog 2] := List.mem_of_getElem? hentry
      rcases List.mem_cons.mp hmem with rfl | hmem
      · exact hlength.1
      · obtain rfl := List.mem_singleton.mp hmem
        exact hlength.2
  have hn : 2 = leader.replica.sm.lastCommittedIdx.toNat := by
    rw [hlast]
    rfl
  have hstart : leader.logStore.startIdx = 1 := by
    rw [hstore]
    decide
  obtain ⟨data, joined, hpack, hjoined, -, hcommits⟩ :=
    (joining (entryOf "") hrun hn (by decide) (by decide) hsize).1 hstart
  have hrun' : ∃ data joined m, leader.logStore.pack 1 2 = .ok data ∧
      memberStep (Member.init (entryOf "")) (.sync data) = some joined ∧
      Run memberStep (fun m e => ∀ payload mem, e = .commitNext payload mem →
        m.DecodesNext booksLog payload mem) joined
        [.commitNext 8192 promptMem, .commitNext 8192 promptMem] m := by
    rw [hstore]
    refine ⟨_, _, _, rfl, rfl, Run.cons ?_ (memberStep_promptLog (i := 1) (by decide) (by decide)
      (by decide +kernel) rfl) (Run.cons ?_ (memberStep_promptLog (i := 2) (by decide) (by decide)
      (by decide +kernel) rfl) (Run.refl _))⟩
    · rintro payload mem ⟨⟩
      exact decodesNext_promptLog (i := 1) (by decide) (by decide) (by decide +kernel) rfl
    · rintro payload mem ⟨⟩
      exact decodesNext_promptLog (i := 2) (by decide) (by decide) (by decide +kernel) rfl
  obtain ⟨data', joined', m, hpack', hjoined', hrun'⟩ := hrun'
  obtain rfl : data = data' := Except.ok.inj (hpack.symm.trans hpack')
  obtain rfl : joined = joined' := Option.some.inj (hjoined.symm.trans hjoined')
  obtain ⟨-, hkv, -⟩ := hcommits [(8192, promptMem), (8192, promptMem)] m rfl hrun'
  exact ⟨leader, joined, m, data, hpack, hjoined, hrun', hkv⟩

/-- An insertion, and a map-reduce with an operation that does not exist. -/
def fooLog : ℕ → Entry
  | 1 => booksLog 1
  | 2 => .payload { type := .mapReduce, key := str "NULL", value := 0, mapOp := str "foo",
                    reduceOp := str "sum", keys := [str "books"] }
  | _ => .config

/-- A member has committed the insertion, and that is all it ever commits. -/
theorem stopped_books : ∃ c : Unit → Member, (c ()).replica.sm.lastCommittedIdx = 1 ∧
    (c ()).replica.sm.lastCommittedIdx.toNat < 2 := by
  let := littleEndian
  let := littleEndianEntries
  have hroom : ∀ n, n < 10 → n + 1 < 2 ^ 64 := by
    intro n hn
    omega
  have hrun : ∃ c : Unit → Member, Run (interleave memberStep)
      (fun c e => Driven promptLog fooLog (c e.1) e.2) (fun _ => Member.init (entryOf ""))
      [((), .append (promptLog 1)), ((), .commitNext 8192 promptMem)] c ∧
      (c ()).replica.sm.lastCommittedIdx = 1 :=
    ⟨_, Run.cons (hroom 1 (by decide)) rfl
      (Run.cons (driven_promptLog (i := 1) (by decide) (by decide) (by decide) rfl rfl rfl)
        (interleave_eq (memberStep_promptLog (i := 1) (by decide) (by decide) rfl rfl))
      (Run.refl _)), by decide⟩
  obtain ⟨c, hrun, hlast⟩ := hrun
  exact ⟨c, hlast, stopped_at hrun (by decide) rfl rfl (by decide) ()⟩

end ReplicatedMapReduce
