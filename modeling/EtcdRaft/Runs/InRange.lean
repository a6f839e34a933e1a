import EtcdRaft.Refinement.MaybeAppend
import EtcdRaft.Runs.LogicalLogs

/-! The representation invariant of the raft log at every point of a lifetime. No access
to the log leaves its range.
-/

namespace EtcdRaft

-----------------------------------------------------------------------------------------
-- Terms
-----------------------------------------------------------------------------------------

/-- The terms do not decrease. -/
def Ordered (l : List Entry) : Prop := ∀ i < l.length, termAt l i ≤ termAt l (i + 1)

theorem termAt_of_isPrefix {l l' : List Entry} {i : Nat} (pre : l <+: l')
    (inside : i ≤ l.length)
    : termAt l i = termAt l' i := by
  refine termAt_congr ?_
  obtain ⟨rest, rfl⟩ := pre
  rw [List.take_append_of_le_length inside]

theorem Ordered.of_isPrefix {l l' : List Entry} (ordered : Ordered l') (pre : l <+: l')
    : Ordered l := by
  intro i inside
  rw [termAt_of_isPrefix pre inside.le, termAt_of_isPrefix pre inside]
  exact ordered i (inside.trans_le pre.length_le)

theorem Ordered.mono {l : List Entry} (ordered : Ordered l) {i j : Nat} (le : i ≤ j)
    (inside : j ≤ l.length)
    : termAt l i ≤ termAt l j := by
  induction j with
  | zero =>
      rw [Nat.le_zero.mp le]
  | succ j ih =>
      rcases Nat.lt_or_ge j i with above | below
      · rw [show i = j + 1 by omega]
      · exact (ih below (by omega)).trans (ordered j (by omega))

theorem LogSlice.checkEntries_last {term : Nat} {prev last : EntryID} {es : List Entry}
    (checked : checkEntries term prev es = .ok last)
    : last = (es.getLast?.map Entry.id).getD prev := by
  induction es generalizing prev with
  | nil =>
      cases checked
      rfl
  | cons e rest ih =>
      unfold checkEntries at checked
      split at checked
      · cases checked
      · rw [ih checked, List.getLast?_cons]
        cases rest.getLast? <;> rfl

/-- A log that is valid as a slice has terms that do not decrease, up to that of the
slice.
-/
theorem ordered_of_valid {t : Nat} {l : List Entry}
    (valid : ({ term := t, prev := { term := 0, index := 0 }, entries := l } : LogSlice).valid
      = .ok ())
    : Ordered l ∧ termAt l l.length ≤ t := by
  constructor
  · intro i inside
    have follow := LogSlice.valid_ok valid
    have each : ∀ j e, l[j]? = some e → termAt l (0 + j + 1) = e.term := by
      intro j e found
      rw [Nat.zero_add]
      exact termAt_succ found
    have terms := follow.terms (termAt_zero l) each inside
    simpa using terms
  · unfold LogSlice.valid at valid
    obtain ⟨last, checked, small⟩ := except_bind_eq_ok.mp valid
    have same := congrArg EntryID.term (LogSlice.checkEntries_last checked)
    have term : termAt l l.length = last.term := by
      rw [same, termAt, List.take_length]
      cases l.getLast? <;> rfl
    rw [term]
    by_contra above
    rw [if_pos (Nat.lt_of_not_le above)] at small
    cases small

-----------------------------------------------------------------------------------------
-- The representation invariant
-----------------------------------------------------------------------------------------

section

variable {L : Nat → List Entry} {async : Bool} {p : Pipeline} {l : RaftLog}

theorem Piped.wellFormed {term : Nat} (piped : Piped L async p term l)
    (ordered : Ordered p.log)
    : l.WellFormed := by
  have shows := piped.pipe.shows
  have last := shows.lastIndex
  have length := shows.length_entries
  have within := piped.pipe.unstable.within
  have positive := shows.positive
  have indexed := piped.pipe.line.current.indexed
  exact {
    applied := piped.pipe.index.applied
    applying := piped.pipe.index.applying
    committed := last ▸ piped.pipe.index.committed
    firstIndex := piped.firstIndex_le
    offset := piped.pipe.unstable.ordered
    inProgress := by omega
    unstable := by
      intro k inside
      have found : p.log[l.unstable.offset - 1 + k]? = some l.unstable.entries[k] := by
        rw [← List.getElem?_drop, ← shows.entries]
        exact List.getElem?_eq_getElem inside
      rw [indexed _ _ found]
      omega
    stored := by
      intro k inside
      have stored := piped.pipe.storage.stored
      have found : p.durable.log[l.storage.dummy.index + k]? = some l.storage.ents[k] := by
        rw [← List.getElem?_drop, ← stored.ents]
        exact List.getElem?_eq_getElem inside
      rw [(piped.pipe.line.matched _ List.mem_cons_self).indexed _ _ found]
      omega
    start := by
      intro zero
      rw [piped.pipe.storage.stored.dummyTerm, zero, termAt_zero]
    snapshot := by
      intro s pending
      obtain ⟨offset, _, _, nonzero⟩ := piped.pipe.unstable.snapshot s pending
      exact ⟨Nat.pos_of_ne_zero nonzero, offset⟩
    joined := by
      intro none
      obtain ⟨d, stored, agree, whole, _⟩ := shows.stable none
      have count := agree.length_le
      rw [List.length_take] at count
      have inside := shows.within
      rw [stored.lastIndex]
      refine ⟨positive, by omega, fun empty => ?_⟩
      rw [whole empty]
      rw [empty, List.length_nil] at length
      omega
    terms := by
      intro i below available
      rw [shows.zeroTerm available (by omega), shows.zeroTerm (by omega) (by omega)]
      exact ordered i (by omega) }

/-- Every entry can be read, with its index. -/
theorem Piped.entry? {term i : Nat} (piped : Piped L async p term l)
    (first : l.firstIndex ≤ i) (last : i ≤ l.lastIndex)
    : ∃ e, l.entry? i = some e ∧ e.index = i := by
  have shows := piped.pipe.shows
  have positive := l.firstIndex_pos
  rw [shows.lastIndex] at last
  obtain ⟨e, found⟩ : ∃ e, p.log[i - 1]? = some e :=
    ⟨_, List.getElem?_eq_getElem (by omega)⟩
  refine ⟨e, (shows.entry? (.inl first)).trans found, ?_⟩
  rw [piped.pipe.line.current.indexed _ _ found]
  omega

-----------------------------------------------------------------------------------------
-- Accesses
-----------------------------------------------------------------------------------------

variable [Codec]

/-- A slice that cannot be read is out of the bounds of the whole log. -/
theorem Shows.slice_inRange {c : List Entry} {lo hi maxSize : Nat} {p : Panic}
    (shows : Shows l c) (fails : l.slice lo hi maxSize = .error p)
    : p.outOfRange = false := by
  cases checked : l.mustCheckOutOfBounds lo hi with
  | error p' =>
      unfold RaftLog.slice at fails
      rw [checked] at fails
      cases fails
      unfold RaftLog.mustCheckOutOfBounds at checked
      split at checked
      · cases checked
        rfl
      dsimp only at checked
      split at checked
      · cases checked
      split at checked
      · cases checked
        rfl
      · cases checked
  | ok answer =>
      cases answer with
      | error err =>
          unfold RaftLog.slice at fails
          rw [checked] at fails
          cases fails
      | ok _ =>
          obtain ⟨available, ordered, present⟩ := shows.mustCheckOutOfBounds.mp checked
          obtain ⟨_, read, _⟩ := shows.slice maxSize available ordered present
          cases read.symm.trans fails

theorem Shows.misread {c : List Entry} {p : Panic} (shows : Shows l c)
    (misread : l.Misread p)
    : p.outOfRange = false := by
  cases misread with
  | slice lo hi maxSize fails => exact shows.slice_inRange fails
  | lastEntryID fails => cases shows.lastEntryID.symm.trans fails

omit [Codec] in
theorem RaftLog.commitTo_inRange {i : Nat} {p : Panic} (fails : l.commitTo i = .error p)
    : p.outOfRange = false := by
  unfold RaftLog.commitTo at fails
  split at fails
  · split at fails
    · cases fails
      rfl
    · cases fails
  · cases fails

omit [Codec] in
/-- `maybeAppend` of a part of the leader's log. -/
theorem Piped.maybeAppend_inRange {a : LogSlice} {c : List Entry} {term k : Nat}
    {p' : Panic}
    (piped : Piped L async p term l) (part : a.PartOf c) (leader : c <+: L p.term)
    (matched : Matched L c) (above : l.committed ≤ a.prev.index)
    (fails : l.maybeAppend a k = .error p')
    : p'.outOfRange = false := by
  unfold RaftLog.maybeAppend at fails
  by_cases matches_ : l.matchTerm a.prev = true
  swap
  · rw [if_pos (by simpa using matches_)] at fails
    cases fails
  obtain ⟨l₁, append, _⟩ := piped.appendConflict part leader matched above matches_
  rw [if_neg (by simpa using matches_), append, except_ok_bind] at fails
  cases commits : l₁.commitTo (min k (a.prev.index + a.entries.length)) with
  | error p'' =>
      rw [commits] at fails
      cases fails
      exact RaftLog.commitTo_inRange commits
  | ok l₂ =>
      rw [commits] at fails
      cases fails

/-- No call of a node whose log is in order leaves the range. -/
theorem Corrupt.inRange {m : Message} {c : Core} {p' : Panic} (corrupt : Corrupt m c p')
    (logs : ∀ t, Matched L (L t)) (source : m.OfLeader L)
    (remote : m.type.isStored = false) (piped : Piped L async p c.term c.raftLog)
    : p'.outOfRange = false := by
  have shows := piped.pipe.shows
  cases corrupt with
  | accept type follower term above fails =>
      refine piped.maybeAppend_inRange (source.part type) ?_ ((logs _).take _) above fails
      rw [piped.term, term]
      exact List.take_prefix _ _
  | heartbeat type follower term fails => exact RaftLog.commitTo_inRange fails
  | fastForward type follower term newer holds fails =>
      exact RaftLog.commitTo_inRange fails
  | commit leads fails =>
      unfold RaftLog.maybeCommit at fails
      split at fails
      · cases commits : c.raftLog.commitTo c.committedIndex with
        | error p'' =>
            rw [commits] at fails
            cases fails
            exact RaftLog.commitTo_inRange commits
        | ok l₁ =>
            rw [commits] at fails
            cases fails
      · cases fails
  | append leads es fails =>
      by_cases empty : es = []
      · rw [empty] at fails
        cases fails
      · cases (piped.appended_stamped empty).2.2.symm.trans fails
  | read misread => exact shows.misread misread
  | readAppended c' appends misread =>
      obtain ⟨_, _, es, appended, _, log⟩ := appends.appended piped
      rw [log] at misread
      exact (shows.appended appended.longer appended.common shows.firstIndex_le).misread misread
  | stored type =>
      rw [type] at remote
      cases remote
  | applied type =>
      rw [type] at remote
      cases remote

theorem Fails.inRange {now : Nat} {m : Message} {c : Core} {p' : Panic}
    (fails : Fails now m c p') (logs : ∀ t, Matched L (L t)) (source : m.OfLeader L)
    (remote : m.type.isStored = false) (piped : Piped L async p c.term c.raftLog)
    : p'.outOfRange = false := by
  cases tracked : p'.outOfRange with
  | false => rfl
  | true =>
      obtain ⟨c', acts, corrupt⟩ := fails (by rw [tracked, Bool.or_true, Bool.true_or])
      obtain ⟨log, piped', _⟩ := (Acts.moved acts logs source remote piped).piped
      exact tracked ▸ corrupt.inRange logs source remote piped'

-----------------------------------------------------------------------------------------
-- Whole lifetimes
-----------------------------------------------------------------------------------------

namespace Sound

variable {d : Version} {h : Host} {rn : RawNode} {p' : Panic} {m : Message}

omit [Codec] in
/-- An index that is committed can be applied. -/
theorem exists_appliedTo (ok : Sound L d async p h rn) {i : Nat} (l' : RaftLog)
    (size : Nat) (committed : l'.committed = rn.raft.raftLog.committed)
    (applied : l'.applied = rn.raft.raftLog.applied)
    (within : i ≤ rn.raft.raftLog.committed)
    : ∃ l'', l'.appliedTo (max i rn.raft.raftLog.applied) size = .ok l'' := by
  have below := ok.piped.pipe.index.applied.trans ok.piped.pipe.index.applying
  unfold RaftLog.appliedTo
  rw [committed, applied, if_neg (by omega)]
  exact ⟨_, rfl⟩

/-- An answer of the append thread. -/
theorem answerAppend_inRange {queue steps : List Message} (ok : Sound L d async p h rn)
    (logs : ∀ t, Matched L (L t)) (answer : m.IsAppendResp)
    (popped : Host.Pops async h h.appended queue rn.stepsOnAdvance steps m)
    (fails : rn.raft.step m = .error p')
    : p'.outOfRange = false := by
  obtain ⟨rest, done, _⟩ := ok.done_of_pops answer popped
  have member : m ∈ p.done := done ▸ List.mem_cons_self
  have older := (ok.piped.pipe.resps.done m member).term.1
  rw [ok.piped.term] at older
  obtain ⟨current, now, settles⟩ := Raft.settles_stored answer.type answer.term older
  rcases settles.failure fails with bad | ⟨l, stores, fails⟩
  · obtain ⟨u, log⟩ : ∃ u, (if current = true ∧ m.index ≠ 0
        then rn.raft.raftLog.stableTo { term := m.logTerm, index := m.index } else rn.raft.raftLog)
        = { rn.raft.raftLog with unstable := u } := by
      split
      · exact ⟨_, rfl⟩
      · exact ⟨rn.raft.raftLog.unstable, rfl⟩
    unfold RaftLog.stored at bad
    rw [log] at bad
    cases carries : m.snapshot with
    | none =>
        rw [carries] at bad
        cases bad
    | some s =>
        have within :=
          (ok.piped.pipe.resps.doneFloor m member s carries).trans ok.piped.floor
        rw [carries] at bad
        obtain ⟨l', applies⟩ := ok.exists_appliedTo
          (RaftLog.stableSnapTo { rn.raft.raftLog with unstable := u } s.metadata.index) 0 rfl rfl
          within
        cases applies.symm.trans bad
  · exact fails.inRange logs ⟨nofun, nofun⟩ rfl (ok.piped.stored done now stores)

/-- An answer of the apply thread. -/
theorem answerApply_inRange (ok : Sound L d async p h rn) (logs : ∀ t, Matched L (L t))
    (answer : m.IsApplyResp) (queued : m ∈ h.applyResps rn)
    (idle : async = false → h.writes = []) (fails : rn.raft.step m = .error p')
    : p'.outOfRange = false := by
  cases last : m.entries.getLast? with
  | none =>
      have nothing := List.getLast?_eq_none_iff.mp last
      cases (Raft.step_applied_nothing answer.type answer.term nothing).symm.trans fails
  | some e =>
      have handedOut := ok.applyResps m queued e last
      obtain ⟨l, applies⟩ := ok.exists_appliedTo rn.raft.raftLog (entsSize m.entries) rfl rfl
        (handedOut.trans ok.piped.pipe.index.applying)
      rcases (Raft.settles_applied answer.type answer.term last).failure fails with
        bad | ⟨l', applies', fails⟩
      · cases applies.symm.trans bad
      · have inside := Nat.max_le.mpr ⟨handedOut, ok.piped.pipe.index.applied⟩
        exact fails.inRange logs ⟨nofun, nofun⟩ rfl
          (ok.piped.applied inside (fun isSync => ok.slots_eq (idle isSync)) applies')

/-- A `Ready`. -/
theorem ready_inRange (ok : Sound L d async p h rn) (fails : rn.ready = .error p')
    : p'.outOfRange = false := by
  obtain ⟨resps, answers⟩ :=
    ok.exists_storageAppendResp rn.raft.raftLog.unstable.nextSnapshot
  have parts := RawNode.ends_ready_parts answers fun _ => ok.exists_handedOutLog
  rcases parts.failure fails with unread | ⟨rfl, _⟩
  · unfold RaftLog.nextCommittedEnts at unread
    by_cases paused : rn.raft.raftLog.applyingEntsPaused = true
    · rw [if_pos paused] at unread
      cases unread
    rw [if_neg paused] at unread
    by_cases pending : rn.raft.raftLog.hasNextOrInProgressSnapshot = true
    · rw [if_pos pending] at unread
      cases unread
    rw [if_neg pending] at unread
    dsimp only at unread
    split at unread
    · cases unread
    split at unread
    · cases unread
      rfl
    cases read : rn.raft.raftLog.slice (rn.raft.raftLog.applying + 1)
        (rn.raft.raftLog.maxAppliableIndex rn.applyUnstableEntries + 1)
        (sub64 rn.raft.raftLog.maxApplyingEntsSize rn.raft.raftLog.applyingEntsSize) with
    | error p'' =>
        rw [read] at unread
        cases unread
        exact ok.piped.pipe.shows.slice_inRange read
    | ok page =>
        rw [read] at unread
        cases page <;> cases unread
        rfl
  · rfl

/-- No failure of a node comes from an access out of range. -/
theorem trips_inRange {arrives : Message → Prop} (ok : Sound L d async p h rn)
    (logs : ∀ t, Matched L (L t)) (ofLeader : ∀ m, arrives m → m.OfLeader L)
    (trips : h.Trips async arrives rn p')
    : p'.outOfRange = false := by
  cases trips with
  | @call m fails remote termed source =>
      obtain ⟨now, cfg, progress, fails⟩ := fails.exists_fails termed
      exact fails.inRange logs (.of_source ofLeader source) remote ok.piped
  | answerAppend answer fails popped =>
      exact ok.answerAppend_inRange logs answer popped fails
  | answerApply answer fails queued idle =>
      exact ok.answerApply_inRange logs answer queued idle fails
  | ready fails => exact ok.ready_inRange fails
  | other benign => exact benign.inRange

omit [Codec] in
/-- The last term is not above that of the node. -/
theorem lastTerm_le (ok : Sound L d async p h rn)
    (bounded : ∀ t, termAt (L t) (L t).length ≤ t)
    (ordered : ∀ t, Ordered (L t)) (stored : termAt d.log d.log.length ≤ d.term)
    : termAt p.log p.log.length ≤ rn.raft.term := by
  rcases ok.origin with ⟨same, later⟩ | ⟨t, earlier, part⟩
  · rw [same]
    exact stored.trans later
  · rw [termAt_of_isPrefix part (Nat.le_refl _)]
    exact ((ordered t).mono part.length_le (Nat.le_refl _)).trans ((bounded t).trans earlier)

end Sound

/-- At every point of a lifetime the raft log is in order: the indexes are, entries are
consecutive and can be read, terms do not decrease and the last one is not above that of
the node. No input makes the node access its log out of range.
-/
theorem Launch.raftLog_inRange {x : Launch} {inputs : List Input} {rn : RawNode}
    (logs : ∀ t, Matched L (L t))
    (valid : ∀ t,
      ({ term := t, prev := { term := 0, index := 0 }, entries := L t } : LogSlice).valid
      = .ok ())
    (prepared : x.Prepared L)
    (current : ∀ t, x.disk.term x.disk.lastIndex = .ok t → t ≤ x.disk.hardState.term)
    (admitted : Host.Along x.setup x.id (Host.Admits L x.setup x.id) x.host inputs)
    (node : (x.run inputs).node = some rn)
    : rn.raft.raftLog.WellFormed
      ∧ (∀ i, rn.raft.raftLog.firstIndex ≤ i → i ≤ rn.raft.raftLog.lastIndex
        → ∃ e, rn.raft.raftLog.entry? i = some e ∧ e.index = i)
      ∧ (∃ t, rn.raft.raftLog.term rn.raft.raftLog.lastIndex = .ok t ∧ t ≤ rn.raft.term)
      ∧ ∀ i p, i.OfLeader L → ((x.run inputs).input x.setup x.id i).2.panic = some p
        → p.outOfRange = false := by
  obtain ⟨⟨d, stored, sound⟩, termed, separate⟩ := sound_run logs prepared admitted
  obtain ⟨p, ok⟩ := sound rn node
  have ordered : ∀ t, Ordered (L t) := fun t => (ordered_of_valid (valid t)).1
  have shows := ok.piped.pipe.shows
  refine ⟨ok.piped.wellFormed ((ordered _).of_isPrefix ok.piped.pipe.line.current.whole),
    fun i => ok.piped.entry?, ⟨termAt p.log p.log.length, ?_, ?_⟩, ?_⟩
  · rw [shows.lastIndex]
    exact shows.term shows.firstIndex_le (Nat.le_refl _)
  · refine ok.lastTerm_le (fun t => (ordered_of_valid (valid t)).2) ordered (current _ ?_)
    have last := stored.lastIndex
    rw [last]
    exact stored.term stored.within (Nat.le_refl _)
  · intro i p' source panics
    have network := source.network
    have goes := @Host.goes _ x.setup x.id (x.run inputs) i source.steady
    exact ok.trips_inRange logs (fun m arrived => (network m arrived).2)
      (goes.trips termed separate (fun m arrived => (network m arrived).1) node panics)

end

attribute [local instance] Codec.wire

theorem rivalLogs_valid (t : Nat)
    : ({ term := t, prev := { term := 0, index := 0 }, entries := rivalLogs t } : LogSlice).valid
      = .ok () := by
  match t with
  | 0 => rfl
  | 1 => rfl
  | 2 => rfl
  | t + 3 => rfl

/-- While the write of the replaced entry is in flight, everything is in order. -/
theorem raftLog_inRange_replacement
    : ∃ rn, (replica.run replacement).node = some rn ∧ rn.raft.raftLog.WellFormed
      ∧ ∀ p, ((replica.run replacement).input replica.setup replica.id (.event .persist)).2.panic
        = some p → p.outOfRange = false := by
  have up : (replica.run replacement).node.isSome = true := by decide +kernel
  obtain ⟨rn, node⟩ := Option.isSome_iff_exists.mp up
  have current : ∀ t, replica.disk.term replica.disk.lastIndex = .ok t
      → t ≤ replica.disk.hardState.term := by
    rintro t ⟨⟩
    exact Nat.le_refl _
  obtain ⟨wellFormed, _, _, inRange⟩ := Launch.raftLog_inRange rivalLogs_matched rivalLogs_valid
    replica_prepared current replacement_admitted node
  exact ⟨rn, node, wellFormed, fun p => inRange (.event .persist) p rfl⟩

end EtcdRaft
