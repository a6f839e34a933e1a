import EtcdRaft.Refinement.Durable
import EtcdRaft.Refinement.Keeps
import EtcdRaft.Refinement.Steps

/-! The pipeline of a node along its small actions. The messages of a term's leader carry
parts of its log `L t`; whatever else arrives does not change the log.
-/

namespace EtcdRaft

variable {L : Nat → List Entry} {async : Bool} {p : Pipeline} {l l' : RaftLog}

-----------------------------------------------------------------------------------------
-- The logical log
-----------------------------------------------------------------------------------------

/-- The logical log is the end of `log`. -/
structure LogicalLog.EndOf (g : LogicalLog) (log : List Entry) : Prop where
  within : g.base ≤ log.length
  term : g.baseTerm = termAt log g.base
  entries : g.entries = log.drop g.base

namespace LogicalLog.EndOf

variable {g : LogicalLog} {log c : List Entry}

theorem lastIndex (endOf : g.EndOf log) : g.lastIndex = log.length := by
  have within := endOf.within
  rw [LogicalLog.lastIndex, endOf.entries, List.length_drop]
  omega

theorem entry? (endOf : g.EndOf log) {i : Nat} (above : g.base < i)
    : g.entry? i = log[i - 1]? := by
  rw [LogicalLog.entry?, if_neg (Nat.not_le.mpr above), endOf.entries, List.getElem?_drop]
  congr 1
  omega

theorem truncateAndAppend {a : Nat} (endOf : g.EndOf log) (indexed : Indexed c)
    (above : g.base ≤ a) (longer : a < c.length) (common : c.take a = log.take a)
    : (g.truncateAndAppend (c.drop a)).EndOf c := by
  obtain ⟨e, found⟩ : ∃ e, (c)[a]? = some e := ⟨_, List.getElem?_eq_getElem longer⟩
  have split : c.drop a = e :: c.drop (a + 1) := by
    obtain ⟨_, rfl⟩ := List.getElem?_eq_some_iff.mp found
    exact List.drop_eq_getElem_cons longer
  have keep : e.index - g.base - 1 = a - g.base := by
    rw [indexed a e found]
    omega
  unfold LogicalLog.truncateAndAppend
  rw [split]
  dsimp only
  rw [← split, keep]
  refine ⟨by simp only; omega, ?_, ?_⟩
  · rw [endOf.term]
    refine termAt_congr ?_
    have := congrArg (List.take g.base) common
    rw [List.take_take, List.take_take, Nat.min_eq_left above] at this
    exact this.symm
  · simp only
    rw [endOf.entries, drop_eq_append common above]

theorem restore {s : Snapshot} (length : s.data.length = s.metadata.index)
    (term : s.metadata.term = termAt s.data s.metadata.index)
    : (LogicalLog.restore s).EndOf s.data where
  within := length.ge
  term := term
  entries := (List.drop_of_length_le length.le).symm

end LogicalLog.EndOf

/-- The logical log is a part of `c`. -/
def LogicalLog.Within (g : LogicalLog) (c : List Entry) : Prop :=
  g.base ≤ c.length ∧ g.baseTerm = termAt c g.base ∧ g.entries <+: c.drop g.base

instance (g : LogicalLog) (c : List Entry) : Decidable (g.Within c) := by
  unfold LogicalLog.Within
  infer_instance

/-- A log whose end is a part of the leader's log begins like it. -/
theorem LogicalLog.Within.isPrefix {g : LogicalLog} {log c : List Entry}
    (within : g.Within c)
    (endOf : g.EndOf log) (matched : Matched L (log.take g.base)) (leader : Matched L c)
    : log <+: c := by
  obtain ⟨inside, term, entries⟩ := within
  have length : (log.take g.base).length = g.base := by
    rw [List.length_take, Nat.min_eq_left endOf.within]
  have sameTerm : termAt (log.take g.base) g.base = termAt c g.base := by
    rw [← term, endOf.term]
    refine termAt_congr ?_
    rw [List.take_take, Nat.min_self]
  have same := matched.take_eq leader length.ge inside sameTerm
  rw [List.take_take, Nat.min_self] at same
  rw [← List.take_append_drop g.base log, ← List.take_append_drop g.base c, same, ← endOf.entries]
  exact (List.prefix_append_right_inj _).mpr entries

-----------------------------------------------------------------------------------------
-- The pipeline together with the commit index and the logical log
-----------------------------------------------------------------------------------------

/-- The pipeline of a node in its term. Nothing that is committed is replaced, and the
logical log is the end of the current log.
-/
structure Piped (L : Nat → List Entry) (async : Bool) (p : Pipeline) (term : Nat)
    (l : RaftLog)
    : Prop where
  pipe : Pipe L async p l
  term : p.term = term
  floor : p.floor ≤ l.committed
  logical : l.logical.EndOf p.log
  basePending : ∀ s, l.unstable.snapshot = some s → l.logical.base = s.metadata.index
  baseStored : l.unstable.snapshot = none → l.logical.base ≤ l.storage.dummy.index
  doneStored : ∀ m ∈ p.done, ∀ s, m.snapshot = some s → s.metadata.index ≤ l.storage.dummy.index
  compacted : l.storage.dummy.index ≤ l.applying
    ∨ ∃ m ∈ p.done, ∃ s, m.snapshot = some s ∧ l.storage.dummy.index ≤ s.metadata.index

theorem endFloor_le {floor k : Nat} {slots : List Slot} (start : floor ≤ k)
    (each : ∀ s ∈ slots, ∀ sn, s.snapshot = some sn → sn.metadata.index ≤ k)
    : endFloor floor slots ≤ k := by
  induction slots generalizing floor with
  | nil => exact start
  | cons s rest ih =>
      refine ih ?_ fun s member => each s (List.mem_cons_of_mem _ member)
      show s.floorAfter floor ≤ k
      unfold Slot.floorAfter
      cases snapshot : s.snapshot with
      | none => exact start
      | some sn => exact each s List.mem_cons_self sn snapshot

namespace Piped

variable {term : Nat}

theorem endFloor_le (piped : Piped L async p term l) : endFloor p.floor p.slots ≤ l.committed :=
  EtcdRaft.endFloor_le piped.floor piped.pipe.index.slots

/-- Committed entries can be read, unless they are applied. -/
theorem firstIndex_le (piped : Piped L async p term l)
    : l.firstIndex ≤ l.committed + 1 := by
  unfold RaftLog.firstIndex Unstable.maybeFirstIndex
  cases pending : l.unstable.snapshot with
  | some s => exact Nat.succ_le_succ (piped.pipe.index.pending s pending).2
  | none => exact Nat.succ_le_succ (piped.pipe.storage.dummy.trans piped.floor)

/-- The entries that are to be applied next are still there. -/
theorem firstIndex_le_applying (piped : Piped L async p term l)
    (none : l.unstable.snapshot = none)
    : l.firstIndex ≤ l.applying + 1 := by
  have settled : l.storage.dummy.index ≤ l.applying := by
    rcases piped.compacted with below | ⟨m, done, s, carries, _⟩
    · exact below
    · obtain ⟨sn, pending, _⟩ :=
        piped.pipe.resps.pending m (List.mem_append_left _ done) s carries
      exact absurd (none.symm.trans pending) nofun
  unfold RaftLog.firstIndex Unstable.maybeFirstIndex
  rw [none]
  exact Nat.succ_le_succ settled

theorem base_le (piped : Piped L async p term l) : l.logical.base ≤ l.committed := by
  cases pending : l.unstable.snapshot with
  | some s =>
      exact (piped.basePending s pending).le.trans (piped.pipe.index.pending s pending).2
  | none =>
      exact (piped.baseStored pending).trans (piped.pipe.storage.dummy.trans piped.floor)

/-- What can be read is part of the logical log. -/
theorem base_lt_firstIndex (piped : Piped L async p term l)
    : l.logical.base < l.firstIndex := by
  unfold RaftLog.firstIndex Unstable.maybeFirstIndex
  cases pending : l.unstable.snapshot with
  | some s => exact Nat.lt_succ_of_le (piped.basePending s pending).le
  | none => exact Nat.lt_succ_of_le (piped.baseStored pending)

theorem newTerm {T : Nat} (piped : Piped L async p term l) (newer : term ≤ T)
    : Piped L async { p with term := T } T l := by
  have pipe : Pipe L async { p with term := T } l := by
    rcases Nat.eq_or_lt_of_le newer with same | newer
    · rw [← same, ← piped.term]
      exact piped.pipe
    · exact piped.pipe.newTerm (piped.term ▸ newer)
  exact { piped with pipe := pipe, term := rfl }

theorem commitTo {k : Nat} (piped : Piped L async p term l)
    (committed : l.commitTo k = .ok l')
    : Piped L async p term l' := by
  obtain ⟨pipe, rfl⟩ := piped.pipe.commitTo committed
  exact { piped with pipe := pipe, floor := piped.floor.trans (Nat.le_max_left _ _) }

theorem append {a : Nat} {c : List Entry} (piped : Piped L async p term l)
    (replaces : Replaces L p c) (appended : Appended p l c a)
    : Piped L async { p with log := c } term (l.appended c a) where
  pipe := piped.pipe.append replaces appended
  term := piped.term
  floor := piped.floor
  logical := piped.logical.truncateAndAppend replaces.matched.indexed
    (piped.base_le.trans appended.committed) appended.longer appended.common
  basePending := by
    have base : (l.appended c a).logical.base = l.logical.base := by
      simp only [RaftLog.appended, LogicalLog.truncateAndAppend]
      split <;> rfl
    rw [base]
    exact piped.basePending
  baseStored := by
    have base : (l.appended c a).logical.base = l.logical.base := by
      simp only [RaftLog.appended, LogicalLog.truncateAndAppend]
      split <;> rfl
    rw [base]
    exact piped.baseStored
  doneStored := piped.doneStored
  compacted := piped.compacted

theorem restore {s : Snapshot} (piped : Piped L async p term l)
    (replaces : Replaces L p s.data)
    (snap : SnapshotOf (L p.term) s) (newer : l.committed < s.metadata.index)
    : Piped L async { p with log := s.data } term (l.restore s) := by
  have length : s.data.length = s.metadata.index := by
    rw [snap.data, List.length_take, Nat.min_eq_left snap.within]
  have sameTerm : s.metadata.term = termAt s.data s.metadata.index := by
    rw [snap.term]
    refine termAt_congr ?_
    rw [snap.data, List.take_take, Nat.min_self]
  exact {
    pipe := piped.pipe.restore replaces snap newer (piped.endFloor_le.trans_lt newer)
    term := piped.term
    floor := piped.floor.trans newer.le
    logical := .restore length sameTerm
    basePending := by
      rintro s' ⟨⟩
      rfl
    baseStored := nofun
    doneStored := piped.doneStored
    compacted := piped.compacted }

end Piped

-----------------------------------------------------------------------------------------
-- Entries of the leader
-----------------------------------------------------------------------------------------

/-- The first entry of the leader that the log does not hold. -/
theorem findConflict_cases {log c es : List Entry} {n : Nat} (shows : Shows l log)
    (matched : Matched L log) (leader : Matched L c) (part : es <+: c.drop n)
    (same : log.take n = c.take n) (inside : n ≤ log.length)
    (available : l.firstIndex ≤ n + 2)
    : (l.findConflict es = 0 ∧ c.take (n + es.length) <+: log)
      ∨ ∃ k, k < es.length ∧ l.findConflict es = n + k + 1 ∧ n + k ≤ log.length
        ∧ log.take (n + k) = c.take (n + k) ∧ ¬c.take (n + k + 1) <+: log := by
  induction es generalizing n with
  | nil =>
      refine .inl ⟨rfl, ?_⟩
      rw [List.length_nil, Nat.add_zero, ← same]
      exact List.take_prefix _ _
  | cons e rest ih =>
      have found : (c)[n]? = some e := by
        obtain ⟨more, eq⟩ := part
        rw [← Nat.add_zero n, ← List.getElem?_drop, ← eq]
        rfl
      have longer := (List.getElem?_eq_some_iff.mp found).1
      have index := leader.indexed n e found
      have term : termAt c (n + 1) = e.term := termAt_succ found
      have holds :=
        @Shows.matchTerm_iff l log shows e.id (by rw [Entry.id, index]; exact available)
      simp only [Entry.id, index] at holds
      unfold RaftLog.findConflict
      by_cases matches_ : l.matchTerm e.id = true
      · rw [if_pos matches_]
        obtain ⟨present, sameTerm⟩ := holds.mp (by rw [← index]; exact matches_)
        have part' : rest <+: c.drop (n + 1) := by
          obtain ⟨more, eq⟩ := part
          refine ⟨more, ?_⟩
          rw [← List.drop_drop, ← eq]
          rfl
        have same' := matched.take_eq leader present longer (sameTerm.trans term.symm)
        rcases ih part' same' present (by omega) with ⟨zero, holds⟩ | ⟨k, within, conflict, rest⟩
        · refine .inl ⟨zero, ?_⟩
          rw [List.length_cons, show n + (rest.length + 1) = n + 1 + rest.length by omega]
          exact holds
        · refine .inr ⟨k + 1, by rw [List.length_cons]; omega, by omega, ?_⟩
          rw [show n + (k + 1) = n + 1 + k by omega]
          exact rest
      · rw [if_neg matches_, index]
        refine .inr ⟨0, Nat.succ_pos _, rfl, inside, same, fun pre => matches_ ?_⟩
        rw [show e.id = { term := e.term, index := n + 1 } by rw [Entry.id, index]]
        have length := pre.length_le
        rw [List.length_take] at length
        refine holds.mpr ⟨by omega, ?_⟩
        rw [← term]
        refine termAt_congr ?_
        have eq := List.prefix_iff_eq_take.mp pre
        rw [List.length_take, Nat.min_eq_left longer] at eq
        exact eq.symm

/-- A part of the leader's log that ends where `c` ends. -/
structure LogSlice.PartOf (a : LogSlice) (c : List Entry) : Prop where
  length : c.length = a.prev.index + a.entries.length
  entries : a.entries = c.drop a.prev.index
  term : a.prev.term = termAt c a.prev.index

/-- The entries of the leader that the log does not hold are appended; the log holds `c`
then. Either it did before, or it is replaced by `c`.
-/
theorem Piped.appendConflict {a : LogSlice} {c : List Entry} {term : Nat}
    (piped : Piped L async p term l) (part : a.PartOf c) (leader : c <+: L p.term)
    (matched : Matched L c) (above : l.committed ≤ a.prev.index)
    (matches_ : l.matchTerm a.prev = true)
    : ∃ l₁, l.appendConflict a (l.findConflict a.entries) = .ok l₁
      ∧ ((l₁ = l ∧ c <+: p.log)
        ∨ ∃ i, l₁ = l.appended c i ∧ Appended p l c i ∧ Replaces L p c) := by
  have shows := piped.pipe.shows
  have length := part.length
  have first := piped.firstIndex_le
  obtain ⟨inside, sameTerm⟩ := shows.matchTerm matches_
  have same := piped.pipe.line.current.take_eq matched inside (by omega)
    (sameTerm.trans part.term)
  have inside' : a.entries <+: c.drop a.prev.index := by rw [← part.entries]
  rcases findConflict_cases shows piped.pipe.line.current matched inside' same inside
    (by omega) with ⟨zero, holds⟩ | ⟨i, within, conflict, present, common, news⟩
  · rw [zero]
    rw [← length, List.take_length] at holds
    exact ⟨l, rfl, .inl ⟨rfl, holds⟩⟩
  · have news' : ¬c <+: p.log := fun pre => news ((List.take_prefix _ _).trans pre)
    have isAppended : Appended p l c (a.prev.index + i) := {
      longer := by omega
      common := common.symm
      inside := present
      news := news
      committed := by omega
      floor := piped.endFloor_le.trans (by omega) }
    have skip : sub64 (a.prev.index + i + 1) (a.prev.index + 1) = i := by
      rw [sub64_of_le (by omega)]
      omega
    have rest : a.entries.drop i = c.drop (a.prev.index + i) := by
      rw [part.entries, List.drop_drop]
    unfold RaftLog.appendConflict
    rw [conflict, if_neg (Nat.succ_ne_zero _), if_neg (by omega)]
    dsimp only
    rw [skip, if_neg (by omega), rest, isAppended.append_eq piped.pipe.unstable matched.indexed]
    exact ⟨_, rfl, .inr ⟨_, rfl, isAppended, leader, news', matched⟩⟩

/-- `maybeAppend` of a part of the leader's log that ends where `c` ends. -/
theorem Piped.maybeAppend_cases {a : LogSlice} {c : List Entry} {term k last : Nat}
    (piped : Piped L async p term l) (part : a.PartOf c) (leader : c <+: L p.term)
    (matched : Matched L c) (above : l.committed ≤ a.prev.index)
    (appended : l.maybeAppend a k = .ok (l', some last))
    : last = c.length
      ∧ ∃ l₁, l₁.commitTo (min k c.length) = .ok l'
        ∧ ((l₁ = l ∧ c <+: p.log)
          ∨ ∃ i, l₁ = l.appended c i ∧ Appended p l c i ∧ Replaces L p c) := by
  unfold RaftLog.maybeAppend at appended
  by_cases matches_ : l.matchTerm a.prev = true
  swap
  · rw [if_pos (by simpa using matches_)] at appended
    cases appended
  obtain ⟨l₁, append, cases_⟩ := piped.appendConflict part leader matched above matches_
  rw [if_neg (by simpa using matches_), append, except_ok_bind, ← part.length] at appended
  obtain ⟨l₂, commits, appended⟩ := except_bind_eq_ok.mp appended
  cases appended
  exact ⟨rfl, l₁, commits, cases_⟩

/-- `maybeAppend` of a part of the leader's log. -/
theorem Piped.maybeAppend {a : LogSlice} {c : List Entry} {term k last : Nat}
    (piped : Piped L async p term l) (part : a.PartOf c) (leader : c <+: L p.term)
    (matched : Matched L c) (above : l.committed ≤ a.prev.index)
    (appended : l.maybeAppend a k = .ok (l', some last))
    : last = c.length ∧ ∃ log, Piped L async { p with log := log } term l' ∧ c <+: log
      ∧ (log = p.log ∨ log = c) := by
  obtain ⟨isLast, l₁, commits, ⟨rfl, holds⟩ | ⟨i, rfl, appended, replaces⟩⟩ :=
    piped.maybeAppend_cases part leader matched above appended
  · exact ⟨isLast, p.log, piped.commitTo commits, holds, .inl rfl⟩
  · exact ⟨isLast, c, (piped.append replaces appended).commitTo commits, List.prefix_rfl, .inr rfl⟩

-----------------------------------------------------------------------------------------
-- Small actions
-----------------------------------------------------------------------------------------

/-- What a message says about the log of its term's leader is right. -/
structure Message.OfLeader (L : Nat → List Entry) (m : Message) : Prop where
  app : m.type = .msgApp → m.index ≤ (L m.term).length ∧ m.logTerm = termAt (L m.term) m.index
    ∧ m.entries <+: (L m.term).drop m.index
  snap : m.type = .msgSnap → SnapshotOf (L m.term) m.snap

theorem Message.OfLeader.part {m : Message} (source : m.OfLeader L)
    (type : m.type = .msgApp)
    : (Raft.logSliceFromMsgApp m).PartOf ((L m.term).take (m.index + m.entries.length)) := by
  obtain ⟨within, term, entries⟩ := source.app type
  have count := entries.length_le
  rw [List.length_drop] at count
  refine ⟨?_, ?_, ?_⟩
  · simp only [Raft.logSliceFromMsgApp, List.length_take]
    omega
  · simp only [Raft.logSliceFromMsgApp]
    rw [List.drop_take, Nat.add_sub_cancel_left]
    exact List.prefix_iff_eq_take.mp entries
  · simp only [Raft.logSliceFromMsgApp]
    rw [term]
    refine termAt_congr ?_
    rw [List.take_take, Nat.min_eq_left (Nat.le_add_right _ _)]

/-- A snapshot that the log does not hold is new. -/
theorem Piped.news {term : Nat} {s : Snapshot} (piped : Piped L async p term l)
    (snap : SnapshotOf (L p.term) s) (newer : l.committed < s.metadata.index)
    (lacks : l.matchTerm s.id = false)
    : ¬s.data <+: p.log := by
  intro pre
  have first := piped.firstIndex_le
  have length : s.data.length = s.metadata.index := by
    rw [snap.data, List.length_take, Nat.min_eq_left snap.within]
  have holds : l.matchTerm s.id = true := by
    refine (@Shows.matchTerm_iff l p.log piped.pipe.shows s.id ?_).mpr ⟨?_, ?_⟩
    · simp only [Snapshot.id]
      omega
    · rw [Snapshot.id, ← length]
      exact pre.length_le
    · simp only [Snapshot.id]
      rw [snap.term]
      refine termAt_congr ?_
      rw [← snap.data, ← length]
      exact (List.prefix_iff_eq_take.mp pre).symm
  rw [lacks] at holds
  cases holds

/-- A node whose term and log have moved on. A new log is that of some leader. -/
structure Moved (L : Nat → List Entry) (async : Bool) (p : Pipeline)
    (c c' : Core) : Prop where
  term : c.term ≤ c'.term
  piped : ∃ log, Piped L async { p with term := c'.term, log := log } c'.term c'.raftLog
    ∧ (log = p.log ∨ ∃ t ≤ c'.term, log <+: L t)

variable {c c' : Core}

/-- Neither the term nor the log has changed. -/
theorem Moved.still (piped : Piped L async p c.term c.raftLog)
    (log : c'.raftLog = c.raftLog) (term : c'.term = c.term)
    : Moved L async p c c' := by
  refine ⟨term.ge, p.log, ?_, .inl rfl⟩
  have same : { p with term := c.term, log := p.log } = p := by rw [← piped.term]
  rw [log, term, same]
  exact piped

theorem Moved.newTerm (piped : Piped L async p c.term c.raftLog)
    (log : c'.raftLog = c.raftLog) (newer : c.term ≤ c'.term)
    : Moved L async p c c' := by
  refine ⟨newer, p.log, ?_, .inl rfl⟩
  rw [log]
  exact piped.newTerm newer

/-- Only the log has changed. -/
theorem Moved.withLog {log : List Entry} (before : Piped L async p c.term c.raftLog)
    (after : Piped L async { p with log := log } c.term c'.raftLog)
    (term : c'.term = c.term)
    (origin : log = p.log ∨ log <+: L c.term)
    : Moved L async p c c' := by
  refine ⟨term.ge, log, ?_, origin.imp_right fun part => ⟨c.term, term.ge, part⟩⟩
  rw [term, ← before.term]
  exact before.term ▸ after

variable [Codec] {now : Nat} {m : Message}

/-- A small action moves the pipeline. -/
theorem Act.moved (act : Act now m c c') (logs : ∀ t, Matched L (L t))
    (source : m.OfLeader L)
    (remote : m.type.isStored = false) (piped : Piped L async p c.term c.raftLog)
    : Moved L async p c c' := by
  cases act with
  | becomeFollower term newer later => exact .newTerm piped rfl newer
  | becomeCandidate notLeader may => exact .newTerm piped rfl (Nat.le_succ _)
  | commit leads raftLog commits =>
      unfold RaftLog.maybeCommit at commits
      split at commits
      · obtain ⟨l', commits, eq⟩ := except_bind_eq_ok.mp commits
        cases eq
        exact .withLog piped (piped.commitTo commits) rfl (.inl rfl)
      · cases commits
  | accept type follower term above raftLog last appended =>
      have leader : (L m.term).take (m.index + m.entries.length) <+: L p.term := by
        rw [piped.term, term]
        exact List.take_prefix _ _
      obtain ⟨_, log, piped', _, origin⟩ :=
        piped.maybeAppend (source.part type) leader ((logs _).take _) above appended
      refine .withLog piped piped' rfl (origin.imp_right fun same => ?_)
      rw [same, ← piped.term]
      exact leader
  | heartbeat type follower term raftLog committed =>
      exact .withLog piped (piped.commitTo committed) rfl (.inl rfl)
  | fastForward type follower term newer holds raftLog committed =>
      exact .withLog piped (piped.commitTo committed) rfl (.inl rfl)
  | restore type follower term newer lacks chg blank cfg progress config same =>
      have snap : SnapshotOf (L p.term) m.snap := by
        rw [piped.term, ← term]
        exact source.snap type
      have replaces : Replaces L p m.snap.data := by
        refine ⟨?_, piped.news snap newer lacks, ?_⟩
        · rw [snap.data]
          exact List.take_prefix _ _
        · rw [snap.data]
          exact (logs _).take _
      refine .withLog piped (piped.restore replaces snap newer) rfl (.inr ?_)
      rw [snap.data, ← piped.term]
      exact List.take_prefix _ _
  | stored type current term raftLog stores =>
      rw [type] at remote
      cases remote
  | applied type e last size raftLog applies =>
      rw [type] at remote
      cases remote
  | _ => exact .still piped rfl rfl

omit [Codec] in
theorem Moved.trans {c₁ c₂ c₃ : Core} (first : Moved L async p c₁ c₂)
    (second : ∀ {p}, Piped L async p c₂.term c₂.raftLog → Moved L async p c₂ c₃)
    : Moved L async p c₁ c₃ := by
  obtain ⟨log, piped, origin⟩ := first.piped
  obtain ⟨later, log', piped', origin'⟩ := second piped
  refine ⟨first.term.trans later, log', piped', ?_⟩
  rcases origin' with same | leader
  · rw [same]
    exact origin.imp_right fun ⟨t, earlier, part⟩ => ⟨t, earlier.trans later, part⟩
  · exact .inr leader

theorem Acts.moved (acts : Acts now m c c') (logs : ∀ t, Matched L (L t))
    (source : m.OfLeader L)
    (remote : m.type.isStored = false) (piped : Piped L async p c.term c.raftLog)
    : Moved L async p c c' := by
  induction acts with
  | refl => exact .still piped rfl rfl
  | tail _ act ih => exact ih.trans fun piped => act.moved logs source remote piped

-----------------------------------------------------------------------------------------
-- Entries of the node's own
-----------------------------------------------------------------------------------------

omit [Codec] in
theorem Core.length_stamped (c : Core) (es : List Entry)
    : (c.stamped es).length = es.length := by
  simp [Core.stamped]

omit [Codec] in
theorem Core.indexed_append {log : List Entry} (indexed : Indexed log)
    (last : c.raftLog.lastIndex = log.length) (es : List Entry)
    : Indexed (log ++ c.stamped es) := by
  intro i e found
  by_cases old : i < log.length
  · rw [List.getElem?_append_left old] at found
    exact indexed i e found
  · rw [List.getElem?_append_right (by omega)] at found
    simp only [Core.stamped, List.getElem?_mapIdx, Option.map_eq_some_iff] at found
    obtain ⟨e', _, rfl⟩ := found
    simp only [last]
    omega

omit [Codec] in
/-- The new entries of a leader follow its log. -/
theorem Piped.appended_stamped {es : List Entry}
    (piped : Piped L async p c.term c.raftLog) (nonempty : es ≠ [])
    : Appended p c.raftLog (p.log ++ c.stamped es) p.log.length
      ∧ Indexed (p.log ++ c.stamped es)
      ∧ c.raftLog.append (c.stamped es)
        = .ok (c.raftLog.appended (p.log ++ c.stamped es) p.log.length) := by
  have last := piped.pipe.shows.lastIndex
  have indexed := Core.indexed_append piped.pipe.line.current.indexed last es
  have longer : p.log.length < (p.log ++ c.stamped es).length := by
    have := List.length_pos_iff.mpr nonempty
    rw [List.length_append, Core.length_stamped]
    omega
  have appended : Appended p c.raftLog (p.log ++ c.stamped es) p.log.length := {
    longer := longer
    common := by rw [List.take_left, List.take_length]
    inside := Nat.le_refl _
    news := by
      intro pre
      have := pre.length_le
      rw [List.length_take] at this
      omega
    committed := piped.pipe.index.committed
    floor := piped.endFloor_le.trans piped.pipe.index.committed }
  have same := appended.append_eq piped.pipe.unstable indexed
  rw [List.drop_left] at same
  exact ⟨appended, indexed, same⟩

omit [Codec] in
/-- A leader's log with its new entries. -/
theorem Appends.appended (appends : Appends m c c')
    (piped : Piped L async p c.term c.raftLog)
    : c'.term = c.term ∧ c'.state = .stateLeader
      ∧ ∃ es, Appended p c.raftLog (p.log ++ es) p.log.length ∧ Indexed (p.log ++ es)
        ∧ c'.raftLog = c.raftLog.appended (p.log ++ es) p.log.length := by
  cases appends with
  | mk leads es nonempty index proposal source raftLog appends =>
      obtain ⟨appended, indexed, same⟩ := piped.appended_stamped nonempty
      rw [appends] at same
      exact ⟨rfl, leads, c.stamped es, appended, indexed, Except.ok.inj same⟩

omit [Codec] in
/-- A leader appends entries that belong to the log of its term. -/
theorem Appends.moved (appends : Appends m c c') (logs : ∀ t, Matched L (L t))
    (piped : Piped L async p c.term c.raftLog)
    (within : c'.raftLog.logical.Within (L c'.term))
    : Moved L async p c c' := by
  obtain ⟨term, _, es, appended, indexed, log⟩ := appends.appended piped
  have base := piped.logical.within
  have endOf : c'.raftLog.logical.EndOf (p.log ++ es) := by
    rw [log]
    exact piped.logical.truncateAndAppend indexed base appended.longer appended.common
  have sameBase : c'.raftLog.logical.base = c.raftLog.logical.base := by
    rw [log]
    simp only [RaftLog.appended, LogicalLog.truncateAndAppend]
    split <;> rfl
  have leader : p.log ++ es <+: L c'.term := by
    refine within.isPrefix endOf ?_ (logs _)
    rw [sameBase, List.take_append_of_le_length base]
    exact piped.pipe.line.current.take _
  have matched : Matched L (p.log ++ es) := by
    rw [List.prefix_iff_eq_take.mp leader]
    exact (logs _).take _
  have replaces : Replaces L p (p.log ++ es) := by
    refine ⟨by rw [piped.term, ← term]; exact leader, fun pre => ?_, matched⟩
    have := pre.length_le
    have := appended.longer
    omega
  have piped' := piped.append replaces appended
  rw [← log] at piped'
  exact .withLog piped piped' term (.inr (term ▸ leader))

/-- A step that is no answer of the local threads moves the pipeline. As long as the node
leads in the end, its log is a part of the log of its term.
-/
theorem Steps.moved (steps : Steps now m c c') (logs : ∀ t, Matched L (L t))
    (source : m.OfLeader L)
    (remote : m.type.isStored = false) (piped : Piped L async p c.term c.raftLog)
    (leads : c'.state = .stateLeader → c'.raftLog.logical.Within (L c'.term))
    : Moved L async p c c' := by
  obtain ⟨c₁, acts, rfl | ⟨c₂, appends, new, rfl, sends⟩⟩ := steps
  · exact Acts.moved acts logs source remote piped
  · refine (Acts.moved acts logs source remote piped).trans fun piped₁ => ?_
    obtain ⟨_, leader, _⟩ := appends.appended piped₁
    exact (appends.moved logs piped₁ (leads leader)).trans fun piped₂ => .still piped₂ rfl rfl

end EtcdRaft
