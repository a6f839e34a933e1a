import EtcdRaft.Runs.Consecutive
import EtcdRaft.Runs.Lifetimes

/-! Committed entries are handed out once and in order, whatever arrives, as long as the
entries of each message are consecutive.
-/

namespace EtcdRaft

-----------------------------------------------------------------------------------------
-- Changes of the log in memory
-----------------------------------------------------------------------------------------

/-- The entries of a `MsgApp` follow the index it names. -/
def Message.Sliced (m : Message) : Prop := m.type = .msgApp → Consecutive (m.index + 1) m.entries

/-- What happens to the log while a message is handled: a new snapshot is one that lies
beyond the commit index.
-/
structure Edits (l l' : RaftLog) : Prop where
  keeps : Keeps l l'
  unstable : l.unstable.Contiguous → l'.unstable.Contiguous
  snapshot : l'.unstable.snapshot = l.unstable.snapshot
      ∧ l'.unstable.snapshotInProgress = l.unstable.snapshotInProgress
    ∨ ∃ s, l'.unstable.snapshot = some s ∧ l'.unstable.snapshotInProgress = false
      ∧ l.committed < s.metadata.index ∧ s.metadata.index ≤ l'.committed

namespace Edits

variable {l l' : RaftLog}

theorem refl (l : RaftLog) : Edits l l := ⟨.refl l, fun ok => ok, .inl ⟨rfl, rfl⟩⟩

theorem trans {l₁ l₂ l₃ : RaftLog} (first : Edits l₁ l₂) (second : Edits l₂ l₃) : Edits l₁ l₃ where
  keeps := first.keeps.trans second.keeps
  unstable := second.unstable ∘ first.unstable
  snapshot := by
    have earlier := first.keeps.committed
    have later := second.keeps.committed
    rcases second.snapshot with ⟨same, handed⟩ | ⟨s, some, fresh, above, below⟩
    · rcases first.snapshot with ⟨same', handed'⟩ | ⟨s, some, fresh, above, below⟩
      · exact .inl ⟨same.trans same', handed.trans handed'⟩
      · exact .inr ⟨s, same.trans some, handed.trans fresh, above, below.trans later⟩
    · exact .inr ⟨s, some, fresh, earlier.trans_lt above, below⟩

theorem commitTo {k : Nat} (committed : l.commitTo k = .ok l') : Edits l l' := by
  have keeps := Keeps.commitTo committed
  rw [RaftLog.commitTo_ok committed] at keeps ⊢
  exact ⟨keeps, fun ok => ok, .inl ⟨rfl, rfl⟩⟩

theorem append {first : Nat} {es : List Entry} (new : Consecutive first es)
    (appended : l.append es = .ok l')
    : Edits l l' := by
  have keeps := Keeps.append appended
  rcases RaftLog.append_ok appended with ⟨_, rfl⟩ | ⟨_, _, _, _, _, truncated, rfl⟩
  · exact .refl _
  · exact ⟨keeps, fun ok => ok.truncateAndAppend new truncated,
      .inl (Unstable.truncateAndAppend_snapshot truncated)⟩

theorem maybeAppend {a : LogSlice} {k : Nat} {last : Option Nat}
    (new : Consecutive (a.prev.index + 1) a.entries)
    (appended : l.maybeAppend a k = .ok (l', last))
    : Edits l l' := by
  rcases RaftLog.maybeAppend_ok appended with rfl | ⟨l₁, j, rfl | ⟨n, append⟩, commits⟩
  · exact .refl _
  · exact .commitTo commits
  · exact (Edits.append (new.drop _) append).trans (.commitTo commits)

theorem restore {s : Snapshot} (newer : l.committed < s.metadata.index) : Edits l (l.restore s) :=
  ⟨.restore newer, fun _ => .nil, .inr ⟨s, rfl, rfl, newer, Nat.le_refl _⟩⟩

end Edits

section

variable [Codec] {now : Nat} {m : Message} {c c' : Core}

/-- A small action edits the log. -/
theorem Act.edits (act : Act now m c c') (sliced : m.Sliced)
    (remote : m.type.isStored = false)
    : Edits c.raftLog c'.raftLog ∧ c.term ≤ c'.term := by
  cases act with
  | becomeFollower term newer later => exact ⟨.refl _, newer⟩
  | becomeCandidate notLeader may => exact ⟨.refl _, Nat.le_succ _⟩
  | commit leads raftLog commits =>
      refine ⟨?_, Nat.le_refl _⟩
      unfold RaftLog.maybeCommit at commits
      split at commits
      · obtain ⟨l', commits, eq⟩ := except_bind_eq_ok.mp commits
        cases eq
        exact .commitTo commits
      · cases commits
  | accept type follower term above raftLog last appended =>
      exact ⟨.maybeAppend (sliced type) appended, Nat.le_refl _⟩
  | heartbeat type follower term raftLog committed =>
      exact ⟨.commitTo committed, Nat.le_refl _⟩
  | fastForward type follower term newer holds raftLog committed =>
      exact ⟨.commitTo committed, Nat.le_refl _⟩
  | restore type follower term newer lacks chg blank cfg progress config same =>
      exact ⟨.restore newer, Nat.le_refl _⟩
  | stored type current term raftLog stores =>
      rw [type] at remote
      cases remote
  | applied type e last size raftLog applies =>
      rw [type] at remote
      cases remote
  | _ => exact ⟨.refl _, Nat.le_refl _⟩

theorem Acts.edits (acts : Acts now m c c') (sliced : m.Sliced)
    (remote : m.type.isStored = false)
    : Edits c.raftLog c'.raftLog ∧ c.term ≤ c'.term := by
  induction acts with
  | refl => exact ⟨.refl _, Nat.le_refl _⟩
  | tail _ act ih =>
      obtain ⟨edits, newer⟩ := act.edits sliced remote
      exact ⟨ih.1.trans edits, ih.2.trans newer⟩

omit [Codec] in
theorem Core.consecutive_stamped (c : Core) (es : List Entry)
    : Consecutive (c.raftLog.lastIndex + 1) (c.stamped es) := by
  intro k e found
  simp only [Core.stamped, List.getElem?_mapIdx, Option.map_eq_some_iff] at found
  obtain ⟨e', _, rfl⟩ := found
  rfl

/-- A step edits the log. -/
theorem Steps.edits (steps : Steps now m c c') (sliced : m.Sliced)
    (remote : m.type.isStored = false)
    : Edits c.raftLog c'.raftLog ∧ c.term ≤ c'.term := by
  obtain ⟨c₁, acts, rfl | ⟨c₂, appends, new, rfl, sends⟩⟩ := steps
  · exact Acts.edits acts sliced remote
  · obtain ⟨edits, newer⟩ := Acts.edits acts sliced remote
    obtain ⟨leads, es, nonempty, index, proposal, source, raftLog, appends⟩ := appends
    exact ⟨edits.trans (.append (c₁.consecutive_stamped es) appends), newer⟩

-----------------------------------------------------------------------------------------
-- The history of a lifetime
-----------------------------------------------------------------------------------------

/-- The snapshot that the node acknowledges as applied with an input. -/
def Host.acknowledged (h : Host) : Input → Option Snapshot
  | .event .appendResp => h.appended.head?.bind Message.snapshot
  | .own => h.ownMessages.head?.bind fun m =>
      if m.type = .msgStorageAppendResp then m.snapshot else none
  | _ => none

/-- A host, the entries that its node has handed out and the index of the last snapshot
that was acknowledged as applied.
-/
structure Trace where
  host : Host
  handedOut : List Entry := []
  acked : Nat := 0

namespace Trace

/-- The index of the last entry that was handed out. -/
def lastHandedOut (t : Trace) : Nat := (t.handedOut.getLast?.map Entry.index).getD 0

def next (σ : Setup) (id : Nat) (t : Trace) (i : Input) : Trace :=
  let (h, out) := t.host.input σ id i
  { host := h
    handedOut := t.handedOut ++ out.handedOut
    acked := ((t.host.acknowledged i).map fun s => s.metadata.index).getD t.acked }

end Trace

/-- The history of a lifetime. -/
def Launch.trace (x : Launch) (inputs : List Input) : Trace :=
  inputs.foldl (Trace.next x.setup x.id) { host := x.host }

/-- The index that is applied at the start. -/
def Launch.initialApplied (x : Launch) : Nat :=
  if x.config.applied = 0 then x.disk.dummy.index else x.config.applied

/-- The entries of a message that arrives are consecutive. -/
def Input.Sliced : Input → Prop
  | .receive m => m.Public ∧ m.Sliced
  | .event e => e.steady = true
  | _ => True

-----------------------------------------------------------------------------------------
-- The answers that are on their way
-----------------------------------------------------------------------------------------

/-- The indexes of the snapshots that are still to be acknowledged. -/
def snapshotIndexes (resps : List Message) : List Nat :=
  resps.filterMap fun m => m.snapshot.map fun s => s.metadata.index

/-- What has been handed out and acknowledged, and what is still on its way. -/
structure Delivered (start : Nat) (t : Trace) (rn : RawNode) : Prop where
  contiguous : rn.raft.raftLog.Contiguous
  writes : ∀ w ∈ t.host.writes, ∃ first, Consecutive first w.entries
  applying : rn.raft.raftLog.applying = max (max t.lastHandedOut start) t.acked
  applied : rn.raft.raftLog.applied ≤ rn.raft.raftLog.applying
  applyResps : ∀ m ∈ t.host.applyResps rn, ∀ e, m.entries.getLast? = some e
    → e.index ≤ rn.raft.raftLog.applying
  increasing : t.handedOut.Pairwise fun e e' => e.index < e'.index
  below : ∀ e ∈ t.handedOut, e.index ≤ rn.raft.raftLog.applying
  terms : ∀ m ∈ t.host.appendResps rn, m.term ≤ rn.raft.term
  snapshots : (t.acked :: snapshotIndexes (t.host.appendResps rn)).Pairwise (· < ·)
  committed : ∀ i ∈ t.acked :: snapshotIndexes (t.host.appendResps rn),
    i ≤ rn.raft.raftLog.committed
  pending : ∀ s, rn.raft.raftLog.unstable.snapshot = some s
    → s.metadata.index ≤ rn.raft.raftLog.committed
  fresh : ∀ s, rn.raft.raftLog.unstable.snapshot = some s
    → rn.raft.raftLog.unstable.snapshotInProgress = false
    → ∀ i ∈ t.acked :: snapshotIndexes (t.host.appendResps rn), i < s.metadata.index

namespace Delivered

variable {start : Nat} {t : Trace} {rn : RawNode}

omit [Codec] in
/-- The node edits its log. -/
theorem edit {r : Raft} (ok : Delivered start t rn)
    (edits : Edits rn.raft.raftLog r.raftLog)
    (newer : rn.raft.term ≤ r.term) {node : Option RawNode}
    : Delivered start { t with host := { t.host with node := node } } { rn with raft := r } where
  contiguous := by
    refine ⟨?_, edits.unstable ok.contiguous.unstable⟩
    show r.raftLog.storage.Contiguous
    rw [edits.keeps.storage]
    exact ok.contiguous.storage
  writes := ok.writes
  applying := edits.keeps.applying.trans ok.applying
  applied := by
    show r.raftLog.applied ≤ r.raftLog.applying
    rw [edits.keeps.applied, edits.keeps.applying]
    exact ok.applied
  applyResps := by
    show ∀ m ∈ t.host.applyResps rn, ∀ e : Entry, _ → e.index ≤ r.raftLog.applying
    rw [edits.keeps.applying]
    exact ok.applyResps
  increasing := ok.increasing
  below := by
    show ∀ e ∈ t.handedOut, e.index ≤ r.raftLog.applying
    rw [edits.keeps.applying]
    exact ok.below
  terms := fun m member => (ok.terms m member).trans newer
  snapshots := ok.snapshots
  committed := fun i member => (ok.committed i member).trans edits.keeps.committed
  pending := by
    intro s some
    rcases edits.snapshot with ⟨same, _⟩ | ⟨s', some', _, _, below⟩
    · exact (ok.pending s (same ▸ some)).trans edits.keeps.committed
    · cases some'.symm.trans some
      exact below
  fresh := by
    intro s some handed i member
    rcases edits.snapshot with ⟨same, same'⟩ | ⟨s', some', _, above, _⟩
    · exact ok.fresh s (same ▸ some) (same' ▸ handed) i member
    · cases some'.symm.trans some
      exact (ok.committed i member).trans_lt above

omit [Codec] in
/-- The storage changes, and its entries stay consecutive. -/
theorem withStorage {ms : MemoryStorage} (ok : Delivered start t rn)
    (contiguous : ms.Contiguous)
    : Delivered start t (Host.setStorage rn ms) :=
  { ok with contiguous := ⟨contiguous, ok.contiguous.unstable⟩ }

omit [Codec] in
/-- Another host with the same answers to come of the append thread. -/
theorem requeue {h' : Host} (ok : Delivered start t rn)
    (appended : h'.appended = t.host.appended) (writes : h'.writes = t.host.writes)
    (applied : ∀ m ∈ h'.applyResps rn, m ∈ t.host.applyResps rn)
    : Delivered start { t with host := h' } rn := by
  have same : h'.appendResps rn = t.host.appendResps rn := by
    unfold Host.appendResps
    rw [appended, writes]
  exact { ok with
    writes := writes ▸ ok.writes
    applyResps := fun m member => ok.applyResps m (applied m member)
    terms := same ▸ ok.terms
    snapshots := same ▸ ok.snapshots
    committed := same ▸ ok.committed
    fresh := same ▸ ok.fresh }

-----------------------------------------------------------------------------------------
-- Answers of the local threads
-----------------------------------------------------------------------------------------

omit [Codec] in
/-- Entries that were handed out have been applied. -/
theorem apply {i size : Nat} {l : RaftLog} (ok : Delivered start t rn)
    (handedOut : i ≤ rn.raft.raftLog.applying)
    (applies : rn.raft.raftLog.appliedTo i size = .ok l)
    : Delivered start t { rn with raft := { rn.raft with raftLog := l } } := by
  obtain ⟨_, _, unstable, storage, committed, applying, applied, _⟩ :=
    appliedTo_ok applies
  rw [Nat.max_eq_left handedOut] at applying
  exact { ok with
    contiguous := ⟨storage ▸ ok.contiguous.storage, unstable ▸ ok.contiguous.unstable⟩
    applying := applying.trans ok.applying
    applied := by
      show l.applied ≤ l.applying
      rw [applied, applying]
      exact handedOut
    applyResps := applying ▸ ok.applyResps
    below := applying ▸ ok.below
    committed := committed ▸ ok.committed
    pending := by
      show ∀ s, l.unstable.snapshot = some s → s.metadata.index ≤ l.committed
      rw [unstable, committed]
      exact ok.pending
    fresh := unstable ▸ ok.fresh }

/-- The node handles an answer of the apply thread. -/
theorem answerApply {m : Message} {r : Raft} {err : Option StepError}
    {node : Option RawNode} (ok : Delivered start t rn) (answer : m.IsApplyResp)
    (handedOut : ∀ e, m.entries.getLast? = some e → e.index ≤ rn.raft.raftLog.applying)
    (steps : rn.raft.step m = .ok (r, err))
    : Delivered start { t with host := { t.host with node := node } } { rn with raft := r } := by
  rcases Raft.step_applied answer.type answer.term steps with
    ⟨same, _⟩ | ⟨e, l, last, applies, steps⟩
  · have log : r.raftLog = rn.raft.raftLog := congrArg Core.raftLog same
    have term : r.term = rn.raft.term := congrArg Core.term same
    exact ok.edit (log ▸ .refl _) term.ge
  · obtain ⟨edits, newer⟩ := Steps.edits steps nofun rfl
    have applied := ok.apply (Nat.max_le.mpr ⟨handedOut e last, ok.applied⟩) applies
    exact applied.edit edits newer

omit [Codec] in
theorem contiguous_stored {l l' : RaftLog} {current : Bool} {m : Message}
    (ok : l.Contiguous) (stores : l.stored current m = .ok l')
    : l'.Contiguous := by
  have storage := (RaftLog.stored_ok stores).storage
  refine ⟨storage ▸ ok.storage, ?_⟩
  have stable : ((if current = true ∧ m.index ≠ 0
      then l.stableTo { term := m.logTerm, index := m.index } else l).unstable).Contiguous := by
    split
    · exact ok.unstable.stableTo _
    · exact ok.unstable
  unfold RaftLog.stored at stores
  dsimp only at stores
  split at stores
  · cases stores
    exact stable
  · obtain ⟨_, _, unstable, _⟩ := appliedTo_ok stores
    rw [unstable]
    exact stable.stableSnapTo _

omit [Codec] in
/-- The first answer of the append thread is taken from its queue. -/
theorem stored {m : Message} {h' : Host} {rn' : RawNode} {l : RaftLog} {current : Bool}
    (ok : Delivered start t rn) (first : t.host.appendResps rn = m :: h'.appendResps rn')
    (writes : h'.writes = t.host.writes)
    (applied : ∀ m ∈ h'.applyResps rn', m ∈ t.host.applyResps rn)
    (stores : rn.raft.raftLog.stored current m = .ok l)
    : Delivered start
        { t with host := h', acked := (m.snapshot.map fun s => s.metadata.index).getD t.acked }
        { rn' with raft := { rn.raft with raftLog := l } } := by
  have kept := RaftLog.stored_ok stores
  have terms := ok.terms
  have snapshots := ok.snapshots
  have committed := ok.committed
  have fresh := ok.fresh
  -- The snapshot that is acknowledged comes after the last one and before the others.
  have split : snapshotIndexes (m :: h'.appendResps rn')
      = (m.snapshot.map fun s => s.metadata.index).toList
        ++ snapshotIndexes (h'.appendResps rn') := by
    unfold snapshotIndexes
    cases carries : m.snapshot with
    | none => rw [List.filterMap_cons_none (by rw [carries]; rfl)]; rfl
    | some s =>
        rw [List.filterMap_cons_some (b := s.metadata.index) (by rw [carries]; rfl)]; rfl
  rw [first] at terms snapshots committed fresh
  rw [split] at snapshots committed fresh
  have moves : ∃ i, (m.snapshot.map fun s => s.metadata.index).getD t.acked = i
      ∧ l.applying = max (max t.lastHandedOut start) i ∧ rn.raft.raftLog.applying ≤ l.applying
      ∧ l.applied ≤ l.applying
      ∧ (i :: snapshotIndexes (h'.appendResps rn')).Pairwise (· < ·)
      ∧ ∀ j ∈ i :: snapshotIndexes (h'.appendResps rn'),
        j ∈ t.acked :: ((m.snapshot.map fun s => s.metadata.index).toList
          ++ snapshotIndexes (h'.appendResps rn')) := by
    have applying := kept.applying
    have applied := kept.applied
    have old := ok.applying
    have below := ok.applied
    cases carries : m.snapshot with
    | none =>
        rw [carries] at applying applied snapshots
        dsimp only at applying applied
        exact ⟨t.acked, rfl, applying.trans old, applying.ge, by omega, snapshots, fun j => id⟩
    | some s =>
        rw [carries] at applying applied snapshots
        dsimp only at applying applied
        obtain ⟨later, rest⟩ := List.pairwise_cons.mp snapshots
        have later : t.acked < s.metadata.index := later _ List.mem_cons_self
        exact ⟨s.metadata.index, rfl, by omega, by omega, by omega, rest,
          fun j => List.mem_cons_of_mem _⟩
  obtain ⟨i, acked, applying, grows, within, increasing, among⟩ := moves
  rw [acked]
  exact {
    contiguous := contiguous_stored ok.contiguous stores
    writes := fun w member => ok.writes w (writes ▸ member)
    applying := applying
    applied := within
    applyResps := fun m member e last => (ok.applyResps m (applied m member) e last).trans grows
    increasing := ok.increasing
    below := fun e member => (ok.below e member).trans grows
    terms := fun m' member => terms m' (List.mem_cons_of_mem _ member)
    snapshots := increasing
    committed := fun j member => (committed j (among j member)).trans kept.committed.ge
    pending := by
      intro s some
      show s.metadata.index ≤ l.committed
      rw [kept.committed]
      rcases kept.snapshot with ⟨same, _⟩ | ⟨none, _⟩
      · exact ok.pending s (same ▸ some)
      · exact absurd (none.symm.trans some) nofun
    fresh := by
      intro s some handed j member
      rcases kept.snapshot with ⟨same, same'⟩ | ⟨none, _⟩
      · exact fresh s (same ▸ some) (same' ▸ handed) j (among j member)
      · exact absurd (none.symm.trans some) nofun }

/-- The node handles the first answer of the append thread. -/
theorem answerAppend {m : Message} {h' : Host} {rn' : RawNode} {r : Raft}
    {err : Option StepError}
    {node : Option RawNode} (ok : Delivered start t rn) (answer : m.IsAppendResp)
    (first : t.host.appendResps rn = m :: h'.appendResps rn')
    (writes : h'.writes = t.host.writes)
    (applied : ∀ m ∈ h'.applyResps rn', m ∈ t.host.applyResps rn)
    (steps : rn.raft.step m = .ok (r, err))
    : Delivered start
        { t with
          host := { h' with node := node }
          acked := (m.snapshot.map fun s => s.metadata.index).getD t.acked }
        { rn' with raft := r } := by
  have older := ok.terms m (first ▸ List.mem_cons_self)
  obtain ⟨current, l, _, stores, steps⟩ :=
    Raft.step_stored answer.type answer.term older steps
  obtain ⟨edits, newer⟩ := Steps.edits steps nofun rfl
  exact (ok.stored first writes applied stores).edit edits newer

omit [Codec] in
/-- Another message is taken from those that the node steps on `Advance`. -/
theorem dropOwn {m : Message} {rest : List Message} (ok : Delivered start t rn)
    (queued : rn.stepsOnAdvance = m :: rest)
    (other : m.type ≠ .msgStorageAppendResp)
    : Delivered start t { rn with stepsOnAdvance := rest } := by
  have same : t.host.appendResps { rn with stepsOnAdvance := rest } = t.host.appendResps rn := by
    unfold Host.appendResps
    rw [queued, List.filter_cons_of_neg (by simp [other])]
  exact { ok with
    applyResps := by
      intro m' member
      refine ok.applyResps m' ?_
      unfold Host.applyResps at member ⊢
      rw [queued]
      refine (List.mem_append.mp member).elim (List.mem_append_left _) fun own => ?_
      exact List.mem_append_right _ (List.filter_subset _ (List.subset_cons_self _ _) own)
    terms := same ▸ ok.terms
    snapshots := same ▸ ok.snapshots
    committed := same ▸ ok.committed
    fresh := same ▸ ok.fresh }

-----------------------------------------------------------------------------------------
-- Ready
-----------------------------------------------------------------------------------------

/-- What is handed out next follows what was handed out before. -/
theorem consecutive {committed : List Entry} {allowUnstable : Bool}
    (ok : Delivered start t rn)
    (appliable : rn.raft.raftLog.nextCommittedEnts allowUnstable = .ok committed)
    : Consecutive (rn.raft.raftLog.applying + 1) committed :=
  fun k e found =>
    ok.contiguous.index ((RaftLog.reads_nextCommittedEnts appliable).1 k e found)

omit [Codec] in
/-- The answer to a write carries the snapshot that has not been handed out, if there is
one.
-/
theorem snapshotIndexes_answers {resps : List Message}
    (answers : storageAppendResp rn.raft rn.raft.raftLog.unstable.nextSnapshot = .ok resps)
    : (∀ m ∈ resps, m.term = rn.raft.term) ∧ (snapshotIndexes resps = [] ∨ ∃ s,
      snapshotIndexes resps = [s.metadata.index] ∧ rn.raft.raftLog.unstable.snapshot = some s
        ∧ rn.raft.raftLog.unstable.snapshotInProgress = false) := by
  rcases RawNode.storageAppendResp_ok answers with ⟨rfl, _⟩ | ⟨m, rfl, answer⟩
  · exact ⟨List.forall_mem_nil _, .inl rfl⟩
  · refine ⟨List.forall_mem_singleton.mpr answer.term, ?_⟩
    have carried := answer.snapshot
    unfold snapshotIndexes
    cases carries : m.snapshot with
    | none =>
        left
        simp [carries]
    | some s =>
        rw [carries] at carried
        split at carried
        · cases carried
        · unfold Unstable.nextSnapshot at carried
          split at carried
          · cases carried
          · rename_i handed
            exact .inr ⟨s, by simp [carries], carried.symm, Bool.eq_false_iff.mpr handed⟩

/-- The node hands out a `Ready`. -/
theorem handOut {h' : Host} {rd : Ready} {committed : List Entry}
    {resps steps : List Message} {raftLog : RaftLog} (ok : Delivered start t rn)
    (appliable : rn.raft.raftLog.nextCommittedEnts rn.applyUnstableEntries = .ok committed)
    (accepts : rn.handedOutLog committed = .ok raftLog)
    (writes : ∀ w ∈ h'.writes, w ∈ t.host.writes
      ∨ w.entries = rn.raft.raftLog.unstable.nextEntries)
    (applied : h'.applyResps (rn.accepted rd steps raftLog)
      = t.host.applyResps rn ++ rn.applyAnswers committed)
    (queue : h'.appendResps (rn.accepted rd steps raftLog) = t.host.appendResps rn ++ resps)
    (terms : ∀ m ∈ resps, m.term = rn.raft.term)
    (answers : snapshotIndexes resps = [] ∨ ∃ s,
      snapshotIndexes resps = [s.metadata.index] ∧ rn.raft.raftLog.unstable.snapshot = some s
        ∧ rn.raft.raftLog.unstable.snapshotInProgress = false)
    : Delivered start { t with host := h', handedOut := t.handedOut ++ committed }
        (rn.accepted rd steps raftLog) := by
  obtain ⟨unstable, storage, commit, appliedIndex, _, applying⟩ :=
    RawNode.handedOutLog_ok accepts
  have consecutive := ok.consecutive appliable
  rw [consecutive.getLast] at applying
  have grows : rn.raft.raftLog.applying ≤ raftLog.applying :=
    applying ▸ Nat.le_add_right _ _
  have indexes : snapshotIndexes (h'.appendResps (rn.accepted rd steps raftLog))
      = snapshotIndexes (t.host.appendResps rn) ++ snapshotIndexes resps := by
    rw [queue, snapshotIndexes, List.filterMap_append]
    rfl
  have new : ∀ i ∈ snapshotIndexes resps, i ≤ rn.raft.raftLog.committed
      ∧ ∀ j ∈ t.acked :: snapshotIndexes (t.host.appendResps rn), j < i := by
    intro i member
    rcases answers with none | ⟨s, one, pending, handed⟩
    · rw [none] at member
      cases member
    · rw [one] at member
      rw [List.mem_singleton.mp member]
      exact ⟨ok.pending s pending, ok.fresh s pending handed⟩
  exact {
    contiguous := by
      refine ⟨?_, ?_⟩
      · show raftLog.storage.Contiguous
        rw [storage]
        exact ok.contiguous.storage
      · show raftLog.unstable.Contiguous
        rw [unstable]
        exact ok.contiguous.unstable
    writes := by
      intro w member
      rcases writes w member with old | new
      · exact ok.writes w old
      · rw [new]
        exact ⟨_, ok.contiguous.unstable.drop _⟩
    applying := by
      show raftLog.applying = max (max _ start) t.acked
      have before := ok.applying
      have last := consecutive.getLast
      unfold Trace.lastHandedOut at before ⊢
      cases some : committed.getLast? with
      | none =>
          rw [List.getLast?_eq_none_iff] at some
          rw [some, List.append_nil]
          rw [some] at applying
          exact applying.trans before
      | some e =>
          rw [List.getLast?_append_of_ne_nil _ (by rintro rfl; cases some), some]
          rw [some] at last
          simp only [Option.map_some, Option.getD_some] at last ⊢
          omega
    applied := by
      show raftLog.applied ≤ raftLog.applying
      rw [appliedIndex]
      exact ok.applied.trans grows
    applyResps := by
      intro m member e last
      show e.index ≤ raftLog.applying
      rw [applied] at member
      rcases List.mem_append.mp member with old | new
      · exact (ok.applyResps m old e last).trans grows
      · rw [RawNode.mem_applyAnswers new] at last
        have within := consecutive.ge e (List.mem_of_getLast? last)
        omega
    increasing := by
      refine List.pairwise_append.mpr ⟨ok.increasing, consecutive.increasing, ?_⟩
      intro e old e' new
      have before := ok.below e old
      have after := consecutive.ge e' new
      omega
    below := by
      refine List.forall_mem_append.mpr ⟨fun e old => (ok.below e old).trans grows, ?_⟩
      intro e new
      have within := consecutive.ge e new
      show e.index ≤ raftLog.applying
      omega
    terms := by
      show ∀ m ∈ h'.appendResps (rn.accepted rd steps raftLog), m.term ≤ rn.raft.term
      rw [queue]
      exact List.forall_mem_append.mpr ⟨ok.terms, fun m member => (terms m member).le⟩
    snapshots := by
      show (t.acked :: snapshotIndexes (h'.appendResps (rn.accepted rd steps raftLog))).Pairwise _
      rw [indexes, ← List.cons_append]
      refine List.pairwise_append.mpr ⟨ok.snapshots, ?_, fun j old i member => ?_⟩
      · rcases answers with none | ⟨s, one, _⟩
        · rw [none]
          exact .nil
        · rw [one]
          exact List.pairwise_singleton _ _
      · exact (new i member).2 j old
    committed := by
      show ∀ i ∈ t.acked :: snapshotIndexes (h'.appendResps (rn.accepted rd steps raftLog)),
        i ≤ raftLog.committed
      rw [indexes, ← List.cons_append, commit]
      exact List.forall_mem_append.mpr ⟨ok.committed, fun i member => (new i member).1⟩
    pending := by
      show ∀ s, raftLog.unstable.snapshot = some s → s.metadata.index ≤ raftLog.committed
      rw [unstable, commit]
      exact ok.pending
    fresh := by
      show ∀ s, raftLog.unstable.snapshot = some s → raftLog.unstable.snapshotInProgress = false
        → _
      rw [unstable]
      intro s pending handed
      have pending : rn.raft.raftLog.unstable.snapshot = some s := pending
      simp [Unstable.acceptInProgress, pending] at handed }

end Delivered

-----------------------------------------------------------------------------------------
-- Transitions
-----------------------------------------------------------------------------------------

/-- What was handed out came in order. -/
def Trace.Orderly (start : Nat) (t : Trace) : Prop :=
  ∀ rn, t.host.node = some rn → Delivered start t rn

namespace Host

variable {σ : Setup} {id : Nat} {h : Host}

/-- Only `appendResp` takes an answer of the append thread from its queue, and only
`apply` takes what has been handed out.
-/
structure Queues (i : Input) (h h' : Host) : Prop where
  appended : i ≠ .event .appendResp → h.appended <+: h'.appended
  batches : i ≠ .event .apply → h.batches <+: h'.batches

omit [Codec] in
theorem Queues.of_eq {i : Input} {h' : Host} (appended : h'.appended = h.appended)
    (batches : h'.batches = h.batches)
    : Queues i h h' :=
  ⟨fun _ => appended ▸ List.prefix_refl _, fun _ => batches ▸ List.prefix_refl _⟩

omit [Codec] in
theorem outcome_queues {i : Input} {h' : Host} {x : Result (Host × Output)}
    (keeps : ∀ res, x = .ok res → Queues i h res.1)
    : (h'.outcome x).1.node = none ∨ Queues i h (h'.outcome x).1 := by
  cases x with
  | ok res => exact .inr (keeps res rfl)
  | error p => exact .inl rfl

omit [Codec] in
theorem call_queues {i : Input} {h' : Host} (f : RawNode → Result RawNode)
    (keeps : ∀ rn, Queues i h { h' with node := some rn })
    : (h'.call f).1.node = none ∨ Queues i h (h'.call f).1 := by
  unfold Host.call
  cases node : h'.node with
  | none => exact .inl node
  | some rn =>
      refine outcome_queues fun res done => ?_
      obtain ⟨rn', _, eq⟩ := except_bind_eq_ok.mp done
      cases eq
      exact keeps rn'

theorem queues_step {e : HostEvent} (steady : e.steady = true)
    : (h.step σ id 0 e).1.node = none ∨ Queues (.event e) h (h.step σ id 0 e).1 := by
  have appended := List.prefix_refl h.appended
  have batches := List.prefix_refl h.batches
  cases e with
  | start c => cases steady
  | crash k => cases steady
  | advance => cases steady
  | appendResp =>
      show h.appendResp.1.node = none ∨ Queues _ h h.appendResp.1
      unfold Host.appendResp Host.stepMessage
      split
      · exact call_queues _ fun _ => ⟨fun other => absurd rfl other, fun _ => batches⟩
      · exact .inr (.of_eq rfl rfl)
  | proposeConfChange type data =>
      unfold Host.step
      dsimp only
      split
      · exact call_queues _ fun _ => .of_eq rfl rfl
      · exact .inr (.of_eq rfl rfl)
  | ready =>
      show h.ready.1.node = none ∨ Queues _ h h.ready.1
      unfold Host.ready
      split
      · exact .inr (.of_eq rfl rfl)
      · split
        · exact .inr (.of_eq rfl rfl)
        · refine outcome_queues fun res done => ?_
          obtain ⟨⟨rn, rd⟩, _, done⟩ := except_bind_eq_ok.mp done
          dsimp only at done
          split at done <;> cases done
            <;> exact ⟨fun _ => appended, fun _ => List.prefix_append _ _⟩
  | persist =>
      show (h.persist σ).1.node = none ∨ Queues _ h (h.persist σ).1
      unfold Host.persist
      split
      · refine outcome_queues fun res done => ?_
        obtain ⟨ms, _, done⟩ := except_bind_eq_ok.mp done
        cases done
        dsimp only
        split
        · exact ⟨fun _ => List.prefix_append _ _, fun _ => batches⟩
        · split
          · exact ⟨fun _ => List.prefix_append _ _, fun _ => batches⟩
          · exact ⟨fun _ => List.prefix_append _ _, fun _ => batches⟩
      · exact .inr (.of_eq rfl rfl)
  | apply =>
      have kept : ∀ h' : Host, h'.appended = h.appended → Queues (.event .apply) h h' :=
        fun h' same => ⟨fun _ => same ▸ appended, fun other => absurd rfl other⟩
      show h.apply.1.node = none ∨ Queues _ h h.apply.1
      unfold Host.apply
      split
      · refine outcome_queues fun res done => kept _ ?_
        dsimp only at done
        split at done
        · cases done
          rfl
        · obtain ⟨cc, _, done⟩ := except_bind_eq_ok.mp done
          cases cc with
          | none =>
              cases done
              rfl
          | some cc =>
              obtain ⟨⟨rn', cs⟩, _, done⟩ := except_bind_eq_ok.mp done
              cases done
              rfl
      · exact .inr (kept _ rfl)
      · exact .inr (kept _ rfl)
  | applyResp =>
      show h.applyResp.1.node = none ∨ Queues _ h h.applyResp.1
      unfold Host.applyResp Host.stepMessage
      split
      · exact call_queues _ fun _ => .of_eq rfl rfl
      · exact .inr (.of_eq rfl rfl)
  | createSnapshot i =>
      show (h.createSnapshot i).1.node = none ∨ Queues _ h (h.createSnapshot i).1
      unfold Host.createSnapshot
      split
      · exact .inr (.of_eq rfl rfl)
      · dsimp only
        split
        · exact .inr (.of_eq rfl rfl)
        · refine outcome_queues fun res done => ?_
          obtain ⟨ms, _, done⟩ := except_bind_eq_ok.mp done
          cases ms <;> cases done <;> exact .of_eq rfl rfl
  | compact i =>
      show (h.compact i).1.node = none ∨ Queues _ h (h.compact i).1
      unfold Host.compact
      split
      · exact .inr (.of_eq rfl rfl)
      · split
        · exact .inr (.of_eq rfl rfl)
        · refine outcome_queues fun res done => ?_
          obtain ⟨ms, _, done⟩ := except_bind_eq_ok.mp done
          cases ms <;> cases done <;> exact .of_eq rfl rfl
  | _ => exact call_queues _ fun _ => .of_eq rfl rfl

/-- Every input of a lifetime. -/
theorem queues_input {i : Input} (steady : ∀ e, i = .event e → e.steady = true)
    : (h.input σ id i).1.node = none ∨ Queues i h (h.input σ id i).1 := by
  cases i with
  | receive m => exact call_queues _ fun _ => .of_eq rfl rfl
  | event e => exact queues_step (steady e rfl)
  | release =>
      show h.release.1.node = none ∨ Queues _ h h.release.1
      unfold release
      split <;> exact .inr (.of_eq rfl rfl)
  | own =>
      show h.own.1.node = none ∨ Queues _ h h.own.1
      rcases h.own_cases with ⟨_, idle⟩ | ⟨_, _, _, _, _, _, _, ⟨_, _, stops⟩ | ⟨_, _, _, goes⟩⟩
      · rw [idle]
        exact .inr (.of_eq rfl rfl)
      · rw [stops]
        exact .inl rfl
      · rw [goes]
        exact .inr (.of_eq rfl rfl)

end Host

namespace Delivered

variable {start : Nat} {t : Trace} {rn : RawNode} {σ : Setup} {id : Nat}
  {arrives : Message → Prop}
  {async : Bool}

/-- A message that does not come from the local threads is handled. -/
theorem step {m : Message} {r : Raft} {err : Option StepError} {node : Option RawNode}
    (ok : Delivered start t rn) (sliced : m.Sliced) (remote : m.type.isStored = false)
    (sound : m.type.termed = true → m.term ≠ 0) (steps : rn.raft.step m = .ok (r, err))
    : Delivered start { t with host := { t.host with node := node } } { rn with raft := r } := by
  obtain ⟨now, steps⟩ := Raft.exists_steps sound steps
  obtain ⟨edits, newer⟩ := Steps.edits steps sliced remote
  exact ok.edit edits newer

/-- The node handles a message, which is not an answer of the append thread. -/
theorem handles {h' : Host} (ok : t.Orderly start) (termed : t.host.Termed)
    (network : ∀ m, arrives m → m.Public ∧ m.Sliced)
    (queue : h'.node = none ∨ t.host.appended <+: h'.appended)
    (handles : Host.Handles (Host.Source σ 0 arrives) t.host h')
    : { t with host := h' }.Orderly start := by
  obtain @⟨m, h₁, rn, r, err, source, node, steps⟩ := handles
  rintro _ ⟨⟩
  cases source with
  | @network m arrived =>
      obtain ⟨isPublic, sliced⟩ := network m arrived
      obtain ⟨stamp, same⟩ := m.receivedAt_eq 0
      rw [same] at steps
      have remote := MessageType.isStored_of_remote isPublic.remote
      exact (ok _ node).step (m := { m with stamp := stamp }) sliced remote isPublic.termed steps
  | call call =>
      have type := call.type
      refine (ok _ node).step ?_ (MessageType.isStored_of_called type) ?_ steps
      · intro app
        rw [app] at type
        cases type
      · rw [MessageType.termed_of_called type]
        nofun
  | appended queued =>
      rcases queue with down | pre
      · cases down
      · have length := pre.length_le
        rw [queued, List.length_cons] at length
        exact absurd length (Nat.not_succ_le_self _)
  | @applied _ rest queued =>
      have answer := termed.applied m (queued ▸ List.mem_cons_self)
      have ok := ok _ node
      have first : m ∈ t.host.applyResps rn := by
        unfold Host.applyResps
        rw [queued]
        exact List.mem_cons_self
      have ok' : Delivered start { t with host := { t.host with applied := rest } } rn := by
        refine ok.requeue rfl rfl fun m' member => ?_
        unfold Host.applyResps at member ⊢
        rw [queued]
        exact List.mem_cons_of_mem _ member
      exact ok'.answerApply answer (ok.applyResps m first) steps

omit [Codec] in
/-- The oldest write becomes durable. -/
theorem persist {w : Write} {rest : List Write} {ms : MemoryStorage} {h' : Host}
    (ok : Delivered start t rn) (queued : t.host.writes = w :: rest)
    (stored : Host.store rn.raft.raftLog.storage w = .ok ms) (writes : h'.writes = rest)
    (appended : h'.appended = t.host.appended ++ w.response)
    (batches : h'.batches = t.host.batches) (applied : h'.applied = t.host.applied)
    : Delivered start { t with host := h' } (Host.setStorage rn ms) := by
  have all := ok.writes
  rw [queued] at all
  obtain ⟨⟨first, new⟩, later⟩ := List.forall_mem_cons.mp all
  have same : h'.appendResps rn = t.host.appendResps rn := by
    unfold Host.appendResps
    simp only [appended, writes, queued, List.flatMap_cons, List.append_assoc]
  have same' : h'.applyResps rn = t.host.applyResps rn := by
    unfold Host.applyResps
    rw [applied, batches]
  have moved : Delivered start { t with host := h' } rn := { ok with
    writes := writes ▸ later
    applyResps := same' ▸ ok.applyResps
    terms := same ▸ ok.terms
    snapshots := same ▸ ok.snapshots
    committed := same ▸ ok.committed
    fresh := same ▸ ok.fresh }
  exact moved.withStorage (ok.contiguous.storage.store new stored)

/-- What a synchronous `Ready` hands out. -/
theorem readySync {rn' : RawNode} {rd : Ready} (ok : Delivered start t rn)
    (termed : t.host.Termed)
    (separate : t.host.Separate async) (node : t.host.node = some rn)
    (sync : rn'.asyncStorageWrites = false)
    (taken : rn.Taken rn' rd)
    : Delivered start { t with
        host := { t.host with
          node := some rn'
          outstanding := true
          writes := t.host.writes ++ [Host.writeOf rd rd.messages []]
          batches := t.host.batches ++ [{ entries := rd.committedEntries, response := [] }] }
        handedOut := t.handedOut ++ rd.committedEntries } rn' := by
  have ready := taken
  cases taken with
  | async mode => exact absurd (mode.symm.trans sync) nofun
  | @sync committed resps raftLog mode fresh appliable answers accepts =>
      have core := termed.core rn node
      obtain ⟨terms, snapshots⟩ := snapshotIndexes_answers answers
      have quiet := separate.quiet ((separate.mode rn node).symm.trans mode)
      obtain ⟨appendResps, applyResps⟩ :=
        @RawNode.filter_ownSteps rn committed resps core answers
      refine ok.handOut appliable accepts ?_ ?_ ?_ terms snapshots
      · intro w member
        rcases List.mem_append.mp member with old | new
        · exact .inl old
        · rw [List.mem_singleton.mp new]
          exact .inr rfl
      · exact separate.applyResps_ready node core ready rfl (by rw [sync]; rfl)
      · unfold Host.appendResps
        show t.host.appended ++ List.flatMap Write.response (t.host.writes ++ [_])
          ++ (rn.ownSteps committed resps).filter _ = _
        rw [fresh, appendResps, List.flatMap_append]
        simp [Host.writeOf]

/-- What an asynchronous `Ready` hands out. -/
theorem readyAsync {rn' : RawNode} {rd : Ready} (ok : Delivered start t rn)
    (termed : t.host.Termed)
    (separate : t.host.Separate async) (node : t.host.node = some rn)
    (isAsync : rn'.asyncStorageWrites = true)
    (taken : rn.Taken rn' rd)
    : Delivered start { t with
        host := { t.host with
          node := some rn'
          writes := t.host.writes ++ Host.asyncWrites rd
          batches := t.host.batches ++ Host.asyncBatches rd }
        handedOut := t.handedOut ++ rd.committedEntries } rn' := by
  have ready := taken
  cases taken with
  | sync mode => exact absurd (mode.symm.trans isAsync) nofun
  | @async committed resps append raftLog mode appliable request accepts =>
      have core := termed.core rn node
      have idle := separate.own ((separate.mode rn node).symm.trans mode) rn node
      have answers : (∀ m ∈ resps, m.term = rn.raft.term) ∧ (snapshotIndexes resps = [] ∨ ∃ s,
          snapshotIndexes resps = [s.metadata.index] ∧ rn.raft.raftLog.unstable.snapshot = some s
            ∧ rn.raft.raftLog.unstable.snapshotInProgress = false) := by
        cases request with
        | none => exact ⟨List.forall_mem_nil _, .inl rfl⟩
        | some answers => exact snapshotIndexes_answers answers
      refine ok.handOut appliable accepts ?_ ?_ ?_ answers.1 answers.2
      · intro w member
        rcases List.mem_append.mp member with old | new
        · exact .inl old
        · right
          unfold Host.asyncWrites at new
          split at new
          · cases new
          · rw [List.mem_singleton.mp new]
            rfl
      · exact separate.applyResps_ready node core ready rfl (by rw [isAsync]; rfl)
      · unfold Host.appendResps
        show t.host.appended ++ List.flatMap Write.response (t.host.writes ++ _)
          ++ rn.stepsOnAdvance.filter _ = _
        rw [idle, List.flatMap_append, Host.Termed.flatMap_asyncWrites core request]
        simp

/-- One transition, which does not take an answer of the append thread from its queue. -/
theorem once {out : Output} {h' : Host} (ok : t.Orderly start) (termed : t.host.Termed)
    (separate : t.host.Separate async)
    (network : ∀ m, arrives m → m.Public ∧ m.Sliced)
    (queue : h'.node = none ∨ t.host.appended <+: h'.appended)
    (down : t.host.node = none → h'.node = none)
    (once : Host.Once σ id 0 arrives t.host out h')
    : { t with host := h', handedOut := t.handedOut ++ out.handedOut }.Orderly start := by
  have quiet : ∀ {h' : Host}, { t with host := h' }.Orderly start
      → { t with host := h', handedOut := t.handedOut ++ [] }.Orderly start := by
    intro h' ok
    rwa [List.append_nil]
  cases once with
  | idle => exact quiet ok
  | one moves =>
      cases moves with
      | handle handles => exact quiet (Delivered.handles ok termed network queue handles)
      | refuse source refused =>
          refine quiet ?_
          cases source with
          | network arrived => exact ok
          | call call => exact ok
          | appended queued =>
              rcases queue with down' | pre
              · intro rn node
                exact absurd (down'.symm.trans node) nofun
              · have length := pre.length_le
                rw [queued, List.length_cons] at length
                exact absurd length (Nat.not_succ_le_self _)
          | @applied _ rest queued =>
              intro rn node
              refine (ok rn node).requeue rfl rfl fun m member => ?_
              unfold Host.applyResps at member ⊢
              rw [queued]
              exact List.mem_cons_of_mem _ member
      | fail failure => exact quiet fun rn node => absurd node nofun
      | start off known starts => exact absurd (down off) nofun
      | crash k =>
          refine quiet fun rn node => ?_
          have stopped : (t.host.crash k).1.node = none := by
            unfold Host.crash
            dsimp only
            split <;> rfl
          exact absurd (stopped.symm.trans node) nofun
      | tick node ticks =>
          refine quiet ?_
          rintro _ ⟨⟩
          obtain ⟨edits, newer⟩ := Acts.edits (Raft.acts_tick ticks) nofun rfl
          exact (ok _ node).edit edits newer
      | @readySync rn rn' rd node free sync taken =>
          rintro _ ⟨⟩
          exact (ok rn node).readySync termed separate node sync (rn.ends_ready.result taken)
      | @readyAsync rn rn' rd node free isAsync taken =>
          rintro _ ⟨⟩
          exact (ok rn node).readyAsync termed separate node isAsync (rn.ends_ready.result taken)
      | @persist rn w rest ms node queued stored =>
          refine quiet ?_
          unfold Host.persisted
          obtain ⟨app, confs, same⟩ := Host.installed_eq _ w.snapshot
          rw [same]
          rintro _ ⟨⟩
          exact (ok rn node).persist queued stored rfl rfl rfl rfl
      | skip node queued old =>
          exact quiet fun rn up =>
            (ok rn up).requeue rfl rfl (Host.mem_applyResps queued (.inl ⟨rfl, rfl⟩))
      | apply node queued new normal =>
          exact quiet fun rn up =>
            (ok rn up).requeue rfl rfl (Host.mem_applyResps queued (.inl ⟨rfl, rfl⟩))
      | applyConfChange node queued new decoded applied =>
          refine quiet ?_
          rintro _ ⟨⟩
          obtain ⟨cfg, progress, _, acts⟩ := Raft.acts_applyConfChange applied
          obtain ⟨edits, newer⟩ := Acts.edits acts nofun rfl
          exact ((ok _ node).edit edits newer).requeue rfl rfl
            (Host.mem_applyResps queued (.inl ⟨rfl, rfl⟩))
      | finish node queued =>
          refine quiet fun rn up => (ok rn up).requeue rfl rfl ?_
          exact @Host.mem_applyResps _ _ _ _ [] _ _ queued (.inr ⟨rfl, rfl⟩)
      | createSnapshot node applied durable known created =>
          refine quiet ?_
          rintro _ ⟨⟩
          have ok := ok _ node
          exact (ok.withStorage (ok.contiguous.storage.createSnapshot created)).requeue rfl rfl
            fun _ member => member
      | compact node applied compacted =>
          refine quiet ?_
          rintro _ ⟨⟩
          have ok := ok _ node
          exact (ok.withStorage (ok.contiguous.storage.compact compacted)).requeue rfl rfl
            fun _ member => member

end Delivered

-----------------------------------------------------------------------------------------
-- Whole lifetimes
-----------------------------------------------------------------------------------------

/-- A message of a local thread is not refused. -/
theorem Host.stepMessage_answer {h : Host} {rn : RawNode} {m : Message}
    (node : h.node = some rn) (answer : isLocalMsgTarget m.fromId = true)
    : (h.stepMessage m).1.node = none ∨ ∃ r err, rn.raft.step m = .ok (r, err)
      ∧ h.stepMessage m = ({ h with node := some { rn with raft := r } }, {}) := by
  unfold stepMessage call RawNode.step
  rw [node, answer, Bool.not_true, Bool.and_false, Bool.and_false]
  cases steps : rn.raft.step m with
  | ok res =>
      refine .inr ⟨res.1, res.2, rfl, ?_⟩
      dsimp only [Bool.false_and]
      rw [steps]
      rfl
  | error p =>
      dsimp only [Bool.false_and]
      rw [steps]
      exact .inl rfl

namespace Trace

variable {start : Nat} {t : Trace} {σ : Setup} {id : Nat} {async : Bool}

omit [Codec] in
theorem Orderly.of_down {t : Trace} (down : t.host.node = none) : t.Orderly start :=
  fun _ node => absurd (down.symm.trans node) nofun

/-- The node gets an answer of the append thread. -/
theorem Orderly.appendResp (ok : t.Orderly start) (termed : t.host.Termed)
    : (t.next σ id (.event .appendResp)).Orderly start := by
  unfold next Host.input Host.step Host.appendResp Host.acknowledged
  cases queued : t.host.appended with
  | nil =>
      dsimp only
      rw [List.append_nil]
      exact ok
  | cons m rest =>
      have answer := termed.appended m (queued ▸ List.mem_cons_self)
      dsimp only
      rcases Option.eq_none_or_eq_some t.host.node with down | ⟨rn, node⟩
      · refine .of_down ?_
        unfold Host.stepMessage Host.call
        rw [down]
      · have handled := @Host.stepMessage_answer _ { t.host with appended := rest } rn m node
          (by rw [answer.fromId]; rfl)
        dsimp only at handled
        rcases handled with down | ⟨r, err, steps, eq⟩
        · exact .of_down down
        · rw [eq, List.append_nil]
          rintro _ ⟨⟩
          have popped : t.host.appendResps rn
              = m :: { t.host with appended := rest }.appendResps rn := by
            unfold Host.appendResps
            rw [queued]
            rfl
          exact (ok rn node).answerAppend answer popped rfl (fun _ member => member) steps

/-- The node steps the next message of its own. -/
theorem Orderly.own (ok : t.Orderly start) (termed : t.host.Termed)
    (separate : t.host.Separate async)
    : (t.next σ id .own).Orderly start := by
  unfold next Host.input Host.acknowledged
  dsimp only
  rcases Host.own_cases t.host with ⟨idle, same⟩
    | ⟨rn, m, rest, node, queued, released, first, handled⟩
  · rw [same, idle]
    dsimp only [List.head?_nil, Option.bind_none, Option.map_none, Option.getD_none]
    rw [List.append_nil]
    exact ok
  · rcases handled with ⟨p, _, eq⟩ | ⟨r, err, steps, eq⟩
    · rw [eq]
      exact .of_down rfl
    · rw [eq, first, List.append_nil]
      rintro _ ⟨⟩
      have ok := ok rn node
      have quiet : t.host.Quiet := by
        cases async with
        | false => exact separate.quiet rfl
        | true => exact absurd (queued.symm.trans (separate.own rfl rn node)) nofun
      have member : m ∈ rn.stepsOnAdvance := queued ▸ List.mem_cons_self
      rcases termed.own rn node m member with waiting | append | apply
      · obtain ⟨notApp, _, remote⟩ := waiting.other
        have other : m.type ≠ .msgStorageAppendResp := fun same => by
          rw [same] at remote
          cases remote
        rw [List.head?_cons, Option.bind_some, if_neg other]
        exact (ok.dropOwn queued other).step (fun app => absurd app notApp) remote waiting.termed
          steps
      · rw [List.head?_cons, Option.bind_some, if_pos append.type]
        have popped : t.host.appendResps rn
            = m :: t.host.appendResps { rn with stepsOnAdvance := rest } := by
          unfold Host.appendResps
          rw [quiet.appended, released.2.1, queued, List.filter_cons_of_pos (by simp [append.type])]
          rfl
        refine ok.answerAppend append popped rfl (fun m' member' => ?_) steps
        unfold Host.applyResps at member' ⊢
        rw [queued, List.filter_cons_of_neg (by simp [append.type])]
        exact member'
      · have other : m.type ≠ .msgStorageAppendResp := by
          rw [apply.type]
          nofun
        rw [List.head?_cons, Option.bind_some, if_neg other]
        have first : m ∈ t.host.applyResps rn :=
          List.mem_append_right _ (List.mem_filter.mpr ⟨member, by simp [apply.type]⟩)
        exact (ok.dropOwn queued other).answerApply apply (ok.applyResps m first) steps

theorem Orderly.release (ok : t.Orderly start)
    : (t.next σ id .release).Orderly start := by
  unfold next Host.input Host.release Host.acknowledged
  dsimp only
  split
  · rw [List.append_nil]
    exact fun rn node => (ok rn node).requeue rfl rfl fun _ member => member
  · rw [List.append_nil]
    exact ok

/-- Every input keeps the order. -/
theorem Orderly.next {i : Input} (ok : t.Orderly start) (termed : t.host.Termed)
    (separate : t.host.Separate async) (sliced : i.Sliced)
    : (t.next σ id i).Orderly start ∧ (t.next σ id i).host.Termed
      ∧ (t.next σ id i).host.Separate async := by
  have steady : ∀ e, i = .event e → e.steady = true := by
    rintro e rfl
    exact sliced
  refine ⟨?_, termed.goes (fun m arrived => ?_) (Host.goes steady),
    separate.goes (Host.goes steady)⟩
  · cases i with
    | receive m =>
        have once : Host.Once σ id 0 (fun m' => m' = m) t.host _ _ :=
          Host.once_receive rfl
        have kept :=
          (@Host.queues_input _ σ id t.host _ steady).imp_right fun q => q.appended nofun
        refine Delivered.once ok termed separate ?_ kept (fun down => ?_) once
        · rintro _ rfl
          exact sliced
        · show (t.host.receive 0 m).1.node = none
          unfold Host.receive Host.stepMessage Host.call
          rw [down]
          exact down
    | event e =>
        by_cases answer : e = .appendResp
        · rw [answer]
          exact ok.appendResp termed
        · have once : Host.Once σ id 0 (fun _ => False) t.host _ _ := Host.once (e := e) <| by
            rintro rfl
            cases sliced
          have acked : t.host.acknowledged (.event e) = none := by
            cases e <;> first | rfl | exact absurd rfl answer
          unfold Trace.next
          rw [acked]
          have kept := (@Host.queues_input _ σ id t.host _ steady).imp_right fun q =>
            q.appended fun same => answer (Input.event.inj same)
          exact Delivered.once ok termed separate (fun _ => False.elim) kept (Host.step_down sliced)
            once
    | release => exact ok.release
    | own => exact ok.own termed separate
  · rw [arrived] at sliced
    exact sliced.1

end Trace

namespace Launch

variable {x : Launch} {inputs : List Input}

theorem trace_host : (x.trace inputs).host = x.run inputs := by
  unfold trace run
  have follows : ∀ t : Trace, (inputs.foldl (Trace.next x.setup x.id) t).host
      = inputs.foldl (fun h i => (h.input x.setup x.id i).1) t.host := by
    induction inputs with
    | nil => exact fun _ => rfl
    | cons i rest ih => exact fun t => ih (t.next x.setup x.id i)
  exact follows _

omit [Codec] in
theorem Up.delivered {rn : RawNode} {h : Host} (up : x.Up rn h)
    (contiguous : x.disk.Contiguous)
    : Delivered x.initialApplied { host := h } rn := by
  have log := up.started.log
  have resps : h.appendResps rn = [] := by
    unfold Host.appendResps
    rw [up.appended, up.writes, up.steps]
    rfl
  have resps' : h.applyResps rn = [] := by
    unfold Host.applyResps
    rw [up.applied, up.batches, up.steps]
    rfl
  exact {
    contiguous := by
      refine ⟨?_, ?_⟩
      · rw [log.storage]
        exact contiguous
      · rw [log.unstable]
        exact .nil
    writes := by simp [up.writes]
    applying := by
      rw [log.applying, log.applied]
      show x.initialApplied = max (max 0 x.initialApplied) 0
      omega
    applied := log.applying.ge
    applyResps := by simp [resps']
    increasing := .nil
    below := List.forall_mem_nil _
    terms := by simp [resps]
    snapshots := by
      rw [resps]
      exact List.pairwise_singleton _ _
    committed := by
      rw [resps]
      exact List.forall_mem_singleton.mpr (Nat.zero_le _)
    pending := by
      rw [log.unstable]
      nofun
    fresh := by
      rw [log.unstable]
      nofun }

/-- Everything was handed out in order at every point of a lifetime. -/
theorem orderly_trace (contiguous : x.disk.Contiguous) (sliced : ∀ i ∈ inputs, i.Sliced)
    : (x.trace inputs).Orderly x.initialApplied := by
  have starts : ({ host := x.host } : Trace).Orderly x.initialApplied := by
    rcases x.host_cases with ⟨down, _⟩ | ⟨rn, up⟩
    · exact .of_down down
    · intro rn' node
      cases up.node.symm.trans node
      exact up.delivered contiguous
  have keeps : ∀ t : Trace, t.Orderly x.initialApplied ∧ t.host.Termed
      ∧ t.host.Separate x.setup.asyncStorageWrites
      → (inputs.foldl (Trace.next x.setup x.id) t).Orderly x.initialApplied := by
    induction inputs with
    | nil => exact fun t ok => ok.1
    | cons i rest ih =>
        rintro t ⟨ok, termed, separate⟩
        have here := sliced i List.mem_cons_self
        exact ih (fun j member => sliced j (List.mem_cons_of_mem _ member)) _
          (ok.next termed separate here)
  exact keeps _ ⟨starts, x.host_ok⟩

/-- Committed entries are handed out exactly once and in order: the entries of a `Ready`
follow what has been handed out, applied at the start or acknowledged as part of a
snapshot, without a gap. They are the entries of the log at their indexes, are committed,
and stable if writes are asynchronous; and none comes together with a snapshot.
-/
theorem committedEntries_in_order {rn rn' : RawNode} {rd : Ready}
    (contiguous : x.disk.Contiguous)
    (sliced : ∀ i ∈ inputs, i.Sliced) (node : (x.run inputs).node = some rn)
    (taken : rn.ready = .ok (rn', rd))
    : (∀ k e, rd.committedEntries[k]? = some e
        → e.index = 1 + max (max (x.trace inputs).lastHandedOut x.initialApplied)
            (x.trace inputs).acked + k
          ∧ rn.raft.raftLog.entryAt e.index = some e ∧ e.index ≤ rn.raft.raftLog.committed
          ∧ (rn.asyncStorageWrites = true → e.index < rn.raft.raftLog.unstable.offset))
      ∧ ((x.trace inputs).handedOut ++ rd.committedEntries).Pairwise
        (fun e e' => e.index < e'.index)
      ∧ (rd.snapshot ≠ none → rd.committedEntries = []) := by
  have ok : Delivered x.initialApplied (x.trace inputs) rn :=
    orderly_trace contiguous sliced rn (trace_host ▸ node)
  obtain ⟨committed, appliable, entries, snapshot⟩ : ∃ committed,
      rn.raft.raftLog.nextCommittedEnts rn.applyUnstableEntries = .ok committed
      ∧ rd.committedEntries = committed ∧ rd.snapshot = rn.raft.raftLog.unstable.nextSnapshot := by
    cases rn.ends_ready.result taken with
    | sync _ _ appliable => exact ⟨_, appliable, rfl, rfl⟩
    | async _ appliable => exact ⟨_, appliable, rfl, rfl⟩
  obtain ⟨reads, within, stable, alone⟩ := RaftLog.reads_nextCommittedEnts appliable
  have consecutive := ok.consecutive appliable
  rw [entries, snapshot]
  refine ⟨fun k e found => ?_, ?_, fun some => alone fun none => some ?_⟩
  · have index := consecutive k e found
    have inside := (List.getElem?_eq_some_iff.mp found).1
    refine ⟨?_, ?_, by omega, fun async => ?_⟩
    · rw [index, ok.applying]
      omega
    · rw [index]
      exact reads k e found
    · have below := stable (by simp [RawNode.applyUnstableEntries, async])
        (List.ne_nil_of_length_pos (by omega))
      omega
  · refine List.pairwise_append.mpr ⟨ok.increasing, consecutive.increasing, fun e old e' new => ?_⟩
    have before := ok.below e old
    have after := consecutive.ge e' new
    omega
  · unfold Unstable.nextSnapshot
    rw [none]
    split <;> rfl

end Launch

end

attribute [local instance] Codec.wire

def loneVoter : Launch where
  setup := { boot := { confState := { voters := [1] } } }
  id := 1
  config := {
    id := 1
    electionTick := 10
    heartbeatTick := 1
    storage := {}
    maxSizePerMsg := 1000
    maxInflightMsgs := 256 }
  disk := { snapshot := { metadata := { confState := { voters := [1] } } } }
  confs := [(0, { voters := [1] })]

/-- The application handles a `Ready` with `entries` committed entries and `steps`
messages for the node itself.
-/
def handleReady (entries steps : Nat) : List Input :=
  [.event .ready, .event .persist] ++ List.replicate (entries + 1) (.event .apply) ++ [.release]
    ++ List.replicate steps .own

/-- The node is elected, commits the entry of its term and then a proposal. -/
def twoCommits : List Input :=
  [.event .campaign] ++ handleReady 0 1 ++ handleReady 0 2 ++ [.event (.propose [7])]
    ++ handleReady 1 3

/-- The proposal is handed out next, right after the entry of the term. -/
theorem committedEntries_in_order_proposal
    : ∃ rn rn' rd, (loneVoter.run twoCommits).node = some rn ∧ rn.ready = .ok (rn', rd)
      ∧ ∃ e, rd.committedEntries[0]? = some e ∧ e.index = 2
        ∧ rn.raft.raftLog.entryAt 2 = some e := by
  have next : (loneVoter.run twoCommits).node.map
      (fun rn => rn.ready.toOption.map fun res => res.2.committedEntries.length)
      = some (some 1) := by
    decide +kernel
  have before : max (max (loneVoter.trace twoCommits).lastHandedOut loneVoter.initialApplied)
      (loneVoter.trace twoCommits).acked = 1 := by
    decide +kernel
  have sliced : ∀ i ∈ twoCommits, i.Sliced := by
    simp [twoCommits, handleReady, Input.Sliced, HostEvent.steady]
  obtain ⟨rn, node, taken⟩ := Option.map_eq_some_iff.mp next
  obtain ⟨⟨rn', rd⟩, taken, length⟩ := Option.map_eq_some_iff.mp taken
  have taken := except_toOption_eq_some.mp taken
  obtain ⟨e, one⟩ := List.length_eq_one_iff.mp length
  have found : rd.committedEntries[0]? = some e := by rw [one]; rfl
  have contiguous : loneVoter.disk.Contiguous := Consecutive.nil
  obtain ⟨index, read, _⟩ :=
    (Launch.committedEntries_in_order contiguous sliced node taken).1 0 e found
  rw [before] at index
  rw [index] at read
  exact ⟨rn, rn', rd, node, taken, e, found, index, read⟩

end EtcdRaft
