import EtcdRaft.Refinement.Piped

/-! The pipeline of a node when the local threads answer, when it hands out a `Ready` and
when its storage changes.
-/

namespace EtcdRaft

variable {L : Nat → List Entry} {async : Bool} {p : Pipeline} {l l' : RaftLog} [Codec]
  {m : Message}

-----------------------------------------------------------------------------------------
-- Answers of the local threads
-----------------------------------------------------------------------------------------

/-- The node changes its log as `log` says; then, as a leader, it may propose to leave a
joint configuration.
-/
def Raft.Settles {α : Type} (r : Raft) (log : Result RaftLog) (x : Result α) (node : α → Raft)
    : Prop :=
  Ends x
    (fun a => ∃ l, log = .ok l
      ∧ Steps 0 leaveJointMsg { r.core with raftLog := l } (node a).core)
    fun p => log = .error p
      ∨ ∃ l, log = .ok l ∧ Fails 0 leaveJointMsg { r.core with raftLog := l } p

theorem Raft.Settles.map {α β : Type} {r : Raft} {log : Result RaftLog} {x : Result α}
    {node : α → Raft} {node' : β → Raft} {f : α → β} (settles : r.Settles log x node)
    (same : ∀ a, (node' (f a)).core = (node a).core)
    : r.Settles log (x >>= fun a => pure (f a)) node' := by
  refine Ends.bind settles fun a ends => Ends.pure ?_
  rw [same]
  exact ends

theorem Raft.settles_appliedTo (r : Raft) (index size : Nat)
    : r.Settles (r.raftLog.appliedTo (max index r.raftLog.applied) size) (r.appliedTo index size)
        fun r' => r' := by
  unfold appliedTo
  refine Ends.bind (Ends.of_eq (fun _ eq => eq) fun p fails => .inl fails) fun l applies => ?_
  exact (finishes_leaveJoint (r := { r with raftLog := l })).mono
    (fun _ steps => ⟨l, applies, steps⟩) fun _ fails => .inr ⟨l, applies, fails⟩

theorem Raft.settles_appliedSnapOf {r : Raft} {l : RaftLog} {current : Bool}
    (log : l = if current = true ∧ m.index ≠ 0
      then r.raftLog.stableTo { term := m.logTerm, index := m.index } else r.raftLog)
    : r.Settles (r.raftLog.stored current m) ({ r with raftLog := l }.appliedSnapOf m.snapshot)
        fun r' => r' := by
  unfold appliedSnapOf RaftLog.stored
  rw [← log]
  cases m.snapshot with
  | none => exact ⟨l, rfl, .of_acts .refl⟩
  | some s =>
      exact settles_appliedTo
        { r with raftLog := l.stableSnapTo s.metadata.index } s.metadata.index 0

/-- An answer of the append thread that is of the present term, or of none. -/
theorem Raft.settles_stepMessage {r : Raft} (type : m.type = .msgStorageAppendResp)
    : r.Settles (r.raftLog.stored true m) (r.stepMessage m) Prod.fst := by
  have log : (if m.index ≠ 0 then { r with
        raftLog := r.raftLog.stableTo { term := m.logTerm, index := m.index } } else r)
      = { r with raftLog := if true = true ∧ m.index ≠ 0
        then r.raftLog.stableTo { term := m.logTerm, index := m.index } else r.raftLog } := by
    by_cases zero : m.index = 0 <;> simp [zero]
  unfold stepMessage
  simp only [type]
  rw [log]
  exact (settles_appliedSnapOf rfl).map fun _ => rfl

/-- The node handles an answer of the append thread. -/
theorem Raft.settles_stored {r : Raft} (type : m.type = .msgStorageAppendResp)
    (nonzero : m.term ≠ 0) (older : m.term ≤ r.term)
    : ∃ current : Bool, (current = true → m.term = r.term)
      ∧ r.Settles (r.raftLog.stored current m) (r.step m) Prod.fst := by
  unfold step
  rw [if_neg nonzero, if_neg (Nat.not_lt.mpr older)]
  by_cases lower : m.term < r.term
  · rw [if_pos lower]
    have lowerTerm : r.stepLowerTerm m = r.appliedSnapOf m.snapshot := by
      unfold stepLowerTerm
      rw [type, show (MessageType.msgStorageAppendResp == .msgHeartbeat
        || MessageType.msgStorageAppendResp == .msgApp) = false from rfl, Bool.and_false]
      rfl
    rw [lowerTerm]
    exact ⟨false, nofun, (@settles_appliedSnapOf _ m r r.raftLog false (by simp)).map fun _ => rfl⟩
  · rw [if_neg lower]
    exact ⟨true, fun _ => by omega, settles_stepMessage type⟩

/-- The node handles an answer of the apply thread. -/
theorem Raft.settles_applied {r : Raft} {e : Entry} (type : m.type = .msgStorageApplyResp)
    (zero : m.term = 0) (last : m.entries.getLast? = some e)
    : r.Settles (r.raftLog.appliedTo (max e.index r.raftLog.applied) (entsSize m.entries))
        (r.step m) Prod.fst := by
  unfold step
  rw [if_pos zero]
  unfold stepMessage
  simp only [type, last]
  exact (settles_appliedTo r _ _).map fun _ => rfl

theorem Raft.step_applied_nothing {r : Raft} (type : m.type = .msgStorageApplyResp)
    (zero : m.term = 0) (nothing : m.entries = [])
    : r.step m = .ok (r, none) := by
  unfold step
  rw [if_pos zero]
  unfold stepMessage
  simp only [type, nothing]
  rfl

theorem Raft.step_stored {r r' : Raft} {err : Option StepError}
    (type : m.type = .msgStorageAppendResp) (nonzero : m.term ≠ 0)
    (older : m.term ≤ r.term) (steps : r.step m = .ok (r', err))
    : ∃ (current : Bool) (l : RaftLog), (current = true → m.term = r.term)
      ∧ r.raftLog.stored current m = .ok l
      ∧ Steps 0 leaveJointMsg { r.core with raftLog := l } r'.core := by
  obtain ⟨current, now, settles⟩ := @settles_stored _ m r type nonzero older
  obtain ⟨l, stores, rest⟩ := settles.result steps
  exact ⟨current, l, now, stores, rest⟩

theorem Raft.step_applied {r r' : Raft} {err : Option StepError}
    (type : m.type = .msgStorageApplyResp) (zero : m.term = 0)
    (steps : r.step m = .ok (r', err))
    : r'.core = r.core ∧ m.entries = []
      ∨ ∃ e l, m.entries.getLast? = some e
        ∧ r.raftLog.appliedTo (max e.index r.raftLog.applied) (entsSize m.entries) = .ok l
        ∧ Steps 0 leaveJointMsg { r.core with raftLog := l } r'.core := by
  cases last : m.entries.getLast? with
  | none =>
      have nothing := List.getLast?_eq_none_iff.mp last
      rw [step_applied_nothing type zero nothing] at steps
      cases steps
      exact .inl ⟨rfl, nothing⟩
  | some e =>
      obtain ⟨l, applies, rest⟩ := (settles_applied type zero last).result steps
      exact .inr ⟨e, l, rfl, applies, rest⟩

omit [Codec] in
theorem Unstable.stableTo_entries (u : Unstable) (id : EntryID)
    : ∃ n, (u.stableTo id).entries = u.entries.drop n := by
  unfold stableTo
  split
  · exact ⟨0, rfl⟩
  · split
    · exact ⟨0, rfl⟩
    · split
      · exact ⟨0, rfl⟩
      · exact ⟨_, rfl⟩

omit [Codec] in
theorem Unstable.stableSnapTo_cases (u : Unstable) (i : Nat)
    : u.stableSnapTo i = u
      ∨ u.stableSnapTo i = { u with snapshot := none, snapshotInProgress := false }
        ∧ ∃ sn, u.snapshot = some sn ∧ sn.metadata.index = i := by
  unfold stableSnapTo
  cases pending : u.snapshot with
  | none => exact .inl rfl
  | some sn =>
      by_cases same : sn.metadata.index = i
      · dsimp only
        rw [if_pos same]
        exact .inr ⟨rfl, sn, rfl, same⟩
      · dsimp only
        rw [if_neg same]
        exact .inl rfl

/-- What an answer of the append thread leaves as it is. -/
structure Stores (m : Message) (l l' : RaftLog) : Prop where
  storage : l'.storage = l.storage
  committed : l'.committed = l.committed
  logical : l'.logical = l.logical
  applying : l'.applying = match m.snapshot with
    | none => l.applying
    | some s => max l.applying (max s.metadata.index l.applied)
  applied : l'.applied = match m.snapshot with
    | none => l.applied
    | some s => max s.metadata.index l.applied
  snapshot : l'.unstable.snapshot = l.unstable.snapshot
      ∧ l'.unstable.snapshotInProgress = l.unstable.snapshotInProgress
    ∨ l'.unstable.snapshot = none ∧ ∃ s sn, m.snapshot = some s ∧ l.unstable.snapshot = some sn
      ∧ sn.metadata.index = s.metadata.index
  entries : ∃ n, l'.unstable.entries = l.unstable.entries.drop n
  limit : l'.maxApplyingEntsSize = l.maxApplyingEntsSize
  size : l'.applyingEntsSize = l.applyingEntsSize
  paused : l'.applyingEntsPaused = l.applyingEntsPaused
    ∨ l'.applyingEntsPaused = decide (l.maxApplyingEntsSize ≤ l.applyingEntsSize)

omit [Codec] in
theorem RaftLog.stored_ok {current : Bool} (stores : l.stored current m = .ok l')
    : Stores m l l' := by
  obtain ⟨u, log, kept, entries⟩ : ∃ u, (if current = true ∧ m.index ≠ 0
      then l.stableTo { term := m.logTerm, index := m.index } else l) = { l with unstable := u }
      ∧ (u.snapshot = l.unstable.snapshot
        ∧ u.snapshotInProgress = l.unstable.snapshotInProgress)
      ∧ ∃ n, u.entries = l.unstable.entries.drop n := by
    split
    · exact ⟨_, rfl, Unstable.stableTo_snapshot _ _, Unstable.stableTo_entries _ _⟩
    · exact ⟨l.unstable, rfl, ⟨rfl, rfl⟩, 0, rfl⟩
  unfold stored at stores
  rw [log] at stores
  cases carries : m.snapshot with
  | none =>
      rw [carries] at stores
      cases stores
      exact ⟨rfl, rfl, rfl, by rw [carries], by rw [carries], .inl kept, entries, rfl, rfl,
        .inl rfl⟩
  | some s =>
      rw [carries] at stores
      rw [RaftLog.appliedTo_eq stores]
      rcases Unstable.stableSnapTo_cases u s.metadata.index with same | ⟨none, sn, pending, same⟩
      · refine ⟨rfl, rfl, rfl, by rw [carries]; rfl, by rw [carries], .inl ?_, ?_, rfl, rfl,
          .inr rfl⟩
        · rw [RaftLog.stableSnapTo, same]
          exact kept
        · rw [RaftLog.stableSnapTo, same]
          exact entries
      · refine ⟨rfl, rfl, rfl, by rw [carries]; rfl, by rw [carries],
          .inr ⟨?_, s, sn, carries, kept.1 ▸ pending, same⟩, ?_, rfl, rfl, .inr rfl⟩
        · rw [RaftLog.stableSnapTo, none]
        · rw [RaftLog.stableSnapTo, none]
          exact entries

namespace Piped

variable {term : Nat}

omit [Codec] in
/-- The first answer of the append thread is handled. -/
theorem stored {rest : List Message} {current : Bool} (piped : Piped L async p term l)
    (first : p.done = m :: rest) (now : current = true → m.term = term)
    (stores : l.stored current m = .ok l')
    : Piped L async (p.answered rest) term l' := by
  have kept := RaftLog.stored_ok stores
  have done : m ∈ p.done := first ▸ List.mem_cons_self
  exact {
    pipe := piped.pipe.stored first (piped.term ▸ now) stores
    term := piped.term
    floor := kept.committed ▸ piped.floor
    logical := kept.logical ▸ piped.logical
    basePending := by
      intro s some
      rw [kept.logical]
      rcases kept.snapshot with ⟨same, _⟩ | ⟨none, _⟩
      · exact piped.basePending s (same ▸ some)
      · rw [none] at some
        cases some
    baseStored := by
      intro none
      rw [kept.logical, kept.storage]
      rcases kept.snapshot with ⟨same, _⟩ | ⟨_, s, sn, carries, pending, same⟩
      · exact piped.baseStored (same ▸ none)
      · rw [piped.basePending sn pending, same]
        exact piped.doneStored m done s carries
    doneStored := by
      rw [kept.storage]
      exact fun m' member => piped.doneStored m' (first ▸ List.mem_cons_of_mem _ member)
    compacted := by
      have applying := kept.applying
      rw [kept.storage]
      rcases piped.compacted with below | ⟨m', done', s, carries, below⟩
      · left
        split at applying <;> omega
      · rw [first] at done'
        rcases List.mem_cons.mp done' with rfl | later
        · left
          rw [carries] at applying
          dsimp only at applying
          omega
        · exact .inr ⟨m', later, s, carries, below⟩ }

omit [Codec] in
/-- An answer of the apply thread is handled. -/
theorem applied {i size : Nat} (piped : Piped L async p term l)
    (handedOut : i ≤ l.applying)
    (idle : async = false → p.slots = []) (applies : l.appliedTo i size = .ok l')
    : Piped L async { p with floor := if async then p.floor else max p.floor i } term l' := by
  obtain ⟨inside, _, unstable, storage, committed, applying, _, logical⟩ :=
    EtcdRaft.appliedTo_ok applies
  exact {
    pipe := piped.pipe.applied handedOut idle applies
    term := piped.term
    floor := by
      rw [committed]
      show (if async then p.floor else max p.floor i) ≤ _
      split
      · exact piped.floor
      · exact Nat.max_le.mpr ⟨piped.floor, inside⟩
    logical := logical ▸ piped.logical
    basePending := by rw [unstable, logical]; exact piped.basePending
    baseStored := by rw [unstable, logical, storage]; exact piped.baseStored
    doneStored := storage ▸ piped.doneStored
    compacted := by
      rw [storage, applying, Nat.max_eq_left handedOut]
      exact piped.compacted }

-----------------------------------------------------------------------------------------
-- Ready and the storage
-----------------------------------------------------------------------------------------

omit [Codec] in
theorem handOut {resps : List Message} (piped : Piped L async p term l)
    (new : NewResps p l.unstable resps)
    : Piped L async { p with slots := p.slots ++ [p.slot l.unstable resps] } term
        l.acceptUnstable :=
  { piped with pipe := piped.pipe.handOut new }

omit [Codec] in
theorem acceptApplying {i size : Nat} {allowUnstable : Bool}
    (piped : Piped L async p term l)
    (handedOut : Pipe.HandedOut p l) (none : l.unstable.snapshot = none)
    (later : l.applying ≤ i) (reach : async = true → i < l.unstable.offset)
    (accepted : l.acceptApplying i size allowUnstable = .ok l')
    : Piped L async { p with floor := if async then max p.floor i else p.floor } term l' := by
  have pipe := piped.pipe.acceptApplying handedOut none later reach accepted
  unfold RaftLog.acceptApplying at accepted
  by_cases beyond : l.committed < i
  · rw [if_pos beyond] at accepted
    cases accepted
  rw [if_neg beyond] at accepted
  cases accepted
  refine { piped with
    pipe := pipe
    floor := ?_
    compacted := piped.compacted.imp_left fun below => below.trans later }
  show (if async then max p.floor i else p.floor) ≤ l.committed
  split
  · exact Nat.max_le.mpr ⟨piped.floor, Nat.le_of_not_lt beyond⟩
  · exact piped.floor

omit [Codec] in
/-- The oldest write becomes durable. -/
theorem persist {s : Slot} {rest : List Slot} {ms : MemoryStorage}
    (piped : Piped L async p term l) (slots : p.slots = s :: rest)
    (storage : StorageOk ms (s.floorAfter p.floor) s.version.log)
    (dummy : ms.dummy.index = s.floorAfter l.storage.dummy.index)
    : Piped L async (p.persisted s rest) term { l with storage := ms } := by
  have here : s ∈ p.slots := slots ▸ List.mem_cons_self
  have chain := piped.pipe.line.chain
  rw [slots] at chain
  have later : l.storage.dummy.index ≤ ms.dummy.index := by
    rw [dummy, Slot.floorAfter]
    have below := chain.1.le_floorAfter
    rw [Slot.floorAfter] at below
    split
    · exact Nat.le_refl _
    · rename_i sn snapshot
      rw [snapshot] at below
      exact piped.pipe.storage.dummy.trans below
  exact {
    pipe := piped.pipe.persist slots storage
    term := piped.term
    floor := by
      show s.floorAfter p.floor ≤ l.committed
      unfold Slot.floorAfter
      split
      · exact piped.floor
      · rename_i sn snapshot
        exact piped.pipe.index.slots s here sn snapshot
    logical := piped.logical
    basePending := piped.basePending
    baseStored := fun none => (piped.baseStored none).trans later
    doneStored := by
      refine List.forall_mem_append.mpr ⟨fun m old sn carries => ?_, fun m new sn carries => ?_⟩
      · exact (piped.doneStored m old sn carries).trans later
      · have same := piped.pipe.resps.respSnap s here m new sn carries
        show sn.metadata.index ≤ ms.dummy.index
        rw [dummy, Slot.floorAfter, same]
    compacted := by
      show ms.dummy.index ≤ l.applying
        ∨ ∃ m ∈ p.done ++ s.resps, ∃ sn, m.snapshot = some sn ∧ ms.dummy.index ≤ sn.metadata.index
      rw [dummy]
      unfold Slot.floorAfter
      cases snapshot : s.snapshot with
      | none =>
          refine piped.compacted.imp_right ?_
          rintro ⟨m, done, rest⟩
          exact ⟨m, List.mem_append_left _ done, rest⟩
      | some sn =>
          obtain ⟨m, new, carries⟩ := piped.pipe.resps.slotSnap s here sn snapshot
          exact .inr ⟨m, List.mem_append_right _ new, sn, carries, Nat.le_refl _⟩ }

omit [Codec] in
/-- The application changes the storage, and keeps what can be read. -/
theorem withStorage {ms : MemoryStorage} (piped : Piped L async p term l)
    (ok : StorageOk ms p.floor p.durable.log)
    (later : l.storage.dummy.index ≤ ms.dummy.index)
    (below : ms.dummy.index ≤ max l.storage.dummy.index l.applied)
    : Piped L async p term { l with storage := ms } :=
  { piped with
    pipe := piped.pipe.withStorage ok
    baseStored := fun none => (piped.baseStored none).trans later
    doneStored := fun m member s carries => (piped.doneStored m member s carries).trans later
    compacted := by
      have applied := piped.pipe.index.applied
      rcases piped.compacted with settled | ⟨m, done, s, carries, settled⟩
      · left
        show ms.dummy.index ≤ l.applying
        omega
      · by_cases old : ms.dummy.index ≤ l.storage.dummy.index
        · exact .inr ⟨m, done, s, carries, old.trans settled⟩
        · left
          show ms.dummy.index ≤ l.applying
          omega }

end Piped

end EtcdRaft
