import EtcdRaft.Refinement.Core

/-! What `Ready` returns and how it leaves the node. -/

namespace EtcdRaft

namespace RawNode

variable [Codec]

/-- The `Ready` that goes with the committed entries and the request of the append thread.
-/
def readyOf (rn : RawNode) (committed : List Entry) (append : Option StorageMessage) : Ready where
  softState := if rn.raft.softState = rn.prevSoftSt then none else some rn.raft.softState
  hardState := if rn.raft.hardState = rn.prevHardSt then {} else rn.raft.hardState
  readStates := rn.raft.readStates
  entries := rn.raft.raftLog.unstable.nextEntries
  snapshot := rn.raft.raftLog.unstable.nextSnapshot
  committedEntries := committed
  messages := if rn.asyncStorageWrites then
      rn.raft.msgs
    else
      rn.raft.msgs ++ rn.raft.msgsAfterAppend.filter fun m => m.toId != rn.raft.id
  storageAppend := append
  storageApply := if rn.asyncStorageWrites ∧ committed.length > 0 then
      some (newStorageApplyMsg rn.raft committed)
    else
      none
  mustSync := mustSync rn.raft.hardState rn.prevHardSt rn.raft.raftLog.unstable.nextEntries.length

/-- The log once the committed entries are handed out. -/
def handedOutLog (rn : RawNode) (committed : List Entry) : Result RaftLog :=
  match committed.getLast? with
  | some e =>
      rn.raft.raftLog.acceptUnstable.acceptApplying e.index (entsSize committed)
        rn.applyUnstableEntries
  | none => pure rn.raft.raftLog.acceptUnstable

/-- The node after `acceptReady`. -/
def accepted (rn : RawNode) (rd : Ready) (steps : List Message) (raftLog : RaftLog) : RawNode :=
  { rn with
    prevSoftSt := rd.softState.getD rn.prevSoftSt
    prevHardSt := if isEmptyHardState rd.hardState then rn.prevHardSt else rd.hardState
    stepsOnAdvance := steps
    raft := { rn.raft with
      readStates := []
      msgs := []
      msgsAfterAppend := []
      raftLog := raftLog } }

/-- The answer of the apply thread, if there is something to apply. -/
def applyAnswers (rn : RawNode) (committed : List Entry) : List Message :=
  if committed.length > 0 then [newStorageApplyRespMsg rn.raft committed] else []

omit [Codec] in
theorem mem_applyAnswers {rn : RawNode} {committed : List Entry} {m : Message}
    (member : m ∈ rn.applyAnswers committed)
    : m.entries = committed := by
  unfold applyAnswers at member
  split at member
  · rw [List.mem_singleton.mp member]
    rfl
  · cases member

/-- The messages that a node is to step itself on `Advance`. -/
def ownSteps (rn : RawNode) (committed : List Entry) (resps : List Message) : List Message :=
  (rn.raft.msgsAfterAppend.filter fun m => m.toId == rn.raft.id) ++ resps
    ++ rn.applyAnswers committed

/-- What the append thread is asked to do: to answer with `resps` after the messages that
wait for the write.
-/
inductive AppendRequest (rn : RawNode) : List Message → Option StorageMessage → Prop where
  | none (needless : needStorageAppendMsg rn.raft (rn.readyOf [] none) = false)
    : AppendRequest rn [] none
  | some {resps : List Message} {message : Message}
      (answers : storageAppendResp rn.raft rn.raft.raftLog.unstable.nextSnapshot = .ok resps)
    : AppendRequest rn resps
        (some { message := message, responses := rn.raft.msgsAfterAppend ++ resps })

/-- The node `rn` hands out a `Ready`. -/
inductive Taken (rn : RawNode) : RawNode → Ready → Prop where
  | sync {committed : List Entry} {resps : List Message} {raftLog : RaftLog}
      (mode : rn.asyncStorageWrites = false) (fresh : rn.stepsOnAdvance = [])
      (appliable : rn.raft.raftLog.nextCommittedEnts rn.applyUnstableEntries = .ok committed)
      (answers : storageAppendResp rn.raft rn.raft.raftLog.unstable.nextSnapshot = .ok resps)
      (accepts : rn.handedOutLog committed = .ok raftLog)
    : Taken rn (rn.accepted (rn.readyOf committed none) (rn.ownSteps committed resps) raftLog)
        (rn.readyOf committed none)
  | async {committed : List Entry} {resps : List Message} {append : Option StorageMessage}
      {raftLog : RaftLog} (mode : rn.asyncStorageWrites = true)
      (appliable : rn.raft.raftLog.nextCommittedEnts rn.applyUnstableEntries = .ok committed)
      (request : AppendRequest rn resps append)
      (accepts : rn.handedOutLog committed = .ok raftLog)
    : Taken rn (rn.accepted (rn.readyOf committed append) rn.stepsOnAdvance raftLog)
        (rn.readyOf committed append)

/-- The mode does not change. -/
theorem Taken.mode {rn rn' : RawNode} {rd : Ready} (taken : rn.Taken rn' rd)
    : rn'.asyncStorageWrites = rn.asyncStorageWrites := by
  cases taken <;> rfl

theorem Taken.appliable {rn rn' : RawNode} {rd : Ready} (taken : rn.Taken rn' rd)
    : rn.raft.raftLog.nextCommittedEnts rn.applyUnstableEntries
      = .ok rd.committedEntries := by
  cases taken with
  | sync _ _ appliable _ _ => exact appliable
  | async _ appliable _ _ => exact appliable

-----------------------------------------------------------------------------------------
-- Ready
-----------------------------------------------------------------------------------------

omit [Codec] in
theorem ends_storageAppendResp (r : Raft) (snapshot : Option Snapshot)
    : Ends (storageAppendResp r snapshot) (fun resps => storageAppendResp r snapshot = .ok resps)
        Sane := by
  refine Ends.of_eq (fun _ eq => eq) fun p fails => ?_
  have sane : Ends (storageAppendResp r snapshot) (fun _ => True) Sane := by
    unfold storageAppendResp
    refine Ends.ite (fun _ => ?_) fun _ => trivial
    refine Ends.bind (q := fun _ => True) ?_ fun _ _ => trivial
    unfold newStorageAppendRespMsg
    refine Ends.ite (fun _ => ?_) fun _ => trivial
    exact Ends.bind r.raftLog.sane_lastEntryID fun _ _ => Ends.pure trivial
  exact sane.failure fails

/-- The answer that the append thread is to give to the node `r` with the log as it is
now.
-/
structure AppendAnswer (r : Raft) (snapshot : Option Snapshot) (m : Message) : Prop where
  type : m.type = .msgStorageAppendResp
  toId : m.toId = r.id
  fromId : m.fromId = localAppendThread
  term : m.term = r.term
  needed : r.raftLog.unstable.entries ≠ [] ∨ isEmptySnap snapshot = false
  nothing : r.raftLog.unstable.entries = [] → m.index = 0 ∧ m.logTerm = 0
  last : r.raftLog.unstable.entries ≠ []
    → r.raftLog.lastEntryID = .ok { term := m.logTerm, index := m.index }
  snapshot : m.snapshot = if isEmptySnap snapshot then none else snapshot

omit [Codec] in
theorem storageAppendResp_ok {r : Raft} {snapshot : Option Snapshot}
    {resps : List Message} (answers : storageAppendResp r snapshot = .ok resps)
    : (resps = [] ∧ r.raftLog.unstable.entries = [] ∧ isEmptySnap snapshot = true)
      ∨ ∃ m, resps = [m] ∧ AppendAnswer r snapshot m := by
  unfold storageAppendResp at answers
  split at answers
  · rename_i needed
    have needed : r.raftLog.unstable.entries ≠ [] ∨ isEmptySnap snapshot = false := by
      simpa [needStorageAppendRespMsg, List.length_pos_iff] using needed
    obtain ⟨m, made, eq⟩ := except_bind_eq_ok.mp answers
    cases eq
    refine .inr ⟨m, rfl, ?_⟩
    unfold newStorageAppendRespMsg at made
    dsimp only at made
    split at made
    · rename_i some
      obtain ⟨last, read, made⟩ := except_bind_eq_ok.mp made
      have some : r.raftLog.unstable.entries ≠ [] := List.length_pos_iff.mp some
      simp only [except_pure, except_ok_bind, Except.ok.injEq] at made
      subst made
      split
      · rename_i empty
        exact ⟨rfl, rfl, rfl, rfl, needed, fun none => absurd none some, fun _ => read,
          (if_pos empty).symm⟩
      · rename_i nonempty
        exact ⟨rfl, rfl, rfl, rfl, needed, fun none => absurd none some, fun _ => read,
          (if_neg nonempty).symm⟩
    · rename_i none
      have none : r.raftLog.unstable.entries = [] := by
        simpa [List.length_pos_iff] using none
      simp only [except_pure, except_ok_bind, Except.ok.injEq] at made
      subst made
      split
      · rename_i empty
        exact ⟨rfl, rfl, rfl, rfl, needed, fun _ => ⟨rfl, rfl⟩, fun some => absurd none some,
          (if_pos empty).symm⟩
      · rename_i nonempty
        exact ⟨rfl, rfl, rfl, rfl, needed, fun _ => ⟨rfl, rfl⟩, fun some => absurd none some,
          (if_neg nonempty).symm⟩
  · rename_i needless
    cases answers
    refine .inl ⟨rfl, ?_⟩
    simpa [needStorageAppendRespMsg, List.length_pos_iff] using needless

omit [Codec] in
theorem storageAppendResp_of_last {r : Raft} {id : EntryID}
    (last : r.raftLog.lastEntryID = .ok id) (snapshot : Option Snapshot)
    : ∃ resps, storageAppendResp r snapshot = .ok resps := by
  unfold storageAppendResp
  by_cases needed : needStorageAppendRespMsg r snapshot = true
  · unfold newStorageAppendRespMsg
    rw [if_pos needed, last]
    by_cases some : r.raftLog.unstable.entries.length > 0
    · simp only [some, ↓reduceIte]
      exact ⟨_, rfl⟩
    · simp only [some, ↓reduceIte]
      exact ⟨_, rfl⟩
  · rw [if_neg needed]
    exact ⟨_, rfl⟩

theorem ends_nextCommittedEnts (l : RaftLog) (allowUnstable : Bool)
    : Ends (l.nextCommittedEnts allowUnstable)
        (fun ents => l.nextCommittedEnts allowUnstable = .ok ents) Sane := by
  refine Ends.of_eq (fun _ eq => eq) fun p fails => ?_
  have sane : Ends (l.nextCommittedEnts allowUnstable) (fun _ => True) Sane := by
    unfold RaftLog.nextCommittedEnts
    refine Ends.ite (fun _ => trivial) fun _ => ?_
    refine Ends.ite (fun _ => trivial) fun _ => ?_
    refine Ends.ite (fun _ => trivial) fun _ => ?_
    refine Ends.ite (fun _ => rfl) fun _ => ?_
    refine Ends.bind (l.sane_slice _ _ _) fun read _ => ?_
    cases read with
    | ok ents => exact trivial
    | error err => exact rfl
  exact sane.failure fails

theorem ends_readyWithoutAccept (rn : RawNode)
    : Ends rn.readyWithoutAccept
        (fun rd => ∃ committed append,
          rn.raft.raftLog.nextCommittedEnts rn.applyUnstableEntries = .ok committed
          ∧ rd = rn.readyOf committed append
          ∧ if rn.asyncStorageWrites then ∃ resps, AppendRequest rn resps append else append = none)
        Sane := by
  unfold readyWithoutAccept collect
  cases mode : rn.asyncStorageWrites with
  | false =>
      refine Ends.bind (q := fun rd => ∃ committed,
        rn.raft.raftLog.nextCommittedEnts rn.applyUnstableEntries = .ok committed
        ∧ rd = { rn.readyOf committed none with messages := rn.raft.msgs }) ?_ ?_
      · refine Ends.bind (ends_nextCommittedEnts _ _) fun committed appliable => ?_
        refine Ends.pure ⟨committed, appliable, ?_⟩
        simp [readyOf, mode]
      · rintro _ ⟨committed, appliable, rfl⟩
        refine ⟨committed, none, appliable, ?_, rfl⟩
        simp [readyOf, mode]
  | true =>
      refine Ends.bind (q := fun rd => ∃ committed,
        rn.raft.raftLog.nextCommittedEnts rn.applyUnstableEntries = .ok committed
        ∧ rd = { rn.readyOf committed none with storageApply := none }) ?_ ?_
      · refine Ends.bind (ends_nextCommittedEnts _ _) fun committed appliable => ?_
        refine Ends.pure ⟨committed, appliable, ?_⟩
        simp [readyOf, mode]
      · rintro _ ⟨committed, appliable, rfl⟩
        rw [if_pos rfl]
        refine Ends.ite (fun _ => ?_) fun needless => ?_
        · refine Ends.bind (q := fun m => ∃ resps message,
            storageAppendResp rn.raft rn.raft.raftLog.unstable.nextSnapshot = .ok resps
            ∧ m = { message := message, responses := rn.raft.msgsAfterAppend ++ resps }) ?_ ?_
          · unfold newStorageAppendMsg
            exact Ends.bind (ends_storageAppendResp _ _) fun resps answers =>
              Ends.pure ⟨resps, _, answers, rfl⟩
          · rintro _ ⟨resps, message, answers, rfl⟩
            have request : AppendRequest rn resps
                (some { message := message, responses := rn.raft.msgsAfterAppend ++ resps }) :=
              .some answers
            refine Ends.pure ⟨committed, _, appliable, ?_, resps, request⟩
            by_cases some : committed.length > 0 <;> simp [readyOf, mode, some]
        · refine Ends.pure ⟨committed, none, appliable, ?_, [], .none ?_⟩
          · by_cases some : committed.length > 0 <;> simp [readyOf, mode, some]
          · exact Bool.eq_false_iff.mpr needless

theorem ends_handedOutLog (rn : RawNode) (committed : List Entry)
    : Ends (rn.handedOutLog committed) (fun raftLog => rn.handedOutLog committed = .ok raftLog)
        Sane := by
  refine Ends.of_eq (fun _ eq => eq) fun p fails => ?_
  unfold handedOutLog at fails
  split at fails
  · unfold RaftLog.acceptApplying at fails
    split at fails
    · cases fails
      rfl
    · cases fails
  · cases fails

/-- Handing out entries moves only the indexes that track it. -/
theorem handedOutLog_ok {rn : RawNode} {committed : List Entry} {l : RaftLog}
    (accepts : rn.handedOutLog committed = .ok l)
    : l.unstable = rn.raft.raftLog.unstable.acceptInProgress
      ∧ l.storage = rn.raft.raftLog.storage ∧ l.committed = rn.raft.raftLog.committed
      ∧ l.applied = rn.raft.raftLog.applied ∧ l.logical = rn.raft.raftLog.logical
      ∧ l.applying = (committed.getLast?.map Entry.index).getD rn.raft.raftLog.applying := by
  unfold handedOutLog at accepts
  split at accepts
  · rename_i e last
    unfold RaftLog.acceptApplying at accepts
    split at accepts
    · cases accepts
    · cases accepts
      rw [last]
      exact ⟨rfl, rfl, rfl, rfl, rfl, rfl⟩
  · rename_i none
    cases accepts
    rw [none]
    exact ⟨rfl, rfl, rfl, rfl, rfl, rfl⟩

theorem acceptReady_eq (rn : RawNode) (rd : Ready)
    : rn.acceptReady rd = ((if rn.asyncStorageWrites then pure rn.stepsOnAdvance
        else rn.advanceSteps rd) >>= fun steps =>
          rn.handedOutLog rd.committedEntries >>= fun raftLog =>
          pure (rn.accepted rd steps raftLog)) := by
  unfold acceptReady handedOutLog
  dsimp only
  cases rd.committedEntries.getLast? <;> split <;> rfl

/-- `Ready` hands out what `Taken` says, or fails without finding a corrupt log. -/
theorem ends_ready (rn : RawNode)
    : Ends rn.ready (fun res => rn.Taken res.1 res.2) Sane := by
  unfold ready
  refine Ends.bind (ends_readyWithoutAccept rn) ?_
  rintro _ ⟨committed, append, appliable, rfl, mode⟩
  refine Ends.bind (q := fun rn' => rn.Taken rn' (rn.readyOf committed append)) ?_
    fun _ taken => taken
  rw [acceptReady_eq]
  cases async : rn.asyncStorageWrites with
  | true =>
      rw [if_pos async] at mode
      obtain ⟨resps, request⟩ := mode
      rw [if_pos rfl, except_pure, except_ok_bind]
      exact Ends.bind (ends_handedOutLog _ _) fun raftLog accepts =>
        Ends.pure (.async async appliable request accepts)
  | false =>
      rw [if_neg (by simp [async])] at mode
      subst mode
      rw [if_neg Bool.false_ne_true]
      refine Ends.bind (q := fun steps => rn.stepsOnAdvance = [] ∧ ∃ resps,
        storageAppendResp rn.raft rn.raft.raftLog.unstable.nextSnapshot = .ok resps
        ∧ steps = rn.ownSteps committed resps) ?_ ?_
      · unfold advanceSteps
        refine Ends.ite (fun _ => rfl) fun fresh => ?_
        refine Ends.bind (ends_storageAppendResp _ _) fun resps answers => ?_
        exact Ends.pure ⟨by simpa using fresh, resps, answers, rfl⟩
      · rintro _ ⟨fresh, resps, answers, rfl⟩
        exact Ends.bind (ends_handedOutLog _ _) fun raftLog accepts =>
          Ends.pure (.sync async fresh appliable answers accepts)

/-- When its parts do not fail, `Ready` fails only if the entries cannot be read, or if
the last `Ready` has not been advanced.
-/
theorem ends_ready_parts {rn : RawNode} {resps : List Message}
    (answers : storageAppendResp rn.raft rn.raft.raftLog.unstable.nextSnapshot = .ok resps)
    (accepts : ∀ committed, rn.raft.raftLog.nextCommittedEnts rn.applyUnstableEntries
      = .ok committed
      → ∃ raftLog, rn.handedOutLog committed = .ok raftLog)
    : Ends rn.ready
        (fun res => rn.raft.raftLog.nextCommittedEnts rn.applyUnstableEntries
          = .ok res.2.committedEntries)
        (fun p => rn.raft.raftLog.nextCommittedEnts rn.applyUnstableEntries = .error p
          ∨ (p = .twoReadys ∧ rn.asyncStorageWrites = false ∧ rn.stepsOnAdvance ≠ [])) := by
  unfold ready
  refine Ends.bind (q := fun rd =>
    rn.raft.raftLog.nextCommittedEnts rn.applyUnstableEntries = .ok rd.committedEntries
      ∧ rd.snapshot = rn.raft.raftLog.unstable.nextSnapshot) ?_ ?_
  · unfold readyWithoutAccept
    refine Ends.bind (q := fun rd =>
      rn.raft.raftLog.nextCommittedEnts rn.applyUnstableEntries = .ok rd.committedEntries
        ∧ rd.snapshot = rn.raft.raftLog.unstable.nextSnapshot) ?_ fun rd collected => ?_
    · exact Ends.bind (Ends.of_eq (fun _ eq => eq) fun p fails => .inl fails)
        fun _ appliable => Ends.pure ⟨appliable, rfl⟩
    · refine Ends.ite (fun _ => ?_) fun _ => collected
      obtain ⟨m, request⟩ : ∃ m, newStorageAppendMsg rn.raft rd = .ok m := by
        unfold newStorageAppendMsg
        rw [collected.2, answers]
        exact ⟨_, rfl⟩
      rw [request]
      refine Ends.ite (fun _ => ?_) fun _ => ?_
      · by_cases some : rd.committedEntries.length > 0 <;> simpa [Ends, some] using collected
      · by_cases some : rd.committedEntries.length > 0 <;> simpa [Ends, some] using collected
  · rintro rd ⟨appliable, snapshot⟩
    obtain ⟨raftLog, handedOut⟩ := accepts _ appliable
    refine Ends.bind (q := fun _ => True) ?_ fun _ _ => Ends.pure appliable
    rw [acceptReady_eq, handedOut]
    cases mode : rn.asyncStorageWrites with
    | true => exact trivial
    | false =>
        unfold advanceSteps
        dsimp only
        rw [snapshot, answers]
        by_cases fresh : rn.stepsOnAdvance = []
        · rw [fresh]
          exact trivial
        · have length : rn.stepsOnAdvance.length ≠ 0 := by simpa using fresh
          rw [if_neg Bool.false_ne_true, if_pos length]
          exact .inr ⟨rfl, rfl, fresh⟩

end RawNode

end EtcdRaft
