import EtcdRaft.Foundation.Outcome
import EtcdRaft.Model.RawNode

/-! The part of a node's state that matters for safety, and the messages it may send.
Timers, flow control and the like are left out: no property of logs and elections depends
on them.
-/

namespace EtcdRaft

/-- The state of a node without timers and flow control. Of the progress of a peer the
match index and the learner flag are kept.
-/
structure Core where
  id : Nat
  term : Nat
  vote : Nat
  state : StateType
  raftLog : RaftLog
  msgs : List Message
  msgsAfterAppend : List Message
  config : TrackerConfig
  progress : Nat → Option (Nat × Bool)
  votes : IdMap Bool
  pendingConfIndex : Nat
  validation : Bool
  preVote : Bool
  readOnly : ReadOnly
  readStates : List ReadState
  pendingReads : List Message

/-- The match index and the learner flag of each tracked peer. -/
def progressOf (progress : ProgressMap) (id : Nat) : Option (Nat × Bool) :=
  (progress.get? id).map fun pr => (pr.match, pr.isLearner)

def Raft.core (r : Raft) : Core where
  id := r.id
  term := r.term
  vote := r.vote
  state := r.state
  raftLog := r.raftLog
  msgs := r.msgs
  msgsAfterAppend := r.msgsAfterAppend
  config := r.trk.config
  progress := progressOf r.trk.progress
  votes := r.trk.votes
  pendingConfIndex := r.pendingConfIndex
  validation := !r.disableConfChangeValidation
  preVote := r.preVote
  readOnly := r.readOnly
  readStates := r.readStates
  pendingReads := r.pendingReadIndexMessages

namespace Core

/-- `reset`. -/
def reset (c : Core) (term : Nat) : Core :=
  { c with
    term := term
    vote := if c.term = term then c.vote else none64
    votes := .empty
    progress := fun id => (c.progress id).map fun pr =>
      (if id = c.id then c.raftLog.lastIndex else 0, pr.2)
    pendingConfIndex := 0
    readOnly := newReadOnly c.readOnly.option }

def answer (c : Core) (m : Message) : Core :=
  { c with msgsAfterAppend := c.msgsAfterAppend ++ [m] }

/-- The acknowledgement of the log up to an index. -/
def ack (c : Core) (toId index : Nat) : Message where
  type := .msgAppResp
  toId := toId
  fromId := c.id
  term := c.term
  index := index
  origin := c.raftLog.logical

/-- The vote for a candidate. -/
def grant (c : Core) (toId : Nat) : Message where
  type := .msgVoteResp
  toId := toId
  fromId := c.id
  term := c.term
  origin := c.raftLog.logical

def heartbeatResp (c : Core) (m : Message) : Message where
  type := .msgHeartbeatResp
  toId := m.fromId
  fromId := c.id
  term := c.term
  context := m.context

/-- The index that a quorum has acknowledged. -/
def committedIndex (c : Core) : Nat :=
  c.config.voters.committedIndex fun id => (c.progress id).map Prod.fst

def isSingleton (c : Core) : Bool :=
  c.config.voters.incoming.size == 1 && c.config.voters.outgoingSet.size == 0

/-- The entry at the commit index is one of the leader's own term. -/
def Current (c : Core) : Prop := c.raftLog.zeroTerm c.raftLog.committed = c.term

/-- The node after it has answered read requests. -/
def answered (c : Core) (states : List ReadState) (msgs : List Message) : Core :=
  { c with readStates := c.readStates ++ states, msgs := c.msgs ++ msgs }

end Core

/-- No configuration change is left to apply, as `hasUnappliedConfChanges` finds out. -/
def RaftLog.Settled [Codec] (l : RaftLog) : Prop :=
  l.committed ≤ l.applied
    ∨ l.scan (l.applied + 1) (l.committed + 1) l.maxApplyingEntsSize Raft.findConfChange false
      = .ok (false, none)

/-- What `hup` checks before it campaigns. -/
def Core.MayCampaign [Codec] (c : Core) : Prop :=
  (∃ acked, c.progress c.id = some (acked, false)) ∧ c.raftLog.unstable.snapshot = none
    ∧ c.raftLog.Settled

-----------------------------------------------------------------------------------------
-- Messages
-----------------------------------------------------------------------------------------

/-- The messages that make sense in one term only. -/
def MessageType.termed : MessageType → Bool
  | .msgApp | .msgAppResp | .msgVote | .msgVoteResp | .msgSnap | .msgHeartbeat
  | .msgHeartbeatResp | .msgStorageAppendResp => true
  | _ => false

/-- The messages that a follower forwards to the leader. -/
def MessageType.forwarded : MessageType → Bool
  | .msgProp | .msgTransferLeader | .msgReadIndex => true
  | _ => false

/-- What the node `c` may send at once while it handles `m`. -/
inductive MaySend [Codec] (m : Message) (c : Core) (sent : Message) : Prop where
  | app (type : sent.type = .msgApp) (leads : c.state = .stateLeader)
      (term : sent.term = c.term) (prev : c.raftLog.term sent.index = .ok sent.logTerm)
      (entries : sent.entries = []
        ∨ ∃ maxSize, c.raftLog.entries (sent.index + 1) maxSize = .ok (.ok sent.entries))
      (commit : sent.commit = c.raftLog.committed)
  | snap (type : sent.type = .msgSnap) (leads : c.state = .stateLeader)
      (term : sent.term = c.term) (snapshot : sent.snapshot = some c.raftLog.snapshot)
      (nonempty : isEmptySnap (some c.raftLog.snapshot) = false)
  | heartbeat (type : sent.type = .msgHeartbeat) (leads : c.state = .stateLeader)
      (term : sent.term = c.term) (toId : sent.toId ≠ c.id) (acked : Nat) (learner : Bool)
      (progress : c.progress sent.toId = some (acked, learner))
      (commit : sent.commit = min acked c.raftLog.committed)
      (context : sent.context = c.readOnly.heartbeatCtx)
  | vote (type : sent.type = .msgVote) (candidate : c.state = .stateCandidate)
      (term : sent.term = c.term) (fromId : sent.fromId = c.id)
      (last : c.raftLog.lastEntryID = .ok { term := sent.logTerm, index := sent.index })
  | forward (type : sent.type = m.type) (forwarded : m.type.forwarded = true)
      (entries : sent.entries = m.entries)
  | other (type : sent.type = .msgPreVote ∨ sent.type = .msgTimeoutNow)

/-- The answers that promise nothing, apart from a candidate's vote for itself. -/
inductive MayAnswer (c : Core) (sent : Message) : Prop where
  | reject (type : sent.type = .msgAppResp ∨ sent.type = .msgVoteResp)
      (reject : sent.reject = true) (term : sent.term ≠ 0)
  | preVote (type : sent.type = .msgPreVoteResp) (fromId : sent.fromId = c.id)
      (term : sent.term ≠ 0)
  | empty (type : sent.type = .msgAppResp) (index : sent.index = 0) (term : sent.term ≠ 0)
  | selfVote (candidate : c.state = .stateCandidate) (own : sent = c.grant c.id)

-----------------------------------------------------------------------------------------
-- Panics
-----------------------------------------------------------------------------------------

/-- The panics that mean that a log is corrupt. -/
def Panic.corrupt : Panic → Bool
  | .commitOutOfRange _ _ | .conflictWithCommitted _ _ | .afterOutOfRange _ _ => true
  | _ => false

/-- The panics of an access outside of the log or of what may be applied. -/
def Panic.outOfRange : Panic → Bool
  | .invalidUnstableSlice _ _ | .unstableSliceOutOfBound _ _ _ _ | .appliedOutOfRange _ _ _
  | .applyingOutOfRange _ _ _ | .lastTerm _ _ => true
  | _ => false

/-- The panics of the flow control. -/
def Panic.overrun : Panic → Bool
  | .inflightsFull | .sendingInUnhandledState => true
  | _ => false

abbrev Sane (p : Panic) : Prop := (p.corrupt || p.overrun) = false

abbrev Benign (p : Panic) : Prop := (p.corrupt || p.outOfRange || p.overrun) = false

theorem Benign.inRange {p : Panic} (benign : Benign p) : p.outOfRange = false :=
  (Bool.or_eq_false_iff.mp (Bool.or_eq_false_iff.mp benign).1).2

theorem Benign.sane {p : Panic} (benign : Benign p) : Sane p := by
  obtain ⟨log, flow⟩ := Bool.or_eq_false_iff.mp benign
  exact Bool.or_eq_false_iff.mpr ⟨(Bool.or_eq_false_iff.mp log).1, flow⟩

/-- The panics of a read outside of the log. -/
def Panic.ofRead : Panic → Bool
  | .invalidSlice _ _ | .sliceOutOfBound _ _ _ _ | .invalidUnstableSlice _ _
  | .unstableSliceOutOfBound _ _ _ _ | .entriesHiOutOfBound _ _ | .entriesUnavailable _ _
  | .runtimeError => true
  | _ => false

theorem Panic.sane_of_read {p : Panic} (read : p.ofRead = true) : Sane p := by
  cases p <;> first | rfl | cases read

/-- A read of the log that fails. -/
inductive RaftLog.Misread [Codec] (l : RaftLog) (p : Panic) : Prop where
  | slice (lo hi maxSize : Nat) (fails : l.slice lo hi maxSize = .error p)
  | lastEntryID (fails : l.lastEntryID = .error p)

-----------------------------------------------------------------------------------------
-- Updates that the core does not see
-----------------------------------------------------------------------------------------

theorem progressOf_insert {progress : ProgressMap} {id : Nat} {pr pr' : Progress}
    (found : progress.get? id = some pr) (sameMatch : pr'.match = pr.match)
    (sameLearner : pr'.isLearner = pr.isLearner)
    : progressOf (progress.insert id pr') = progressOf progress := by
  funext peer
  simp only [progressOf, IdMap.get?_insert]
  split
  · rename_i same
    subst same
    simp [found, sameMatch, sameLearner]
  · rfl

theorem Raft.core_setProgress {r : Raft} {id : Nat} {pr p : Progress}
    (found : r.trk.progress.get? id = some pr) (sameMatch : p.match = pr.match)
    (sameLearner : p.isLearner = pr.isLearner)
    : (r.setProgress id p).core = r.core := by
  simp only [Raft.core, Raft.setProgress, progressOf_insert found sameMatch sameLearner]

theorem Unstable.ends_slice (u : Unstable) (lo hi : Nat)
    : Ends (u.slice lo hi) (fun _ => True) fun p => p.ofRead = true := by
  unfold Unstable.slice Unstable.mustCheckOutOfBounds
  refine Ends.bind (q := fun _ => True) ?_ fun _ _ => trivial
  refine Ends.ite (fun _ => rfl) fun _ => ?_
  exact Ends.ite (fun _ => rfl) fun _ => trivial

theorem MemoryStorage.ends_entries [Codec] (ms : MemoryStorage) (lo hi maxSize : Nat)
    : Ends (ms.entries lo hi maxSize) (fun _ => True) fun p => p.ofRead = true := by
  unfold MemoryStorage.entries
  refine Ends.ite (fun _ => trivial) fun _ => ?_
  refine Ends.ite (fun _ => rfl) fun _ => ?_
  refine Ends.ite (fun _ => trivial) fun _ => ?_
  exact Ends.ite (fun _ => rfl) fun _ => trivial

theorem RaftLog.ends_slice [Codec] (l : RaftLog) (lo hi maxSize : Nat)
    : Ends (l.slice lo hi maxSize) (fun _ => True) fun p => p.ofRead = true := by
  unfold RaftLog.slice RaftLog.mustCheckOutOfBounds
  refine Ends.bind (q := fun _ => True) ?_ fun checked _ => ?_
  · refine Ends.ite (fun _ => rfl) fun _ => ?_
    refine Ends.ite (fun _ => trivial) fun _ => ?_
    exact Ends.ite (fun _ => rfl) fun _ => trivial
  cases checked with
  | error err => exact trivial
  | ok _ =>
      refine Ends.ite (fun _ => trivial) fun _ => ?_
      refine Ends.ite (fun _ => Ends.bind (Unstable.ends_slice _ _ _) fun _ _ => trivial)
        fun _ => ?_
      refine Ends.bind (MemoryStorage.ends_entries _ _ _ _) fun read _ => ?_
      match read with
      | .error .errUnavailable => exact rfl
      | .error .errCompacted => exact trivial
      | .error .errSnapOutOfDate => exact trivial
      | .ok ents =>
          refine Ends.ite (fun _ => trivial) fun _ => ?_
          refine Ends.ite (fun _ => trivial) fun _ => ?_
          refine Ends.ite (fun _ => trivial) fun _ => ?_
          refine Ends.bind (Unstable.ends_slice _ _ _) fun rest _ => ?_
          exact Ends.ite (fun _ => trivial) fun _ => trivial

theorem RaftLog.sane_slice [Codec] (l : RaftLog) (lo hi maxSize : Nat)
    : Ends (l.slice lo hi maxSize) (fun _ => True) Sane :=
  (l.ends_slice lo hi maxSize).mono (fun _ _ => trivial) fun _ => Panic.sane_of_read

theorem RaftLog.ends_entries [Codec] (l : RaftLog) (i maxSize : Nat)
    : Ends (l.entries i maxSize) (fun _ => True) l.Misread := by
  unfold RaftLog.entries
  refine Ends.ite (fun _ => trivial) fun _ => ?_
  exact Ends.of_eq (fun _ _ => trivial) fun p fails => .slice _ _ _ fails

theorem RaftLog.ends_lastEntryID [Codec] (l : RaftLog)
    : Ends l.lastEntryID (fun id => l.lastEntryID = .ok id) l.Misread :=
  Ends.of_eq (fun _ eq => eq) fun _ fails => .lastEntryID fails

theorem RaftLog.sane_lastEntryID (l : RaftLog)
    : Ends l.lastEntryID (fun id => l.lastEntryID = .ok id) Sane := by
  refine Ends.of_eq (fun _ eq => eq) ?_
  intro p fails
  unfold RaftLog.lastEntryID at fails
  split at fails
  · cases fails
  · cases fails
    rfl

theorem RaftLog.ends_scanLoop [Codec] {σ ε : Type} (l : RaftLog)
    (hi pageSize fuel lo : Nat) (v : σ → List Entry → σ × Option ε) (s : σ)
    : Ends (l.scanLoop hi pageSize v fuel lo s) (fun _ => True) l.Misread := by
  induction fuel generalizing lo s with
  | zero => exact trivial
  | succ fuel ih =>
      unfold RaftLog.scanLoop
      refine Ends.ite (fun _ => trivial) fun _ => ?_
      refine Ends.bind (q := fun _ => True)
        (Ends.of_eq (fun _ _ => trivial) fun p fails => .slice _ _ _ fails) fun read _ => ?_
      cases read with
      | error err => exact trivial
      | ok ents =>
          refine Ends.ite (fun _ => trivial) fun _ => ?_
          rcases v s ents with ⟨s', _ | err⟩
          · exact ih _ _
          · exact trivial

theorem RaftLog.sane_appliedTo (l : RaftLog) (i size : Nat)
    : Ends (l.appliedTo i size) (fun _ => True) Sane := by
  unfold RaftLog.appliedTo
  exact Ends.ite (fun _ => rfl) fun _ => trivial

theorem appliedTo_ok {l l' : RaftLog} {i size : Nat}
    (applies : l.appliedTo i size = .ok l')
    : i ≤ l.committed ∧ l.applied ≤ i ∧ l'.unstable = l.unstable ∧ l'.storage = l.storage
      ∧ l'.committed = l.committed ∧ l'.applying = max l.applying i ∧ l'.applied = i
      ∧ l'.logical = l.logical := by
  unfold RaftLog.appliedTo at applies
  by_cases outOfRange : l.committed < i ∨ i < l.applied
  · rw [if_pos outOfRange] at applies
    cases applies
  · rw [if_neg outOfRange] at applies
    cases applies
    exact ⟨by omega, by omega, rfl, rfl, rfl, rfl, rfl, rfl⟩

theorem Inflights.ends_add {s : Inflights} (room : s.full = false) (index bytes : Nat)
    : Ends (s.add index bytes) (fun _ => True) Benign := by
  unfold Inflights.add
  dsimp only
  refine Ends.ite (fun full => absurd (room.symm.trans full) nofun) fun _ => ?_
  exact Ends.ite (fun _ => trivial) fun _ => rfl

/-- A message is counted for a peer that is not paused, and one with entries only if there
is room in the window.
-/
theorem Progress.ends_sentEntries {pr : Progress} {n : Nat} (bytes : Nat)
    (awake : pr.isPaused = false)
    (room : n = 0 ∨ pr.state ≠ .stateReplicate ∨ pr.inflights.full = false)
    : Ends (pr.sentEntries n bytes)
        (fun pr' => pr'.match = pr.match ∧ pr'.isLearner = pr.isLearner) Benign := by
  unfold Progress.sentEntries
  split
  · rename_i replicates
    split
    · rename_i some_
      have room := (room.resolve_left (Nat.ne_of_gt some_)).resolve_left
        fun other => other replicates
      exact Ends.bind (Inflights.ends_add room _ _) fun _ _ => ⟨rfl, rfl⟩
    · exact ⟨rfl, rfl⟩
  · apply Ends.pure
    split <;> exact ⟨rfl, rfl⟩
  · rename_i waits
    simp [Progress.isPaused, waits] at awake

namespace Raft

/-- `send` of a message that does not wait and takes the term of its sender. -/
theorem send_termed {r : Raft} {msg : Message} (atOnce : isAfterAppend msg.type = false)
    (notVote : isVoteMsg msg.type = false) (notProp : msg.type ≠ .msgProp)
    (notRead : msg.type ≠ .msgReadIndex) (noSender : msg.fromId = none64)
    : Ends (r.send msg)
        (fun r' => msg.toId ≠ r.id
          ∧ r' = { r with msgs := r.msgs ++ [{ msg with fromId := r.id, term := r.term }] })
        Benign := by
  unfold send stampTerm
  simp only [noSender, ↓reduceIte, notVote, Bool.false_eq_true]
  split
  · exact rfl
  · simp only [notProp, notRead, ne_eq, not_false_eq_true, and_self, ↓reduceIte, pure_bind, atOnce,
      Bool.false_eq_true]
    split
    · exact rfl
    · rename_i other
      exact ⟨other, rfl⟩

theorem stampTerm_keeps (r : Raft) (msg : Message)
    : Ends (r.stampTerm msg)
        (fun sent => sent.type = msg.type ∧ sent.entries = msg.entries ∧ sent.index = msg.index
          ∧ sent.stamp = msg.stamp) Benign := by
  unfold stampTerm
  dsimp only
  refine Ends.ite (fun _ => ?_) fun _ => ?_
  · refine Ends.ite (fun _ => rfl) fun _ => ?_
    refine Ends.pure ?_
    split <;> exact ⟨rfl, rfl, rfl, rfl⟩
  · refine Ends.ite (fun _ => rfl) fun _ => ?_
    refine Ends.pure ?_
    split <;> split <;> exact ⟨rfl, rfl, rfl, rfl⟩

/-- `send` of a message that does not wait. -/
theorem send_atOnce {r : Raft} {msg : Message} (atOnce : isAfterAppend msg.type = false)
    : Ends (r.send msg)
        (fun r' => ∃ sent : Message, sent.type = msg.type ∧ sent.entries = msg.entries
          ∧ sent.index = msg.index ∧ sent.stamp = msg.stamp
          ∧ r' = { r with msgs := r.msgs ++ [sent] }) Benign := by
  unfold send
  refine Ends.bind (r.stampTerm_keeps msg) ?_
  rintro sent ⟨type, entries, index, stamp⟩
  simp only [type, atOnce, Bool.false_eq_true, ↓reduceIte]
  exact Ends.ite (fun _ => rfl) fun _ => ⟨sent, type, entries, index, stamp, rfl⟩

end Raft

end EtcdRaft
