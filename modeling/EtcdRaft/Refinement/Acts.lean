import EtcdRaft.Refinement.Core
import Mathlib.Logic.Relation

/-! The small actions that every step of a node consists of. Each one is described by what
the code checks before it and what it changes; `now` is the time and `m` the message that
the node handles.
-/

namespace EtcdRaft

variable [Codec]

/-- The progress map after `id` has acknowledged its log up to `index`. -/
def acknowledge (progress : Nat → Option (Nat × Bool)) (id index : Nat)
    : Nat → Option (Nat × Bool) :=
  fun peer => if peer = id then (progress id).map fun pr => (max pr.1 index, pr.2)
    else progress peer

/-- The answer to a read request has its stamp. -/
def Answers (states : List ReadState) (msgs : List Message) (p : Nat → Nat → Prop) : Prop :=
  (∀ rs ∈ states, p rs.index rs.stamp)
    ∧ ∀ m ∈ msgs, m.type = .msgReadIndexResp ∧ p m.index m.stamp

/-- The log after the answer of the append thread: entries become stable if the term is
still the same, and a stored snapshot is applied.
-/
def RaftLog.stored (l : RaftLog) (current : Bool) (m : Message) : Result RaftLog :=
  let l := if current ∧ m.index ≠ 0 then l.stableTo { term := m.logTerm, index := m.index } else l
  match m.snapshot with
  | none => return l
  | some s => (l.stableSnapTo s.metadata.index).appliedTo (max s.metadata.index l.applied) 0

/-- The snapshot that a `MsgSnap` carries. -/
def Message.snap (m : Message) : Snapshot := m.snapshot.getD {}

def Snapshot.id (s : Snapshot) : EntryID := { term := s.metadata.term, index := s.metadata.index }

/-- The node after it has restored a snapshot, with the configuration `cfg`. -/
def Core.restored (c : Core) (s : Snapshot) (cfg : TrackerConfig) (progress : ProgressMap) : Core :=
  { c with
    raftLog := c.raftLog.restore s
    config := cfg
    progress := progressOf progress
    votes := .empty }

/-- What makes a node a candidate: its own decision, that of the leader, or the outcome of
a poll of the pre-candidate.
-/
def Message.Campaigns (m : Message) (c : Core) : Prop :=
  (c.MayCampaign ∧ (m.type = .msgHup ∧ c.preVote = false
    ∨ m.type = .msgTimeoutNow ∧ c.state = .stateFollower))
  ∨ (c.state = .statePreCandidate ∧ m.type = .msgPreVoteResp
    ∧ c.config.voters.voteResult c.votes = .voteWon)

/-- Where a read request that the leader takes comes from: it is handled now, or had to
wait.
-/
def Message.TakesRead (m : Message) (c : Core) (request : Message) : Prop :=
  (m.type = .msgReadIndex ∧ c.isSingleton = false)
    ∨ (m.type = .msgAppResp ∧ request ∈ c.pendingReads)

inductive Act (now : Nat) (m : Message) (c : Core) : Core → Prop where
  | becomeFollower (term : Nat) (newer : c.term ≤ term)
      (later : m.type = .msgTimeoutNow → c.term < term)
    : Act now m c { c.reset term with state := .stateFollower }
  | becomePreCandidate (type : m.type = .msgHup) (enabled : c.preVote = true)
      (notLeader : c.state ≠ .stateLeader) (may : c.MayCampaign)
    : Act now m c { c with votes := .empty, state := .statePreCandidate }
  | becomeCandidate (notLeader : c.state ≠ .stateLeader) (may : m.Campaigns c)
    : Act now m c { c.reset (c.term + 1) with vote := c.id, state := .stateCandidate }
  | send (sent : Message) (may : MaySend m c sent)
    : Act now m c { c with msgs := c.msgs ++ [sent] }
  | answer (sent : Message) (may : MayAnswer c sent) : Act now m c (c.answer sent)
  | grant (type : m.type = .msgVote) (term : m.term = c.term)
      (free : c.vote = m.fromId ∨ c.vote = none64)
      (upToDate : c.raftLog.isUpToDate { term := m.logTerm, index := m.index } = .ok true)
    : Act now m c { c.answer (c.grant m.fromId) with vote := m.fromId }
  | poll (type : m.type = .msgVoteResp) (candidate : c.state = .stateCandidate)
      (term : m.term = c.term) (votes : IdMap Bool)
      (recorded : ∀ id, votes.get? id = some true
        → c.votes.get? id = some true ∨ (id = m.fromId ∧ m.reject = false))
    : Act now m c { c with votes := votes }
  | pollPre (type : m.type = .msgPreVoteResp) (preCandidate : c.state = .statePreCandidate)
      (term : m.term = 0 ∨ c.term ≤ m.term) (votes : IdMap Bool)
      (recorded : ∀ id, votes.get? id = some true
        → c.votes.get? id = some true ∨ (id = m.fromId ∧ m.reject = false))
    : Act now m c { c with votes := votes }
  | win (candidate : c.state = .stateCandidate)
      (won : c.config.voters.voteResult c.votes = .voteWon) (type : m.type = .msgVoteResp)
    : Act now m c { c.reset c.term with
        state := .stateLeader
        pendingConfIndex := c.raftLog.lastIndex }
  | acknowledged (type : m.type = .msgAppResp) (leads : c.state = .stateLeader)
      (term : m.term = c.term) (reject : m.reject = false)
    : Act now m c { c with progress := acknowledge c.progress m.fromId m.index }
  | commit (leads : c.state = .stateLeader) (raftLog : RaftLog)
      (commits : c.raftLog.maybeCommit { term := c.term, index := c.committedIndex }
        = .ok (raftLog, true))
      (source : m.type = .msgAppResp ∨ m.type = .msgHup)
    : Act now m c { c with raftLog := raftLog }
  | accept (type : m.type = .msgApp) (follower : c.state = .stateFollower)
      (term : m.term = c.term) (above : c.raftLog.committed ≤ m.index) (raftLog : RaftLog)
      (last : Nat)
      (appended : c.raftLog.maybeAppend (Raft.logSliceFromMsgApp m) m.commit
        = .ok (raftLog, some last))
    : Act now m c
        ({ c with raftLog := raftLog }.answer ({ c with raftLog := raftLog }.ack m.fromId last))
  | ackCommitted (type : m.type = .msgApp ∨ m.type = .msgSnap)
      (follower : c.state = .stateFollower) (term : m.term = c.term)
    : Act now m c (c.answer (c.ack m.fromId c.raftLog.committed))
  | heartbeat (type : m.type = .msgHeartbeat) (follower : c.state = .stateFollower)
      (term : m.term = c.term) (raftLog : RaftLog)
      (committed : c.raftLog.commitTo m.commit = .ok raftLog)
    : Act now m c { c with raftLog := raftLog, msgs := c.msgs ++ [c.heartbeatResp m] }
  | fastForward (type : m.type = .msgSnap) (follower : c.state = .stateFollower)
      (term : m.term = c.term) (newer : c.raftLog.committed < m.snap.metadata.index)
      (holds : c.raftLog.matchTerm m.snap.id = true) (raftLog : RaftLog)
      (committed : c.raftLog.commitTo m.snap.metadata.index = .ok raftLog)
    : Act now m c { c with raftLog := raftLog }
  | restore (type : m.type = .msgSnap) (follower : c.state = .stateFollower)
      (term : m.term = c.term) (newer : c.raftLog.committed < m.snap.metadata.index)
      (lacks : c.raftLog.matchTerm m.snap.id = false) (chg : Changer)
      (blank : chg.tracker.config = {} ∧ chg.tracker.progress = .empty)
      (cfg : TrackerConfig) (progress : ProgressMap)
      (config : restoreConf chg m.snap.metadata.confState = .ok (cfg, progress))
      (same : m.snap.metadata.confState.equivalent cfg.confState = true)
    : Act now m c
        ((c.restored m.snap cfg progress).answer
          ((c.restored m.snap cfg progress).ack m.fromId m.snap.metadata.index))
  | stored (type : m.type = .msgStorageAppendResp) (current : Bool)
      (term : if current then m.term = c.term else m.term < c.term) (raftLog : RaftLog)
      (stores : c.raftLog.stored current m = .ok raftLog)
    : Act now m c { c with raftLog := raftLog }
  | applied (type : m.type = .msgStorageApplyResp) (e : Entry) (last : m.entries.getLast? = some e)
      (size : Nat) (raftLog : RaftLog)
      (applies : c.raftLog.appliedTo (max e.index c.raftLog.applied) size = .ok raftLog)
    : Act now m c { c with raftLog := raftLog }
  | setPending (index : Nat) (beyond : c.raftLog.lastIndex ≤ index)
    : Act now m c { c with pendingConfIndex := index }
  | park (type : m.type = .msgReadIndex) (leads : c.state = .stateLeader)
    : Act now m c { c with pendingReads := c.pendingReads ++ [m] }
  | unpark : Act now m c { c with pendingReads := [] }
  | register (leads : c.state = .stateLeader)
      (current : c.Current)
      (safe : c.readOnly.option = .readOnlySafe) (request : Message)
      (received : request.stamp ≤ now) (readOnly : ReadOnly)
      (own : (c.readOnly.addRequest c.raftLog.committed request).recvAck c.id
        (c.readOnly.addRequest c.raftLog.committed request).heartbeatCtx = .ok readOnly)
      (source : m.TakesRead c request)
    : Act now m c { c with readOnly := readOnly }
  | confirm (type : m.type = .msgHeartbeatResp) (leads : c.state = .stateLeader)
      (term : m.term = c.term) (safe : c.readOnly.option = .readOnlySafe)
      (acked : ReadOnly)
      (acks : c.readOnly.recvAck m.fromId m.context = .ok acked) (readOnly : ReadOnly)
      (reads : List ReadIndexRequest)
      (advances : acked.maybeAdvance c.config.voters = .ok (readOnly, reads))
      (states : List ReadState) (msgs : List Message)
      (answers : Answers states msgs fun index stamp =>
        ∃ q ∈ reads, index = q.index ∧ stamp = q.req.stamp)
    : Act now m c ({ c with readOnly := readOnly }.answered states msgs)
  | answerAtOnce (leads : c.state = .stateLeader)
      (allowed : (m.type = .msgReadIndex ∧ c.isSingleton = true)
        ∨ c.readOnly.option = .readOnlyLeaseBased)
      (states : List ReadState) (msgs : List Message)
      (answers : Answers states msgs fun index stamp =>
        index = c.raftLog.committed ∧ stamp ≤ now)
    : Act now m c (c.answered states msgs)
  | received (type : m.type = .msgReadIndexResp)
      (rs : ReadState) (index : rs.index = m.index) (stamp : rs.stamp = m.stamp)
    : Act now m c { c with readStates := c.readStates ++ [rs] }

abbrev Acts (now : Nat) (m : Message) : Core → Core → Prop := Relation.ReflTransGen (Act now m)

end EtcdRaft
