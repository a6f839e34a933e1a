import EtcdRaft.Model.Confchange
import EtcdRaft.Model.Log
import EtcdRaft.Model.ReadOnly

/-! The state of a raft node, the messages it sends and its changes of role, `raft.go`. -/

namespace EtcdRaft

/-- `StateType`, the role of a node. -/
inductive StateType where
  | stateFollower
  | stateCandidate
  | stateLeader
  | statePreCandidate
deriving DecidableEq

inductive CampaignType where
  | campaignPreElection
  | campaignElection
  | campaignTransfer
deriving DecidableEq

/-- The bytes of the string "CampaignTransfer". -/
def campaignTransferCtx : List UInt8 :=
  [67, 97, 109, 112, 97, 105, 103, 110, 84, 114, 97, 110, 115, 102, 101, 114]

-----------------------------------------------------------------------------------------
-- Configuration of a node
-----------------------------------------------------------------------------------------

/-- `Config`. The application's `Storage` is a `MemoryStorage`; `confState` is the answer
of its `InitialState` where the application keeps the configuration elsewhere than in the
snapshot. `rand` is the source of the random numbers.
-/
structure Config where
  id : Nat
  electionTick : Nat
  heartbeatTick : Nat
  storage : MemoryStorage
  confState : Option ConfState := none
  applied : Nat := 0
  asyncStorageWrites : Bool := false
  maxSizePerMsg : Nat := 0
  maxCommittedSizePerReady : Nat := 0
  maxUncommittedEntriesSize : Nat := 0
  maxInflightMsgs : Nat
  maxInflightBytes : Nat := 0
  checkQuorum : Bool := false
  preVote : Bool := false
  readOnlyOption : ReadOnlyOption := .readOnlySafe
  disableProposalForwarding : Bool := false
  disableConfChangeValidation : Bool := false
  stepDownOnRemoval : Bool := false
  rand : List Nat := []

/-- The defaults that `validate` fills in. -/
def Config.withDefaults (c : Config) : Config :=
  { c with
    maxUncommittedEntriesSize :=
      if c.maxUncommittedEntriesSize = 0 then noLimit else c.maxUncommittedEntriesSize
    maxCommittedSizePerReady :=
      if c.maxCommittedSizePerReady = 0 then c.maxSizePerMsg else c.maxCommittedSizePerReady
    maxInflightBytes := if c.maxInflightBytes = 0 then noLimit else c.maxInflightBytes }

/-- `validate`, which also fills in the defaults. -/
def Config.validate (c : Config) : Result Config := do
  if c.id = none64 then
    throw .invalidConfig
  if isLocalMsgTarget c.id then
    throw .invalidConfig
  if c.heartbeatTick = 0 then
    throw .invalidConfig
  if c.electionTick ≤ c.heartbeatTick then
    throw .invalidConfig
  if c.maxInflightMsgs = 0 then
    throw .invalidConfig
  if c.maxInflightBytes ≠ 0 ∧ c.maxInflightBytes < c.maxSizePerMsg then
    throw .invalidConfig
  if c.readOnlyOption = .readOnlyLeaseBased ∧ !c.checkQuorum then
    throw .invalidConfig
  return c.withDefaults

-----------------------------------------------------------------------------------------
-- State
-----------------------------------------------------------------------------------------

/-- `raft`. The function values `step` and `tick` are determined by `state`. -/
structure Raft where
  id : Nat
  term : Nat := 0
  vote : Nat := none64
  readStates : List ReadState := []
  raftLog : RaftLog
  maxMsgSize : Nat
  maxUncommittedSize : Nat
  trk : ProgressTracker
  state : StateType := .stateFollower
  isLearner : Bool := false
  msgs : List Message := []
  msgsAfterAppend : List Message := []
  lead : Nat := none64
  leadTransferee : Nat := none64
  pendingConfIndex : Nat := 0
  disableConfChangeValidation : Bool
  uncommittedSize : Nat := 0
  readOnly : ReadOnly
  electionElapsed : Nat := 0
  heartbeatElapsed : Nat := 0
  checkQuorum : Bool
  preVote : Bool
  heartbeatTimeout : Nat
  electionTimeout : Nat
  randomizedElectionTimeout : Nat := 0
  disableProposalForwarding : Bool
  stepDownOnRemoval : Bool
  pendingReadIndexMessages : List Message := []
  rand : List Nat

/-- `SoftState`. -/
structure SoftState where
  lead : Nat
  raftState : StateType
deriving DecidableEq

namespace Raft

def softState (r : Raft) : SoftState := { lead := r.lead, raftState := r.state }

def hardState (r : Raft) : HardState where
  term := r.term
  vote := r.vote
  commit := r.raftLog.committed

def setProgress (r : Raft) (id : Nat) (pr : Progress) : Raft :=
  { r with trk := { r.trk with progress := r.trk.progress.insert id pr } }

/-- `Visit` with a function that sends: the peers other than the node itself, in order. -/
def visitPeers (r : Raft) (f : Raft → Nat → Result Raft) : Result Raft :=
  r.trk.progress.keys.foldlM (fun r id => if id = r.id then pure r else f r id) r

-----------------------------------------------------------------------------------------
-- Sending
-----------------------------------------------------------------------------------------

def isVoteMsg : MessageType → Bool
  | .msgVote | .msgVoteResp | .msgPreVote | .msgPreVoteResp => true
  | _ => false

/-- The messages that wait until the state they depend on is stored. -/
def isAfterAppend : MessageType → Bool
  | .msgAppResp | .msgVoteResp | .msgPreVoteResp => true
  | _ => false

/-- The sender and the term that `send` fills in. -/
def stampTerm (r : Raft) (m : Message) : Result Message := do
  let m := if m.fromId = none64 then { m with fromId := r.id } else m
  if isVoteMsg m.type then
    if m.term = 0 then
      throw (.termShouldBeSet m.type)
    return m
  else
    if m.term ≠ 0 then
      throw (.termShouldNotBeSet m.type m.term)
    return if m.type ≠ .msgProp ∧ m.type ≠ .msgReadIndex then { m with term := r.term } else m

def send (r : Raft) (m : Message) : Result Raft := do
  let m ← r.stampTerm m
  if isAfterAppend m.type then
    let m := { m with origin := r.raftLog.logical }
    return { r with msgsAfterAppend := r.msgsAfterAppend ++ [m] }
  else
    if m.toId = r.id then
      throw (.selfAddressed m.type)
    return { r with msgs := r.msgs ++ [m] }

/-- `maybeSendSnapshot`; the answer tells whether a message was sent. -/
def maybeSendSnapshot (r : Raft) (to_ : Nat) (pr : Progress) : Result (Raft × Bool) := do
  if !pr.recentActive then
    return (r, false)
  let snapshot := r.raftLog.snapshot
  if isEmptySnap (some snapshot) then
    throw .needNonEmptySnapshot
  let r := r.setProgress to_ (pr.becomeSnapshot snapshot.metadata.index)
  let r ← r.send { type := .msgSnap, toId := to_, snapshot := some snapshot }
  return (r, true)

/-- The last part of `maybeSendAppend`, after the entries have been read. -/
def sendEntries [Codec] (r : Raft) (to_ : Nat) (pr : Progress) (prevTerm : Nat)
    (sendIfEmpty : Bool) (ents : Except StorageError (List Entry))
    : Result (Raft × Bool) := do
  match ents with
  | .error _ =>
      -- no entries: an empty message is asked for, or nothing is sent
      if !sendIfEmpty then
        return (r, false)
      r.maybeSendSnapshot to_ pr
  | .ok ents =>
      if ents.length = 0 ∧ !sendIfEmpty then
        return (r, false)
      let r ← r.send {
        type := .msgApp
        toId := to_
        index := pr.next - 1
        logTerm := prevTerm
        entries := ents
        commit := r.raftLog.committed }
      let pr ← pr.sentEntries ents.length (payloadsSize ents)
      return (r.setProgress to_ (pr.setSentCommit r.raftLog.committed), true)

/-- `maybeSendAppend`; the answer tells whether a message was sent. -/
def maybeSendAppend [Codec] (r : Raft) (to_ : Nat) (sendIfEmpty : Bool)
    : Result (Raft × Bool) := do
  match r.trk.progress.get? to_ with
  | none => throw .runtimeError
  | some pr =>
      if pr.isPaused then
        return (r, false)
      match r.raftLog.term (pr.next - 1) with
      | .error _ => r.maybeSendSnapshot to_ pr
      | .ok prevTerm =>
          -- a throttled peer is only sent an empty message
          if pr.state ≠ .stateReplicate ∨ !pr.inflights.full then
            r.sendEntries to_ pr prevTerm sendIfEmpty (← r.raftLog.entries pr.next r.maxMsgSize)
          else
            r.sendEntries to_ pr prevTerm sendIfEmpty (.ok [])

def sendAppend [Codec] (r : Raft) (to_ : Nat) : Result Raft := do
  let (r, _) ← r.maybeSendAppend to_ true
  return r

/-- `for r.maybeSendAppend(to, false) {}`. A message with entries moves `next` ahead or
pauses the peer, so the loop ends after `lastIndex + 2` rounds at most.
-/
def sendAppendLoop [Codec] (to_ : Nat) : (fuel : Nat) → Raft → Result Raft
  | 0, r => return r
  | fuel + 1, r => do
      let (r, sent) ← r.maybeSendAppend to_ false
      if sent then sendAppendLoop to_ fuel r else return r

def sendHeartbeat (r : Raft) (to_ : Nat) (ctx : List UInt8) : Result Raft := do
  match r.trk.progress.get? to_ with
  | none => throw .runtimeError
  | some pr =>
      -- the peer may not hold the committed entries beyond what it has acknowledged
      let commit := min pr.match r.raftLog.committed
      let r ← r.send { type := .msgHeartbeat, toId := to_, commit := commit, context := ctx }
      return r.setProgress to_ (pr.setSentCommit commit)

def bcastAppend [Codec] (r : Raft) : Result Raft := r.visitPeers sendAppend

def bcastHeartbeatWithCtx (r : Raft) (ctx : List UInt8) : Result Raft :=
  r.visitPeers fun r id => r.sendHeartbeat id ctx

def bcastHeartbeat (r : Raft) : Result Raft := r.bcastHeartbeatWithCtx r.readOnly.heartbeatCtx

def sendTimeoutNow (r : Raft) (to_ : Nat) : Result Raft :=
  r.send { type := .msgTimeoutNow, toId := to_ }

-----------------------------------------------------------------------------------------
-- Roles
-----------------------------------------------------------------------------------------

/-- `globalRand.Intn(n)`. -/
def intn (r : Raft) (n : Nat) : Raft × Nat :=
  match r.rand with
  | [] => (r, 0)
  | v :: rest => ({ r with rand := rest }, v % n)

def resetRandomizedElectionTimeout (r : Raft) : Raft :=
  let (r, v) := r.intn r.electionTimeout
  { r with randomizedElectionTimeout := r.electionTimeout + v }

def abortLeaderTransfer (r : Raft) : Raft := { r with leadTransferee := none64 }

def resetProgress (r : Raft) (id : Nat) (pr : Progress) : Progress where
  «match» := if id = r.id then r.raftLog.lastIndex else 0
  next := r.raftLog.lastIndex + 1
  inflights := newInflights r.trk.maxInflight r.trk.maxInflightBytes
  isLearner := pr.isLearner

def reset (r : Raft) (term : Nat) : Raft :=
  let r := if r.term ≠ term then { r with term := term, vote := none64 } else r
  let r := { r with lead := none64, electionElapsed := 0, heartbeatElapsed := 0 }
  let r := r.resetRandomizedElectionTimeout
  let r := r.abortLeaderTransfer
  { r with
    trk := { r.trk.resetVotes with progress := r.trk.progress.mapValues r.resetProgress }
    pendingConfIndex := 0
    uncommittedSize := 0
    readOnly := newReadOnly r.readOnly.option }

def becomeFollower (r : Raft) (term lead : Nat) : Raft :=
  { r.reset term with lead := lead, state := .stateFollower }

/-- The type of the first message of a candidate: its own vote, or the request for another
one.
-/
def firstVoteMsg (r : Raft) : MessageType :=
  if r.trk.config.voters.ids.keys.head? = some r.id then .msgVoteResp else .msgVote

def becomeCandidate (r : Raft) : Result Raft := do
  if r.state = .stateLeader then
    throw .invalidTransitionLeaderCandidate
  -- the largest term wraps around to 0, with which `send` panics at once: a candidate has a voter
  if add64 r.term 1 = 0 then
    throw (.termShouldBeSet r.firstVoteMsg)
  let r := r.reset (r.term + 1)
  return { r with vote := r.id, state := .stateCandidate }

def becomePreCandidate (r : Raft) : Result Raft := do
  if r.state = .stateLeader then
    throw .invalidTransitionLeaderPreCandidate
  return { r with trk := r.trk.resetVotes, lead := none64, state := .statePreCandidate }

def increaseUncommittedSize (r : Raft) (ents : List Entry) : Raft × Bool :=
  let s := payloadsSize ents
  if r.uncommittedSize > 0 ∧ s > 0 ∧ r.uncommittedSize + s > r.maxUncommittedSize then
    (r, false)
  else
    ({ r with uncommittedSize := r.uncommittedSize + s }, true)

def reduceUncommittedSize (r : Raft) (s : Nat) : Raft :=
  { r with uncommittedSize := if s > r.uncommittedSize then 0 else r.uncommittedSize - s }

/-- `appendEntry` stamps the entries with the term and their indexes and appends them; the
answer is false if the quota for uncommitted entries is exceeded.
-/
def appendEntry (r : Raft) (es : List Entry) : Result (Raft × Bool) := do
  let li := r.raftLog.lastIndex
  let cloned := es.mapIdx fun i e => { e with term := r.term, index := li + 1 + i }
  let (r, ok) := r.increaseUncommittedSize cloned
  if !ok then
    return (r, false)
  let raftLog ← r.raftLog.append cloned
  let r := { r with raftLog := raftLog }
  -- the leader acknowledges its own entries once they are stored
  let r ← r.send { type := .msgAppResp, toId := r.id, index := raftLog.lastIndex }
  return (r, true)

/-- The change of role in `becomeLeader`. -/
def takeLeadership (r : Raft) : Result Raft :=
  let r := r.reset r.term
  let r := { r with lead := r.id, state := .stateLeader }
  match r.trk.progress.get? r.id with
  | none => throw .runtimeError
  | some pr =>
      let r := r.setProgress r.id { pr.becomeReplicate with recentActive := true }
      -- a change in the log that is not known to be applied counts as pending
      return { r with pendingConfIndex := r.raftLog.lastIndex }

def becomeLeader (r : Raft) : Result Raft := do
  if r.state = .stateFollower then
    throw .invalidTransitionFollowerLeader
  let r ← r.takeLeadership
  let (r, ok) ← r.appendEntry [{}]
  if !ok then
    throw .emptyEntryDropped
  return r

-----------------------------------------------------------------------------------------
-- Commit index and configuration
-----------------------------------------------------------------------------------------

def maybeCommit (r : Raft) : Result (Raft × Bool) := do
  let (raftLog, ok) ← r.raftLog.maybeCommit { term := r.term, index := r.trk.committed }
  return ({ r with raftLog := raftLog }, ok)

/-- `promotable`, whether the node may campaign. -/
def promotable (r : Raft) : Bool :=
  match r.trk.progress.get? r.id with
  | none => false
  | some pr => !pr.isLearner && !r.raftLog.hasNextOrInProgressSnapshot

/-- What a leader sends after a change of configuration. -/
def announceCommit [Codec] (r : Raft) (committed : Bool) : Result Raft :=
  if committed then
    r.bcastAppend
  else
    r.visitPeers fun r id => do
      let (r, _) ← r.maybeSendAppend id false
      return r

/-- The first part of `switchToConfig`, which installs the configuration. -/
def installConfig (r : Raft) (cfg : TrackerConfig) (trk : ProgressMap) : Raft :=
  { r with
    trk := { r.trk with config := cfg, progress := trk }
    isLearner := (trk.get? r.id).any Progress.isLearner }

/-- The second part of `switchToConfig`, the reaction of a leader. -/
def reactToConfig [Codec] (r : Raft) : Result Raft := do
  if ((r.trk.progress.get? r.id).isNone || r.isLearner) && r.state == .stateLeader then
    return if r.stepDownOnRemoval then r.becomeFollower r.term none64 else r
  if r.state ≠ .stateLeader ∨ r.trk.confState.voters.length = 0 then
    return r
  let (r, committed) ← r.maybeCommit
  let r ← r.announceCommit committed
  if !r.trk.config.voters.ids.contains r.leadTransferee && r.leadTransferee != 0 then
    return r.abortLeaderTransfer
  return r

/-- `switchToConfig` activates a configuration. -/
def switchToConfig [Codec] (r : Raft) (cfg : TrackerConfig) (trk : ProgressMap)
    : Result (Raft × ConfState) := do
  let r := r.installConfig cfg trk
  let cs := r.trk.confState
  let r ← r.reactToConfig
  return (r, cs)

/-- `Except` of package `confchange` as a panic. -/
def orPanic : ChangeResult → Result (TrackerConfig × ProgressMap)
  | .ok res => return res
  | .error err => throw (.confChange err)

/-- The configuration that a change leads to. -/
def changedConfig (r : Raft) (cc : ConfChangeV2) : Result (TrackerConfig × ProgressMap) :=
  let changer : Changer := { tracker := r.trk, lastIndex := r.raftLog.lastIndex }
  if cc.leaveJoint then
    orPanic changer.leaveJoint
  else
    match cc.enterJoint with
    | .error () => throw .unknownTransition
    | .ok (some autoLeave) => orPanic (changer.enterJoint autoLeave cc.changes)
    | .ok none => orPanic (changer.simple cc.changes)

def applyConfChange [Codec] (r : Raft) (cc : ConfChangeV2) : Result (Raft × ConfState) := do
  let (cfg, trk) ← r.changedConfig cc
  r.switchToConfig cfg trk

def loadState (r : Raft) (state : HardState) : Result Raft := do
  if state.commit < r.raftLog.committed ∨ state.commit > r.raftLog.lastIndex then
    throw (.loadStateOutOfRange state.commit r.raftLog.committed r.raftLog.lastIndex)
  return { r with
    raftLog := { r.raftLog with committed := state.commit }
    term := state.term
    vote := state.vote }

end Raft

/-- `assertConfStatesEquivalent`. -/
def assertConfStatesEquivalent (cs1 cs2 : ConfState) : Result Unit :=
  if cs1.equivalent cs2 then return () else throw .confStatesNotEquivalent

/-- The node that `newRaft` starts out with. -/
def blankRaft (c : Config) : Raft where
  id := c.id
  raftLog := newLogWithSize c.storage c.maxCommittedSizePerReady
  maxMsgSize := c.maxSizePerMsg
  maxUncommittedSize := c.maxUncommittedEntriesSize
  trk := makeProgressTracker c.maxInflightMsgs c.maxInflightBytes
  electionTimeout := c.electionTick
  heartbeatTimeout := c.heartbeatTick
  checkQuorum := c.checkQuorum
  preVote := c.preVote
  readOnly := newReadOnly c.readOnlyOption
  disableProposalForwarding := c.disableProposalForwarding
  disableConfChangeValidation := c.disableConfChangeValidation
  stepDownOnRemoval := c.stepDownOnRemoval
  rand := c.rand

/-- The hard state is loaded, unless it is empty. -/
def Raft.loadHardState (r : Raft) (hs : HardState) : Result Raft :=
  if isEmptyHardState hs then return r else r.loadState hs

/-- `Config.Applied` takes effect, unless it is zero. -/
def Raft.loadApplied (r : Raft) (applied : Nat) : Result Raft := do
  if applied > 0 then
    return { r with raftLog := ← r.raftLog.appliedTo applied 0 }
  else
    return r

/-- `newRaft` starts a node from its storage. -/
def newRaft [Codec] (c : Config) : Result Raft := do
  let c ← c.validate
  let (hs, snapshotState) := c.storage.initialState
  let cs := c.confState.getD snapshotState
  let r := blankRaft c
  let lastID ← r.raftLog.lastEntryID
  let (cfg, trk) ← Raft.orPanic (restoreConf { tracker := r.trk, lastIndex := lastID.index } cs)
  let (r, active) ← r.switchToConfig cfg trk
  assertConfStatesEquivalent cs active
  let r ← r.loadHardState hs
  let r ← r.loadApplied c.applied
  return r.becomeFollower r.term none64

end EtcdRaft
