import EtcdRaft.Model.Raft

/-! The state machine of a node: `Step`, the step functions of the roles and `tick`. -/

namespace EtcdRaft

/-- A node after a step, with the error that `Step` returned. -/
abbrev StepResult := Result (Raft × Option StepError)

namespace Raft

def done (r : Raft) : StepResult := return (r, none)

-----------------------------------------------------------------------------------------
-- Elections
-----------------------------------------------------------------------------------------

/-- The callback of `hasUnappliedConfChanges`. At a configuration change it stops the scan
with `errBreak`, its only error.
-/
def findConfChange (found : Bool) (ents : List Entry) : Bool × Option Unit :=
  if ents.any Entry.isConfChange then (true, some ()) else (found, none)

def hasUnappliedConfChanges [Codec] (r : Raft) : Result Bool := do
  if r.raftLog.applied ≥ r.raftLog.committed then
    return false
  let lo := r.raftLog.applied + 1
  let hi := r.raftLog.committed + 1
  match ← r.raftLog.scan lo hi r.raftLog.maxApplyingEntsSize findConfChange false with
  | (found, none) => return found
  | (found, some (.callback ())) => return found
  | (_, some _) => throw (.scanError lo hi)

/-- `voteRespMsgType`, only called for the two vote requests. -/
def voteRespMsgType (msgt : MessageType) : MessageType :=
  if msgt = .msgVote then .msgVoteResp else .msgPreVoteResp

/-- The change of role that a campaign starts with. -/
def becomeCampaigner (r : Raft) (t : CampaignType) : Result Raft :=
  if t = .campaignPreElection then r.becomePreCandidate else r.becomeCandidate

/-- The request to one voter; the node's own vote is a message to itself that waits until
the vote is stored.
-/
def requestVote (t : CampaignType) (r : Raft) (id : Nat) : Result Raft := do
  -- a pre-vote is for the term the node would start
  let term := if t = .campaignPreElection then add64 r.term 1 else r.term
  let voteMsg : MessageType := if t = .campaignPreElection then .msgPreVote else .msgVote
  if id = r.id then
    r.send { type := voteRespMsgType voteMsg, toId := id, term := term }
  else
    let last ← r.raftLog.lastEntryID
    r.send {
      type := voteMsg
      toId := id
      term := term
      index := last.index
      logTerm := last.term
      context := if t = .campaignTransfer then campaignTransferCtx else [] }

/-- `campaign` asks every voter for its vote. -/
def campaign (r : Raft) (t : CampaignType) : Result Raft := do
  let r ← r.becomeCampaigner t
  r.trk.config.voters.ids.keys.foldlM (requestVote t) r

def hup [Codec] (r : Raft) (t : CampaignType) : Result Raft := do
  if r.state = .stateLeader then
    return r
  if !r.promotable then
    return r
  if ← r.hasUnappliedConfChanges then
    return r
  r.campaign t

/-- `poll` records an answer and reports the outcome of the election so far. -/
def poll (r : Raft) (id : Nat) (v : Bool) : Raft × VoteResult :=
  let r := { r with trk := r.trk.recordVote id v }
  (r, r.trk.tallyVotes)

-----------------------------------------------------------------------------------------
-- Reads
-----------------------------------------------------------------------------------------

def committedEntryInCurrentTerm (r : Raft) : Bool :=
  r.raftLog.zeroTerm r.raftLog.committed == r.term

/-- `responseToReadIndexReq`; there is no message for a request of the node itself. -/
def responseToReadIndexReq (r : Raft) (req : Message) (readIndex : Nat)
    : Result (Raft × Option Message) := do
  if req.fromId = none64 ∨ req.fromId = r.id then
    match req.entries with
    | [] => throw .runtimeError
    | e :: _ =>
        return ({ r with
          readStates := r.readStates ++
            [{ index := readIndex, requestCtx := e.data, stamp := req.stamp }] }, none)
  else
    return (r, some {
      type := .msgReadIndexResp
      toId := req.fromId
      index := readIndex
      entries := req.entries
      stamp := req.stamp })

/-- `responseToReadIndexReq` with the sending of the response. -/
def answerReadIndexReq (r : Raft) (req : Message) (readIndex : Nat) : Result Raft := do
  match ← r.responseToReadIndexReq req readIndex with
  | (r, none) => return r
  | (r, some resp) => r.send resp

def sendMsgReadIndexResponse (r : Raft) (m : Message) : Result Raft := do
  match r.readOnly.option with
  | .readOnlySafe =>
      let r := { r with readOnly := r.readOnly.addRequest r.raftLog.committed m }
      let readOnly ← r.readOnly.recvAck r.id r.readOnly.heartbeatCtx
      let r := { r with readOnly := readOnly }
      r.bcastHeartbeat
  | .readOnlyLeaseBased => r.answerReadIndexReq m r.raftLog.committed

def releasePendingReadIndexMessages (r : Raft) : Result Raft := do
  if r.pendingReadIndexMessages.length = 0 then
    return r
  if !r.committedEntryInCurrentTerm then
    return r
  let msgs := r.pendingReadIndexMessages
  msgs.foldlM sendMsgReadIndexResponse { r with pendingReadIndexMessages := [] }

-----------------------------------------------------------------------------------------
-- Leader
-----------------------------------------------------------------------------------------

/-- The configuration change an entry carries. -/
def confChangeOf [Codec] (e : Entry) : Result (Option ConfChangeV2) :=
  match e.type with
  | .entryNormal => return none
  | .entryConfChange =>
      match Codec.unmarshalConfChange e.data with
      | some cc => return some cc.asV2
      | none => throw .unmarshal
  | .entryConfChangeV2 =>
      match Codec.unmarshalConfChangeV2 e.data with
      | some cc => return some cc
      | none => throw .unmarshal

/-- One iteration of the loop over the proposed entries: a configuration change that is
refused becomes an empty entry, one that is accepted becomes the pending one.
-/
def checkProposal [Codec] (r : Raft) (i : Nat) (e : Entry) : Result (Raft × Entry) := do
  match ← confChangeOf e with
  | none => return (r, e)
  | some cc =>
      let alreadyPending := r.pendingConfIndex > r.raftLog.applied
      let alreadyJoint := r.trk.config.voters.outgoingSet.size > 0
      let wantsLeaveJoint := cc.changes.length = 0
      let failedCheck := alreadyPending ∨ (alreadyJoint ∧ ¬wantsLeaveJoint) ∨
        (¬alreadyJoint ∧ wantsLeaveJoint)
      if failedCheck ∧ !r.disableConfChangeValidation then
        return (r, { type := .entryNormal })
      else
        return ({ r with pendingConfIndex := r.raftLog.lastIndex + i + 1 }, e)

def checkProposals [Codec] (r : Raft) : (i : Nat) → List Entry → Result (Raft × List Entry)
  | _, [] => return (r, [])
  | i, e :: rest => do
      let (r, e) ← r.checkProposal i e
      let (r, rest) ← r.checkProposals (i + 1) rest
      return (r, e :: rest)

/-- `MsgProp` at a leader. -/
def stepLeaderProp [Codec] (r : Raft) (m : Message) : StepResult := do
  if m.entries.length = 0 then
    throw .emptyProp
  if !r.trk.progress.contains r.id then
    return (r, some .errProposalDropped)
  if r.leadTransferee ≠ none64 then
    return (r, some .errProposalDropped)
  let (r, entries) ← r.checkProposals 0 m.entries
  let (r, ok) ← r.appendEntry entries
  if !ok then
    return (r, some .errProposalDropped)
  let r ← r.bcastAppend
  r.done

/-- `MsgReadIndex` at a leader. -/
def stepLeaderReadIndex (r : Raft) (m : Message) : Result Raft := do
  if r.trk.isSingleton then
    r.answerReadIndexReq m r.raftLog.committed
  else if !r.committedEntryInCurrentTerm then
    return { r with pendingReadIndexMessages := r.pendingReadIndexMessages ++ [m] }
  else
    r.sendMsgReadIndexResponse m

/-- A `MsgAppResp` that rejects: probe further back. -/
def stepLeaderAppReject [Codec] (r : Raft) (m : Message) (pr : Progress) : Result Raft := do
  let nextProbeIdx := if m.logTerm > 0 then
      (r.raftLog.findConflictByTerm m.rejectHint m.logTerm).1
    else
      m.rejectHint
  let (pr, decreased) := pr.maybeDecrTo m.index nextProbeIdx
  if decreased then
    let pr := if pr.state = .stateReplicate then pr.becomeProbe else pr
    (r.setProgress m.fromId pr).sendAppend m.fromId
  else
    return r

/-- The new state of a peer's progress after an acknowledgement that was news. -/
def progressAfterAck (r : Raft) (m : Message) (pr : Progress) : Result Progress := do
  if pr.state = .stateProbe then
    return pr.becomeReplicate
  else if pr.state = .stateSnapshot ∧ pr.match + 1 ≥ r.raftLog.firstIndex then
    return pr.becomeProbe.becomeReplicate
  else if pr.state = .stateReplicate then
    let inflights ← pr.inflights.freeLE m.index
    return { pr with inflights := inflights }
  else
    return pr

/-- The messages after an acknowledgement that was news: to all if it committed something,
else to the peer if it can learn a higher commit index.
-/
def announceAck [Codec] (r : Raft) (m : Message) (pr : Progress) (committed : Bool)
    : Result Raft := do
  if committed then
    let r ← r.releasePendingReadIndexMessages
    r.bcastAppend
  else if r.id ≠ m.fromId ∧ pr.canBumpCommit r.raftLog.committed then
    r.sendAppend m.fromId
  else
    return r

/-- A peer that has caught up may take the leadership that it is waiting for. -/
def finishTransfer (r : Raft) (m : Message) (pr : Progress) : Result Raft :=
  if m.fromId = r.leadTransferee ∧ pr.match = r.raftLog.lastIndex then
    r.sendTimeoutNow m.fromId
  else
    return r

/-- A `MsgAppResp` that acknowledges. -/
def stepLeaderAppAck [Codec] (r : Raft) (m : Message) (pr : Progress) : Result Raft := do
  let (pr, updated) := pr.maybeUpdate m.index
  if updated || (pr.match == m.index && pr.state == .stateProbe) then
    let pr ← r.progressAfterAck m pr
    let r := r.setProgress m.fromId pr
    let (r, committed) ← r.maybeCommit
    let r ← r.announceAck m pr committed
    if r.id ≠ m.fromId then
      let r ← sendAppendLoop m.fromId (r.raftLog.lastIndex + 3) r
      r.finishTransfer m pr
    else
      r.finishTransfer m pr
  else
    return r

/-- `MsgAppResp` at a leader. -/
def stepLeaderAppResp [Codec] (r : Raft) (m : Message) (pr : Progress) : Result Raft := do
  let pr := { pr with recentActive := true }
  let r := r.setProgress m.fromId pr
  if m.reject then r.stepLeaderAppReject m pr else r.stepLeaderAppAck m pr

/-- A peer that has answered a heartbeat but lacks entries is sent them. -/
def catchUp [Codec] (r : Raft) (id : Nat) (pr : Progress) : Result Raft :=
  if pr.match < r.raftLog.lastIndex ∨ pr.state = .stateProbe then r.sendAppend id else return r

/-- The reads that a heartbeat response confirms. -/
def confirmReads (r : Raft) (m : Message) : Result Raft := do
  let readOnly ← r.readOnly.recvAck m.fromId m.context
  let (readOnly, rss) ← readOnly.maybeAdvance r.trk.config.voters
  rss.foldlM (fun r rs => r.answerReadIndexReq rs.req rs.index) { r with readOnly := readOnly }

/-- `MsgHeartbeatResp` at a leader. -/
def stepLeaderHeartbeatResp [Codec] (r : Raft) (m : Message) (pr : Progress) : Result Raft := do
  let pr := { pr with recentActive := true, msgAppFlowPaused := false }
  let r ← (r.setProgress m.fromId pr).catchUp m.fromId pr
  if r.readOnly.option ≠ .readOnlySafe ∨ m.context.length = 0 then
    return r
  r.confirmReads m

/-- `MsgSnapStatus` at a leader. -/
def stepLeaderSnapStatus (r : Raft) (m : Message) (pr : Progress) : Raft :=
  if pr.state ≠ .stateSnapshot then
    r
  else
    let pr := if m.reject then { pr with pendingSnapshot := 0 }.becomeProbe else pr.becomeProbe
    r.setProgress m.fromId { pr with msgAppFlowPaused := true }

/-- `MsgTransferLeader` at a leader. -/
def stepLeaderTransfer [Codec] (r : Raft) (m : Message) (pr : Progress) : Result Raft := do
  if pr.isLearner then
    return r
  let leadTransferee := m.fromId
  if r.leadTransferee ≠ none64 ∧ r.leadTransferee = leadTransferee then
    return r
  let r := if r.leadTransferee ≠ none64 then r.abortLeaderTransfer else r
  if leadTransferee = r.id then
    return r
  let r := { r with electionElapsed := 0, leadTransferee := leadTransferee }
  if pr.match = r.raftLog.lastIndex then
    r.sendTimeoutNow leadTransferee
  else
    r.sendAppend leadTransferee

def stepLeaderCheckQuorum (r : Raft) : Raft :=
  let r := if !r.trk.quorumActive then r.becomeFollower r.term none64 else r
  let inactive (id : Nat) (pr : Progress) : Progress :=
    if id ≠ r.id then { pr with recentActive := false } else pr
  { r with trk := { r.trk with progress := r.trk.progress.mapValues inactive } }

/-- The messages at a leader that need a progress of the sender. -/
def stepLeaderPeer [Codec] (r : Raft) (m : Message) (pr : Progress) : Result Raft :=
  match m.type with
  | .msgAppResp => r.stepLeaderAppResp m pr
  | .msgHeartbeatResp => r.stepLeaderHeartbeatResp m pr
  | .msgSnapStatus => return r.stepLeaderSnapStatus m pr
  | .msgUnreachable =>
      return if pr.state = .stateReplicate then r.setProgress m.fromId pr.becomeProbe else r
  | .msgTransferLeader => r.stepLeaderTransfer m pr
  | _ => return r

def stepLeader [Codec] (r : Raft) (m : Message) : StepResult := do
  match m.type with
  | .msgBeat => (← r.bcastHeartbeat).done
  | .msgCheckQuorum => r.stepLeaderCheckQuorum.done
  | .msgProp => r.stepLeaderProp m
  | .msgReadIndex => (← r.stepLeaderReadIndex m).done
  | .msgForgetLeader => r.done
  | _ =>
      match r.trk.progress.get? m.fromId with
      | none => r.done
      | some pr => (← r.stepLeaderPeer m pr).done

-----------------------------------------------------------------------------------------
-- Followers
-----------------------------------------------------------------------------------------

/-- `logSliceFromMsgApp`. -/
def logSliceFromMsgApp (m : Message) : LogSlice where
  term := m.term
  prev := { term := m.logTerm, index := m.index }
  entries := m.entries

def handleAppendEntries (r : Raft) (m : Message) : Result Raft := do
  let a := logSliceFromMsgApp m
  if a.prev.index < r.raftLog.committed then
    r.send { type := .msgAppResp, toId := m.fromId, index := r.raftLog.committed }
  else
    match ← r.raftLog.maybeAppend a m.commit with
    | (raftLog, some mlastIndex) =>
        let r := { r with raftLog := raftLog }
        r.send { type := .msgAppResp, toId := m.fromId, index := mlastIndex }
    | (raftLog, none) =>
        let r := { r with raftLog := raftLog }
        let hintIndex := min m.index r.raftLog.lastIndex
        let (hintIndex, hintTerm) := r.raftLog.findConflictByTerm hintIndex m.logTerm
        r.send {
          type := .msgAppResp
          toId := m.fromId
          index := m.index
          reject := true
          rejectHint := hintIndex
          logTerm := hintTerm }

def handleHeartbeat (r : Raft) (m : Message) : Result Raft := do
  let raftLog ← r.raftLog.commitTo m.commit
  let r := { r with raftLog := raftLog }
  r.send { type := .msgHeartbeatResp, toId := m.fromId, context := m.context }

/-- `restore`; the answer is false if the snapshot was ignored. -/
def restore [Codec] (r : Raft) (s : Snapshot) : Result (Raft × Bool) := do
  if s.metadata.index ≤ r.raftLog.committed then
    return (r, false)
  if r.state ≠ .stateFollower then
    return (r.becomeFollower (add64 r.term 1) none64, false)
  let cs := s.metadata.confState
  if !(cs.voters.contains r.id || cs.learners.contains r.id || cs.votersOutgoing.contains r.id) then
    return (r, false)
  if r.raftLog.matchTerm { term := s.metadata.term, index := s.metadata.index } then
    let raftLog ← r.raftLog.commitTo s.metadata.index
    return ({ r with raftLog := raftLog }, false)
  let r := { r with
    raftLog := r.raftLog.restore s
    trk := makeProgressTracker r.trk.maxInflight r.trk.maxInflightBytes }
  let (cfg, trk) ← orPanic (restoreConf { tracker := r.trk, lastIndex := r.raftLog.lastIndex } cs)
  let (r, active) ← r.switchToConfig cfg trk
  assertConfStatesEquivalent cs active
  return (r, true)

def handleSnapshot [Codec] (r : Raft) (m : Message) : Result Raft := do
  match ← r.restore (m.snapshot.getD {}) with
  | (r, true) => r.send { type := .msgAppResp, toId := m.fromId, index := r.raftLog.lastIndex }
  | (r, false) => r.send { type := .msgAppResp, toId := m.fromId, index := r.raftLog.committed }

/-- The answers that the campaign of a candidate or pre-candidate waits for. -/
def myVoteRespType (r : Raft) : MessageType :=
  if r.state = .statePreCandidate then .msgPreVoteResp else .msgVoteResp

/-- What follows from the outcome of a poll. -/
def concludePoll [Codec] (r : Raft) (res : VoteResult) : StepResult := do
  match res with
  | .voteWon =>
      if r.state = .statePreCandidate then
        (← r.campaign .campaignElection).done
      else
        let r ← r.becomeLeader
        (← r.bcastAppend).done
  | .voteLost => (r.becomeFollower r.term none64).done
  | .votePending => r.done

/-- `stepCandidate`, for candidates and pre-candidates. -/
def stepCandidate [Codec] (r : Raft) (m : Message) : StepResult := do
  match m.type with
  | .msgProp => return (r, some .errProposalDropped)
  | .msgApp => (← (r.becomeFollower m.term m.fromId).handleAppendEntries m).done
  | .msgHeartbeat => (← (r.becomeFollower m.term m.fromId).handleHeartbeat m).done
  | .msgSnap => (← (r.becomeFollower m.term m.fromId).handleSnapshot m).done
  | _ =>
      if m.type = r.myVoteRespType then
        let (r, res) := r.poll m.fromId (!m.reject)
        r.concludePoll res
      else
        r.done

/-- A follower forwards a message to the leader. -/
def forward (r : Raft) (m : Message) : StepResult := do
  (← r.send { m with toId := r.lead }).done

def stepFollower [Codec] (r : Raft) (m : Message) : StepResult := do
  match m.type with
  | .msgProp =>
      if r.lead = none64 then
        return (r, some .errProposalDropped)
      else if r.disableProposalForwarding then
        return (r, some .errProposalDropped)
      else
        r.forward m
  | .msgApp =>
      (← { r with electionElapsed := 0, lead := m.fromId }.handleAppendEntries m).done
  | .msgHeartbeat =>
      (← { r with electionElapsed := 0, lead := m.fromId }.handleHeartbeat m).done
  | .msgSnap =>
      (← { r with electionElapsed := 0, lead := m.fromId }.handleSnapshot m).done
  | .msgTransferLeader => if r.lead = none64 then r.done else r.forward m
  | .msgForgetLeader =>
      if r.readOnly.option = .readOnlyLeaseBased then
        r.done
      else
        let r := { r with lead := none64 }
        r.done
  | .msgTimeoutNow => (← r.hup .campaignTransfer).done
  | .msgReadIndex => if r.lead = none64 then r.done else r.forward m
  | .msgReadIndexResp =>
      match m.entries with
      | [e] =>
          let rs : ReadState := { index := m.index, requestCtx := e.data, stamp := m.stamp }
          let r := { r with readStates := r.readStates ++ [rs] }
          r.done
      | _ => r.done
  | _ => r.done

-----------------------------------------------------------------------------------------
-- Applied entries
-----------------------------------------------------------------------------------------

/-- `confChangeToMsg(nil)`, the proposal to leave a joint configuration. -/
def leaveJointMsg : Message where
  type := .msgProp
  entries := [{ type := .entryConfChangeV2 }]

/-- `appliedTo`. The proposal made here is a local message at a leader, so that `Step`
hands it to `stepLeader`; its error is only logged.
-/
def appliedTo [Codec] (r : Raft) (index size : Nat) : Result Raft := do
  let newApplied := max index r.raftLog.applied
  let raftLog ← r.raftLog.appliedTo newApplied size
  let r := { r with raftLog := raftLog }
  if r.trk.config.autoLeave ∧ newApplied ≥ r.pendingConfIndex ∧ r.state = .stateLeader then
    let (r, _) ← r.stepLeader leaveJointMsg
    return r
  else
    return r

def appliedSnap [Codec] (r : Raft) (snap : Snapshot) : Result Raft :=
  { r with raftLog := r.raftLog.stableSnapTo snap.metadata.index }.appliedTo snap.metadata.index 0

-----------------------------------------------------------------------------------------
-- Step
-----------------------------------------------------------------------------------------

/-- The step function of the node's role. -/
def stepRole [Codec] (r : Raft) (m : Message) : StepResult :=
  match r.state with
  | .stateFollower => r.stepFollower m
  | .stateCandidate => r.stepCandidate m
  | .statePreCandidate => r.stepCandidate m
  | .stateLeader => r.stepLeader m

/-- `MsgVote` and `MsgPreVote`. -/
def handleVote (r : Raft) (m : Message) : Result Raft := do
  let canVote := r.vote = m.fromId ∨ (r.vote = none64 ∧ r.lead = none64) ∨
    (m.type = .msgPreVote ∧ m.term > r.term)
  let upToDate ← r.raftLog.isUpToDate { term := m.logTerm, index := m.index }
  if canVote ∧ upToDate then
    let r ← r.send { type := voteRespMsgType m.type, toId := m.fromId, term := m.term }
    return if m.type = .msgVote then { r with electionElapsed := 0, vote := m.fromId } else r
  else
    r.send { type := voteRespMsgType m.type, toId := m.fromId, term := r.term, reject := true }

def appliedSnapOf [Codec] (r : Raft) (snap : Option Snapshot) : Result Raft :=
  match snap with
  | some snap => r.appliedSnap snap
  | none => return r

/-- The second half of `Step`, after the term of the message has been looked at. -/
def stepMessage [Codec] (r : Raft) (m : Message) : StepResult := do
  match m.type with
  | .msgHup =>
      (← r.hup (if r.preVote then .campaignPreElection else .campaignElection)).done
  | .msgStorageAppendResp =>
      let r := if m.index ≠ 0 then
          { r with raftLog := r.raftLog.stableTo { term := m.logTerm, index := m.index } }
        else
          r
      (← r.appliedSnapOf m.snapshot).done
  | .msgStorageApplyResp =>
      match m.entries.getLast? with
      | none => r.done
      | some e =>
          let r ← r.appliedTo e.index (entsSize m.entries)
          (r.reduceUncommittedSize (payloadsSize m.entries)).done
  | .msgVote => (← r.handleVote m).done
  | .msgPreVote => (← r.handleVote m).done
  | _ => r.stepRole m

/-- A vote request of a higher term that a leader's lease makes the node ignore. -/
def ignoredByLease (r : Raft) (m : Message) : Bool :=
  (m.type == .msgVote || m.type == .msgPreVote)
    && !(m.context == campaignTransferCtx)
    && (r.checkQuorum && r.lead != none64 && decide (r.electionElapsed < r.electionTimeout))

/-- The change of term on a message of a higher term. -/
def adoptTerm (r : Raft) (m : Message) : Raft :=
  if m.type = .msgPreVote then
    r
  else if m.type = .msgPreVoteResp ∧ !m.reject then
    r
  else if m.type = .msgApp ∨ m.type = .msgHeartbeat ∨ m.type = .msgSnap then
    r.becomeFollower m.term m.fromId
  else
    r.becomeFollower m.term none64

/-- A message of a lower term. -/
def stepLowerTerm [Codec] (r : Raft) (m : Message) : Result Raft := do
  if (r.checkQuorum || r.preVote) && (m.type == .msgHeartbeat || m.type == .msgApp) then
    r.send { type := .msgAppResp, toId := m.fromId }
  else if m.type = .msgPreVote then
    r.send { type := .msgPreVoteResp, toId := m.fromId, term := r.term, reject := true }
  else if m.type = .msgStorageAppendResp then
    r.appliedSnapOf m.snapshot
  else
    return r

/-- `Step`. -/
def step [Codec] (r : Raft) (m : Message) : StepResult := do
  if m.term = 0 then
    r.stepMessage m
  else if m.term > r.term then
    if r.ignoredByLease m then r.done else (r.adoptTerm m).stepMessage m
  else if m.term < r.term then
    (← r.stepLowerTerm m).done
  else
    r.stepMessage m

-----------------------------------------------------------------------------------------
-- Ticks
-----------------------------------------------------------------------------------------

def pastElectionTimeout (r : Raft) : Bool :=
  decide (r.electionElapsed ≥ r.randomizedElectionTimeout)

/-- A message that the node steps itself; the error is only logged. -/
def stepLocal [Codec] (r : Raft) (type : MessageType) : Result Raft := do
  let (r, _) ← r.step { type := type, fromId := r.id }
  return r

def tickElection [Codec] (r : Raft) : Result Raft := do
  let r := { r with electionElapsed := r.electionElapsed + 1 }
  if r.promotable && r.pastElectionTimeout then
    let r := { r with electionElapsed := 0 }
    r.stepLocal .msgHup
  else
    return r

/-- What a leader does when an election timeout has passed. -/
def checkLeadership [Codec] (r : Raft) : Result Raft := do
  let r := { r with electionElapsed := 0 }
  let r ← if r.checkQuorum then r.stepLocal .msgCheckQuorum else pure r
  return if r.state = .stateLeader ∧ r.leadTransferee ≠ none64 then r.abortLeaderTransfer else r

/-- The heartbeat of a node that is still the leader, when it is due. -/
def beat [Codec] (r : Raft) : Result Raft := do
  if r.state ≠ .stateLeader then
    return r
  if r.heartbeatElapsed ≥ r.heartbeatTimeout then
    let r := { r with heartbeatElapsed := 0 }
    r.stepLocal .msgBeat
  else
    return r

def tickHeartbeat [Codec] (r : Raft) : Result Raft := do
  let r := { r with
    heartbeatElapsed := r.heartbeatElapsed + 1
    electionElapsed := r.electionElapsed + 1 }
  if r.electionElapsed ≥ r.electionTimeout then
    (← r.checkLeadership).beat
  else
    r.beat

def tick [Codec] (r : Raft) : Result Raft :=
  match r.state with
  | .stateLeader => r.tickHeartbeat
  | _ => r.tickElection

end Raft

end EtcdRaft
