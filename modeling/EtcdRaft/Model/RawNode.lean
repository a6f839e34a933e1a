import EtcdRaft.Model.Step

/-! `RawNode`, the interface of the library to the application. -/

namespace EtcdRaft

/-- `RawNode`. -/
structure RawNode where
  raft : Raft
  asyncStorageWrites : Bool
  prevSoftSt : SoftState
  prevHardSt : HardState
  stepsOnAdvance : List Message := []

/-- `Ready`. An unchanged hard state is the zero one. The two storage requests that the
code appends to `Messages` with asynchronous writes have fields of their own.
-/
structure Ready where
  softState : Option SoftState
  hardState : HardState
  readStates : List ReadState
  entries : List Entry
  snapshot : Option Snapshot
  committedEntries : List Entry
  messages : List Message
  storageAppend : Option StorageMessage
  storageApply : Option StorageMessage
  mustSync : Bool

/-- `NewRawNode`. -/
def newRawNode [Codec] (config : Config) : Result RawNode := do
  let r ← newRaft config
  return {
    raft := r
    asyncStorageWrites := config.asyncStorageWrites
    prevSoftSt := r.softState
    prevHardSt := r.hardState }

/-- `MustSync`. -/
def mustSync (st prevst : HardState) (entsnum : Nat) : Bool :=
  entsnum != 0 || st.vote != prevst.vote || st.term != prevst.term

-----------------------------------------------------------------------------------------
-- Storage requests
-----------------------------------------------------------------------------------------

/-- `needStorageAppendRespMsg`. -/
def needStorageAppendRespMsg (r : Raft) (snapshot : Option Snapshot) : Bool :=
  decide (r.raftLog.unstable.entries.length > 0) || !isEmptySnap snapshot

/-- `newStorageAppendRespMsg`. -/
def newStorageAppendRespMsg (r : Raft) (snapshot : Option Snapshot) : Result Message := do
  let m : Message := {
    type := .msgStorageAppendResp
    toId := r.id
    fromId := localAppendThread
    term := r.term }
  let m ← if r.raftLog.unstable.entries.length > 0 then do
      let last ← r.raftLog.lastEntryID
      pure { m with index := last.index, logTerm := last.term }
    else
      pure m
  return if isEmptySnap snapshot then m else { m with snapshot := snapshot }

/-- The `MsgStorageAppendResp` that goes with a `Ready`, if there is one. -/
def storageAppendResp (r : Raft) (snapshot : Option Snapshot) : Result (List Message) := do
  if needStorageAppendRespMsg r snapshot then
    return [← newStorageAppendRespMsg r snapshot]
  else
    return []

/-- `needStorageAppendMsg`. -/
def needStorageAppendMsg (r : Raft) (rd : Ready) : Bool :=
  decide (rd.entries.length > 0) || !isEmptyHardState rd.hardState || !isEmptySnap rd.snapshot
    || decide (r.msgsAfterAppend.length > 0)

/-- `newStorageAppendMsg`. -/
def newStorageAppendMsg (r : Raft) (rd : Ready) : Result StorageMessage := do
  let m : Message := {
    type := .msgStorageAppend
    toId := localAppendThread
    fromId := r.id
    entries := rd.entries
    term := rd.hardState.term
    vote := rd.hardState.vote
    commit := rd.hardState.commit
    snapshot := if isEmptySnap rd.snapshot then none else rd.snapshot }
  return { message := m, responses := r.msgsAfterAppend ++ (← storageAppendResp r rd.snapshot) }

/-- `newStorageApplyRespMsg`. -/
def newStorageApplyRespMsg (r : Raft) (ents : List Entry) : Message where
  type := .msgStorageApplyResp
  toId := r.id
  fromId := localApplyThread
  entries := ents

/-- `newStorageApplyMsg`. -/
def newStorageApplyMsg (r : Raft) (ents : List Entry) : StorageMessage where
  message := { type := .msgStorageApply, toId := localApplyThread, fromId := r.id, entries := ents }
  responses := [newStorageApplyRespMsg r ents]

namespace RawNode

-----------------------------------------------------------------------------------------
-- Ready
-----------------------------------------------------------------------------------------

/-- `applyUnstableEntries`. -/
def applyUnstableEntries (rn : RawNode) : Bool := !rn.asyncStorageWrites

/-- The part of `readyWithoutAccept` that does not depend on the mode. -/
def collect [Codec] (rn : RawNode) : Result Ready := do
  let r := rn.raft
  let entries := r.raftLog.unstable.nextEntries
  let committedEntries ← r.raftLog.nextCommittedEnts rn.applyUnstableEntries
  return {
    softState := if r.softState = rn.prevSoftSt then none else some r.softState
    hardState := if r.hardState = rn.prevHardSt then {} else r.hardState
    readStates := r.readStates
    entries := entries
    snapshot := r.raftLog.unstable.nextSnapshot
    committedEntries := committedEntries
    messages := r.msgs
    storageAppend := none
    storageApply := none
    mustSync := mustSync r.hardState rn.prevHardSt entries.length }

/-- `readyWithoutAccept`. -/
def readyWithoutAccept [Codec] (rn : RawNode) : Result Ready := do
  let r := rn.raft
  let rd ← rn.collect
  if rn.asyncStorageWrites then
    let rd ← if needStorageAppendMsg r rd then do
        let m ← newStorageAppendMsg r rd
        pure { rd with storageAppend := some m }
      else
        pure rd
    return if rd.committedEntries.length > 0 then
        { rd with storageApply := some (newStorageApplyMsg r rd.committedEntries) }
      else
        rd
  else
    return { rd with
      messages := rd.messages ++ r.msgsAfterAppend.filter fun m => m.toId != r.id }

/-- `HasReady`. -/
def hasReady (rn : RawNode) : Bool :=
  let r := rn.raft
  r.softState != rn.prevSoftSt
    || (!isEmptyHardState r.hardState && r.hardState != rn.prevHardSt)
    || r.raftLog.hasNextUnstableSnapshot
    || (decide (r.msgs.length > 0) || decide (r.msgsAfterAppend.length > 0))
    || (r.raftLog.hasNextUnstableEnts || r.raftLog.hasNextCommittedEnts rn.applyUnstableEntries)
    || r.readStates.length != 0

/-- What `acceptReady` leaves for `Advance` to step. -/
def advanceSteps (rn : RawNode) (rd : Ready) : Result (List Message) := do
  let r := rn.raft
  if rn.stepsOnAdvance.length ≠ 0 then
    throw .twoReadys
  let own := r.msgsAfterAppend.filter fun m => m.toId == r.id
  let appended ← storageAppendResp r rd.snapshot
  let applied := if rd.committedEntries.length > 0 then
      [newStorageApplyRespMsg r rd.committedEntries]
    else
      []
  return own ++ appended ++ applied

/-- `acceptReady`. -/
def acceptReady [Codec] (rn : RawNode) (rd : Ready) : Result RawNode := do
  let steps ← if rn.asyncStorageWrites then pure rn.stepsOnAdvance else rn.advanceSteps rd
  let raftLog := rn.raft.raftLog.acceptUnstable
  let raftLog ← match rd.committedEntries.getLast? with
    | some e =>
        raftLog.acceptApplying e.index (entsSize rd.committedEntries) rn.applyUnstableEntries
    | none => pure raftLog
  return { rn with
    prevSoftSt := rd.softState.getD rn.prevSoftSt
    prevHardSt := if isEmptyHardState rd.hardState then rn.prevHardSt else rd.hardState
    stepsOnAdvance := steps
    raft := { rn.raft with
      readStates := []
      msgs := []
      msgsAfterAppend := []
      raftLog := raftLog } }

/-- `Ready`. -/
def ready [Codec] (rn : RawNode) : Result (RawNode × Ready) := do
  let rd ← rn.readyWithoutAccept
  let rn ← rn.acceptReady rd
  return (rn, rd)

-----------------------------------------------------------------------------------------
-- Driving the node
-----------------------------------------------------------------------------------------

/-- A call that hands a message to the state machine, whose error the caller sees. -/
def stepRaft [Codec] (rn : RawNode) (m : Message) : Result RawNode := do
  let (r, _) ← rn.raft.step m
  return { rn with raft := r }

/-- `Advance`. -/
def advance [Codec] (rn : RawNode) : Result RawNode := do
  if rn.asyncStorageWrites then
    throw .advanceInAsync
  let rn' ← rn.stepsOnAdvance.foldlM stepRaft rn
  return { rn' with stepsOnAdvance := [] }

/-- `Step`, which refuses local messages from the network and answers of unknown peers. -/
def step [Codec] (rn : RawNode) (m : Message) : Result (RawNode × Option StepError) := do
  if isLocalMsg m.type && !isLocalMsgTarget m.fromId then
    return (rn, some .errStepLocalMsg)
  if isResponseMsg m.type && !isLocalMsgTarget m.fromId
      && !rn.raft.trk.progress.contains m.fromId then
    return (rn, some .errStepPeerNotFound)
  let (r, err) ← rn.raft.step m
  return ({ rn with raft := r }, err)

def tick [Codec] (rn : RawNode) : Result RawNode := do
  return { rn with raft := ← rn.raft.tick }

def campaign [Codec] (rn : RawNode) : Result RawNode := rn.stepRaft { type := .msgHup }

def propose [Codec] (rn : RawNode) (data : List UInt8) : Result RawNode :=
  rn.stepRaft { type := .msgProp, fromId := rn.raft.id, entries := [{ data }] }

/-- `ProposeConfChange`, with the entry that `confChangeToMsg` makes of the change. -/
def proposeConfChange [Codec] (rn : RawNode) (type : EntryType) (data : List UInt8)
    : Result RawNode :=
  rn.stepRaft { type := .msgProp, entries := [{ type, data }] }

/-- `ApplyConfChange`. -/
def applyConfChange [Codec] (rn : RawNode) (cc : ConfChangeV2) : Result (RawNode × ConfState) := do
  let (r, cs) ← rn.raft.applyConfChange cc
  return ({ rn with raft := r }, cs)

def reportUnreachable [Codec] (rn : RawNode) (id : Nat) : Result RawNode :=
  rn.stepRaft { type := .msgUnreachable, fromId := id }

def reportSnapshot [Codec] (rn : RawNode) (id : Nat) (failure : Bool) : Result RawNode :=
  rn.stepRaft { type := .msgSnapStatus, fromId := id, reject := failure }

def transferLeader [Codec] (rn : RawNode) (transferee : Nat) : Result RawNode :=
  rn.stepRaft { type := .msgTransferLeader, fromId := transferee }

def forgetLeader [Codec] (rn : RawNode) : Result RawNode := rn.stepRaft { type := .msgForgetLeader }

/-- `ReadIndex`; `stamp` is the time of the call. -/
def readIndex [Codec] (rn : RawNode) (rctx : List UInt8) (stamp : Nat) : Result RawNode :=
  rn.stepRaft { type := .msgReadIndex, entries := [{ data := rctx }], stamp := stamp }

end RawNode

end EtcdRaft
