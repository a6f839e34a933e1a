import EtcdRaft.Model.Tracker

/-! Package `confchange`: configuration changes applied to a tracker. -/

namespace EtcdRaft

abbrev ChangeResult := Except ConfChangeError (TrackerConfig × ProgressMap)

/-- `Changer`. -/
structure Changer where
  tracker : ProgressTracker
  lastIndex : Nat

/-- `joint`. -/
def TrackerConfig.joint (cfg : TrackerConfig) : Bool := decide (cfg.voters.outgoingSet.size > 0)

/-- `nilAwareAdd`. -/
def nilAwareAdd (m : Option IdSet) (id : Nat) : Option IdSet := some ((IdSet.ofNil m).insertId id)

/-- `nilAwareDelete`; a set that becomes empty becomes nil. -/
def nilAwareDelete : Option IdSet → Nat → Option IdSet
  | none, _ => none
  | some m, id =>
      let m := m.erase id
      if m.size = 0 then none else some m

/-- `symdiff`, the number of members of exactly one of the two sets. -/
def symdiff (l r : IdSet) : Nat :=
  l.keys.countP (fun id => !r.contains id) + r.keys.countP (fun id => !l.contains id)

-----------------------------------------------------------------------------------------
-- Invariants of a configuration
-----------------------------------------------------------------------------------------

/-- The first member of a list that fails a check, as an error. -/
def checkIds (ids : List Nat) (check : Nat → Except ConfChangeError Unit)
    : Except ConfChangeError Unit :=
  ids.forM check

/-- `checkInvariants`. The loops visit the sets in increasing order, where the order of a
Go map is not fixed; which error is reported first is all that depends on it.
-/
def checkInvariants (cfg : TrackerConfig) (trk : ProgressMap) : Except ConfChangeError Unit := do
  for ids in [cfg.voters.ids, cfg.learnerSet, cfg.learnerNextSet] do
    checkIds ids.keys fun id =>
      if trk.contains id then pure () else throw (.noProgress id)
  checkIds cfg.learnerNextSet.keys fun id => do
    if !cfg.voters.outgoingSet.contains id then
      throw (.learnersNextNotOutgoing id)
    if (trk.get? id).any Progress.isLearner then
      throw (.learnersNextIsLearner id)
  checkIds cfg.learnerSet.keys fun id => do
    if cfg.voters.outgoingSet.contains id then
      throw (.learnerInOutgoing id)
    if cfg.voters.incoming.contains id then
      throw (.learnerInIncoming id)
    if !(trk.get? id).any Progress.isLearner then
      throw (.learnerNotMarked id)
  if !cfg.joint then
    if cfg.voters.outgoing.isSome then
      throw .outgoingNotNil
    if cfg.learnersNext.isSome then
      throw .learnersNextNotNil
    if cfg.autoLeave then
      throw .autoLeaveNotJoint

def checkAndReturn (cfg : TrackerConfig) (trk : ProgressMap) : ChangeResult := do
  checkInvariants cfg trk
  return (cfg, trk)

namespace Changer

def checkAndCopy (c : Changer) : ChangeResult :=
  checkAndReturn c.tracker.config.clone c.tracker.progress

-----------------------------------------------------------------------------------------
-- Single changes
-----------------------------------------------------------------------------------------

def initProgress (c : Changer) (cfg : TrackerConfig) (trk : ProgressMap) (id : Nat)
    (isLearner : Bool)
    : TrackerConfig × ProgressMap :=
  let cfg := if isLearner then
      { cfg with learners := nilAwareAdd cfg.learners id }
    else
      { cfg with voters.incoming := cfg.voters.incoming.insertId id }
  let pr : Progress := {
    «match» := 0
    next := max c.lastIndex 1
    inflights := newInflights c.tracker.maxInflight c.tracker.maxInflightBytes
    isLearner := isLearner
    recentActive := true }
  (cfg, trk.insert id pr)

def makeVoter (c : Changer) (cfg : TrackerConfig) (trk : ProgressMap) (id : Nat)
    : TrackerConfig × ProgressMap :=
  match trk.get? id with
  | none => c.initProgress cfg trk id false
  | some pr =>
      ({ cfg with
        learners := nilAwareDelete cfg.learners id
        learnersNext := nilAwareDelete cfg.learnersNext id
        voters.incoming := cfg.voters.incoming.insertId id },
        trk.insert id { pr with isLearner := false })

def remove (cfg : TrackerConfig) (trk : ProgressMap) (id : Nat)
    : TrackerConfig × ProgressMap :=
  if !trk.contains id then
    (cfg, trk)
  else
    let cfg := { cfg with
      voters.incoming := cfg.voters.incoming.erase id
      learners := nilAwareDelete cfg.learners id
      learnersNext := nilAwareDelete cfg.learnersNext id }
    -- a peer that is still a voter in the outgoing half keeps its progress
    (cfg, if cfg.voters.outgoingSet.contains id then trk else trk.erase id)

/-- `makeLearner`. A voter of the outgoing half is demoted when the joint configuration is
left.
-/
def makeLearner (c : Changer) (cfg : TrackerConfig) (trk : ProgressMap) (id : Nat)
    : TrackerConfig × ProgressMap :=
  match trk.get? id with
  | none => c.initProgress cfg trk id true
  | some pr =>
      if pr.isLearner then
        (cfg, trk)
      else
        let (cfg, trk) := remove cfg trk id
        if cfg.voters.outgoingSet.contains id then
          ({ cfg with learnersNext := nilAwareAdd cfg.learnersNext id }, trk.insert id pr)
        else
          ({ cfg with learners := nilAwareAdd cfg.learners id },
            trk.insert id { pr with isLearner := true })

/-- One iteration of the loop of `apply`. -/
def applySingle (c : Changer) (cfg : TrackerConfig) (trk : ProgressMap) (cc : ConfChangeSingle)
    : ChangeResult :=
  if cc.nodeId = 0 then
    return (cfg, trk)
  else
    match cc.type with
    | .confChangeAddNode => return c.makeVoter cfg trk cc.nodeId
    | .confChangeAddLearnerNode => return c.makeLearner cfg trk cc.nodeId
    | .confChangeRemoveNode => return remove cfg trk cc.nodeId
    | .confChangeUpdateNode => return (cfg, trk)
    | .unknown value => throw (.unexpectedConfType (.unknown value))

def apply (c : Changer) (cfg : TrackerConfig) (trk : ProgressMap) (ccs : List ConfChangeSingle)
    : ChangeResult := do
  let (cfg, trk) ← ccs.foldlM (fun s cc => c.applySingle s.1 s.2 cc) (cfg, trk)
  if cfg.voters.incoming.size = 0 then
    throw .removedAllVoters
  return (cfg, trk)

-----------------------------------------------------------------------------------------
-- Whole changes
-----------------------------------------------------------------------------------------

/-- `EnterJoint`. -/
def enterJoint (c : Changer) (autoLeave : Bool) (ccs : List ConfChangeSingle)
    : ChangeResult := do
  let (cfg, trk) ← c.checkAndCopy
  if cfg.joint then
    throw .alreadyJoint
  if cfg.voters.incoming.size = 0 then
    throw .zeroVoterJoint
  let cfg := { cfg with voters.outgoing := some cfg.voters.incoming }
  let (cfg, trk) ← c.apply cfg trk ccs
  checkAndReturn { cfg with autoLeave := autoLeave } trk

/-- `LeaveJoint`. -/
def leaveJoint (c : Changer) : ChangeResult := do
  let (cfg, trk) ← c.checkAndCopy
  if !cfg.joint then
    throw .leaveNonJoint
  let next := cfg.learnerNextSet.keys
  let trk := trk.mapValues fun id pr =>
    if next.contains id then { pr with isLearner := true } else pr
  let cfg := { cfg with
    learners := next.foldl nilAwareAdd cfg.learners
    learnersNext := none }
  let gone := cfg.voters.outgoingSet.keys.filter fun id =>
    !cfg.voters.incoming.contains id && !cfg.learnerSet.contains id
  let trk := gone.foldl IdMap.erase trk
  checkAndReturn { cfg with voters.outgoing := none, autoLeave := false } trk

/-- `Simple`. -/
def simple (c : Changer) (ccs : List ConfChangeSingle) : ChangeResult := do
  let (cfg, trk) ← c.checkAndCopy
  if cfg.joint then
    throw .simpleInJoint
  let (cfg, trk) ← c.apply cfg trk ccs
  if symdiff c.tracker.config.voters.incoming cfg.voters.incoming > 1 then
    throw .moreThanOneVoterChanged
  checkAndReturn cfg trk

end Changer

-----------------------------------------------------------------------------------------
-- Restoring a configuration
-----------------------------------------------------------------------------------------

/-- `toConfChangeSingle`: the changes that build the outgoing half, then those that turn
it into the incoming one.
-/
def toConfChangeSingle (cs : ConfState) : List ConfChangeSingle × List ConfChangeSingle :=
  let change (type : ConfChangeType) (id : Nat) : ConfChangeSingle := { type, nodeId := id }
  (cs.votersOutgoing.map (change .confChangeAddNode),
    cs.votersOutgoing.map (change .confChangeRemoveNode)
      ++ cs.voters.map (change .confChangeAddNode)
      ++ cs.learners.map (change .confChangeAddLearnerNode)
      ++ cs.learnersNext.map (change .confChangeAddLearnerNode))

/-- `chain` runs the operations one after the other on the changer. -/
def chain (chg : Changer) (ops : List (Changer → ChangeResult)) : Except ConfChangeError Changer :=
  ops.foldlM (fun chg op => do
    let (cfg, trk) ← op chg
    return { chg with tracker := { chg.tracker with config := cfg, progress := trk } }) chg

/-- `Restore` builds the configuration a `ConfState` describes, from an empty one. -/
def restoreConf (chg : Changer) (cs : ConfState) : ChangeResult := do
  let (outgoing, incoming) := toConfChangeSingle cs
  let simples (ccs : List ConfChangeSingle) : List (Changer → ChangeResult) :=
    ccs.map fun cc chg => chg.simple [cc]
  let chg ← if outgoing.length = 0 then
      chain chg (simples incoming)
    else
      chain chg (simples outgoing ++ [fun chg => chg.enterJoint cs.autoLeave incoming])
  return (chg.tracker.config, chg.tracker.progress)

/-- `Equivalent`: the same configuration up to the order of the lists. -/
def ConfState.equivalent (cs cs2 : ConfState) : Bool :=
  let sort (l : List Nat) := l.insertionSort (· ≤ ·)
  sort cs.voters == sort cs2.voters
    && sort cs.learners == sort cs2.learners
    && sort cs.votersOutgoing == sort cs2.votersOutgoing
    && sort cs.learnersNext == sort cs2.learnersNext
    && cs.autoLeave == cs2.autoLeave

end EtcdRaft
