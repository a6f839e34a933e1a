import EtcdRaft.Model.Quorum
import EtcdRaft.Model.Panic

/-! Package `tracker`: what the leader knows about each peer. -/

namespace EtcdRaft

-----------------------------------------------------------------------------------------
-- Inflights
-----------------------------------------------------------------------------------------

structure Inflight where
  index : Nat := 0
  bytes : Nat := 0
deriving DecidableEq

/-- `Inflights`, a sliding window of in-flight messages in a ring buffer that grows up to
`size` slots.
-/
structure Inflights where
  start : Nat := 0
  count : Nat := 0
  bytes : Nat := 0
  size : Nat
  maxBytes : Nat
  buffer : List Inflight := []
deriving DecidableEq

def newInflights (size maxBytes : Nat) : Inflights := { size, maxBytes }

namespace Inflights

/-- `Clone`, with a buffer of its own. -/
def clone (s : Inflights) : Inflights := { s with buffer := [] ++ s.buffer }

def full (s : Inflights) : Bool :=
  s.count == s.size || (s.maxBytes != 0 && decide (s.bytes ≥ s.maxBytes))

/-- The buffer doubles, without exceeding `size`. -/
def grow (s : Inflights) : Inflights :=
  let doubled := s.buffer.length * 2
  let newSize := if doubled = 0 then 1 else if doubled > s.size then s.size else doubled
  { s with
    buffer := s.buffer.take newSize ++ List.replicate (newSize - s.buffer.length) {} }

def add (s : Inflights) (index bytes : Nat) : Result Inflights := do
  if s.full then
    throw .inflightsFull
  let next := if s.start + s.count ≥ s.size then s.start + s.count - s.size
    else s.start + s.count
  let s := if next ≥ s.buffer.length then s.grow else s
  if next < s.buffer.length then
    return { s with
      buffer := s.buffer.set next { index, bytes }
      count := s.count + 1
      bytes := s.bytes + bytes }
  else
    throw .runtimeError

/-- The loop of `FreeLE` with `left` messages still to look at. It answers the position of
the first message that stays, the number of messages freed and their bytes.
-/
def freeLELoop (s : Inflights) (index : Nat)
    : (left idx i bytes : Nat) → Result (Nat × Nat × Nat)
  | 0, idx, i, bytes => return (idx, i, bytes)
  | left + 1, idx, i, bytes =>
      match s.buffer[idx]? with
      | none => throw .runtimeError
      | some slot =>
          if index < slot.index then
            return (idx, i, bytes)
          else
            let next := if idx + 1 ≥ s.size then idx + 1 - s.size else idx + 1
            s.freeLELoop index left next (i + 1) (bytes + slot.bytes)

/-- `FreeLE` frees the messages up to the given index. -/
def freeLE (s : Inflights) (index : Nat) : Result Inflights := do
  if s.count = 0 then
    return s
  match s.buffer[s.start]? with
  | none => throw .runtimeError
  | some first =>
      if index < first.index then
        return s
      let (idx, i, bytes) ← s.freeLELoop index s.count s.start 0 0
      let count := s.count - i
      return { s with
        count := count
        bytes := sub64 s.bytes bytes
        start := if count = 0 then 0 else idx }

def reset (s : Inflights) : Inflights := { s with start := 0, count := 0, bytes := 0 }

end Inflights

-----------------------------------------------------------------------------------------
-- Progress
-----------------------------------------------------------------------------------------

/-- `tracker.StateType`. -/
inductive ProgressState where
  | stateProbe
  | stateReplicate
  | stateSnapshot
deriving DecidableEq

/-- `Progress`. The code keeps `match < next`, so the `next - 1` below never wraps. -/
structure Progress where
  «match» : Nat := 0
  next : Nat
  sentCommit : Nat := 0
  state : ProgressState := .stateProbe
  pendingSnapshot : Nat := 0
  recentActive : Bool := false
  msgAppFlowPaused : Bool := false
  inflights : Inflights
  isLearner : Bool := false
deriving DecidableEq

namespace Progress

def resetState (pr : Progress) (state : ProgressState) : Progress :=
  { pr with
    msgAppFlowPaused := false
    pendingSnapshot := 0
    state := state
    inflights := pr.inflights.reset }

/-- `BecomeProbe`; after a snapshot the peer is probed from the snapshot's index. -/
def becomeProbe (pr : Progress) : Progress :=
  let next := if pr.state = .stateSnapshot then
      max (pr.match + 1) (pr.pendingSnapshot + 1)
    else
      pr.match + 1
  { pr.resetState .stateProbe with
    next := next
    sentCommit := min pr.sentCommit (next - 1) }

def becomeReplicate (pr : Progress) : Progress :=
  { pr.resetState .stateReplicate with next := pr.match + 1 }

def becomeSnapshot (pr : Progress) (snapshoti : Nat) : Progress :=
  { pr.resetState .stateSnapshot with
    pendingSnapshot := snapshoti
    next := snapshoti + 1
    sentCommit := snapshoti }

/-- `SentEntries` updates the flow control after an append with that many entries. -/
def sentEntries (pr : Progress) (entries bytes : Nat) : Result Progress := do
  match pr.state with
  | .stateReplicate =>
      if entries > 0 then
        let next := pr.next + entries
        let inflights ← pr.inflights.add (next - 1) bytes
        return { pr with
          next := next
          inflights := inflights
          msgAppFlowPaused := inflights.full }
      else
        return { pr with msgAppFlowPaused := pr.inflights.full }
  | .stateProbe =>
      return if entries > 0 then { pr with msgAppFlowPaused := true } else pr
  | .stateSnapshot => throw .sendingInUnhandledState

def canBumpCommit (pr : Progress) (index : Nat) : Bool :=
  decide (index > pr.sentCommit) && decide (pr.sentCommit < pr.next - 1)

def setSentCommit (pr : Progress) (commit : Nat) : Progress := { pr with sentCommit := commit }

/-- `MaybeUpdate`; the answer tells whether the acknowledged index is news. -/
def maybeUpdate (pr : Progress) (n : Nat) : Progress × Bool :=
  if n ≤ pr.match then
    (pr, false)
  else
    ({ pr with
      «match» := n
      next := max pr.next (n + 1)
      msgAppFlowPaused := false }, true)

/-- `MaybeDecrTo` handles a rejected append; the answer is false for a stale rejection. -/
def maybeDecrTo (pr : Progress) (rejected matchHint : Nat) : Progress × Bool :=
  if pr.state = .stateReplicate then
    if rejected ≤ pr.match then
      (pr, false)
    else
      ({ pr with
        next := pr.match + 1
        sentCommit := min pr.sentCommit (pr.match + 1 - 1) }, true)
  else if pr.next - 1 ≠ rejected then
    (pr, false)
  else
    -- a hint can be any number
    let next := max (min rejected (add64 matchHint 1)) (pr.match + 1)
    ({ pr with
      next := next
      sentCommit := min pr.sentCommit (next - 1)
      msgAppFlowPaused := false }, true)

def isPaused (pr : Progress) : Bool :=
  match pr.state with
  | .stateProbe => pr.msgAppFlowPaused
  | .stateReplicate => pr.msgAppFlowPaused
  | .stateSnapshot => true

end Progress

-----------------------------------------------------------------------------------------
-- The tracker
-----------------------------------------------------------------------------------------

/-- `tracker.Config`. A nil set of learners is `none`. -/
structure TrackerConfig where
  voters : JointConfig := {}
  autoLeave : Bool := false
  learners : Option IdSet := none
  learnersNext : Option IdSet := none
deriving DecidableEq

abbrev ProgressMap := IdMap Progress

structure ProgressTracker where
  config : TrackerConfig := {}
  progress : ProgressMap := .empty
  votes : IdMap Bool := .empty
  maxInflight : Nat
  maxInflightBytes : Nat
deriving DecidableEq

def makeProgressTracker (maxInflight maxBytes : Nat) : ProgressTracker where
  maxInflight := maxInflight
  maxInflightBytes := maxBytes

def TrackerConfig.learnerSet (c : TrackerConfig) : IdSet := .ofNil c.learners

def TrackerConfig.learnerNextSet (c : TrackerConfig) : IdSet := .ofNil c.learnersNext

/-- The `ConfState` that describes a configuration. -/
def TrackerConfig.confState (c : TrackerConfig) : ConfState where
  voters := c.voters.incoming.slice
  votersOutgoing := c.voters.outgoingSet.slice
  learners := MajorityConfig.slice c.learnerSet
  learnersNext := MajorityConfig.slice c.learnerNextSet
  autoLeave := c.autoLeave

/-- `Clone` copies the configuration, except for `AutoLeave`. -/
def TrackerConfig.clone (c : TrackerConfig) : TrackerConfig := { c with autoLeave := false }

namespace ProgressTracker

def confState (p : ProgressTracker) : ConfState := p.config.confState

def isSingleton (p : ProgressTracker) : Bool :=
  p.config.voters.incoming.size == 1 && p.config.voters.outgoingSet.size == 0

/-- `matchAckIndexer`. -/
def ackedIndex (p : ProgressTracker) : AckedIndexer := fun id =>
  (p.progress.get? id).map Progress.match

def committed (p : ProgressTracker) : Nat := p.config.voters.committedIndex p.ackedIndex

/-- `QuorumActive` counts the recently active voters as votes. -/
def quorumActive (p : ProgressTracker) : Bool :=
  let votes := p.progress.entries.foldl
    (fun votes e => if e.2.isLearner then votes else IdMap.insert votes e.1 e.2.recentActive)
    (IdMap.empty : IdMap Bool)
  p.config.voters.voteResult votes == .voteWon

def resetVotes (p : ProgressTracker) : ProgressTracker := { p with votes := .empty }

/-- `RecordVote`; the first answer of a node counts. -/
def recordVote (p : ProgressTracker) (id : Nat) (v : Bool) : ProgressTracker :=
  if p.votes.contains id then p else { p with votes := p.votes.insert id v }

/-- The outcome that `TallyVotes` reports. -/
def tallyVotes (p : ProgressTracker) : VoteResult := p.config.voters.voteResult p.votes

end ProgressTracker

end EtcdRaft
