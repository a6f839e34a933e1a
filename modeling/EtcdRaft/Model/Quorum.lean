import EtcdRaft.Model.Raftpb

/-! Majority and joint quorums, package `quorum`. -/

namespace EtcdRaft

/-- `map[uint64]struct{}`. -/
abbrev IdSet := IdMap Unit

def IdSet.insertId (s : IdSet) (id : Nat) : IdSet := s.insert id ()

/-- A nil set has no members. -/
def IdSet.ofNil (s : Option IdSet) : IdSet := s.getD .empty

/-- A set of IDs that uses majority quorums to make decisions. -/
abbrev MajorityConfig := IdSet

inductive VoteResult where
  | votePending
  | voteLost
  | voteWon
deriving DecidableEq

/-- `AckedIndexer`: the index a voter has acknowledged, if any. -/
abbrev AckedIndexer := Nat → Option Nat

/-- `Slice`, the members in increasing order. -/
def MajorityConfig.slice (c : MajorityConfig) : List Nat := c.keys

/-- `CommittedIndex` of a majority configuration. Unacknowledged slots count as zero; the
configuration without voters answers the largest index.
-/
def MajorityConfig.committedIndex (c : MajorityConfig) (l : AckedIndexer) : Nat :=
  let n := c.size
  if n = 0 then
    maxUint64
  else
    let acked := c.keys.filterMap l
    let srt := (List.replicate (n - acked.length) 0 ++ acked.reverse).insertionSort (· ≤ ·)
    srt.getD (n - (n / 2 + 1)) 0

/-- `VoteResult` of a majority configuration; the configuration without voters wins. -/
def MajorityConfig.voteResult (c : MajorityConfig) (votes : IdMap Bool) : VoteResult :=
  if c.size = 0 then
    .voteWon
  else
    let votedCnt := c.keys.countP (fun id => votes.get? id == some true)
    let missing := c.keys.countP (fun id => votes.get? id == none)
    let q := c.size / 2 + 1
    if votedCnt ≥ q then
      .voteWon
    else if votedCnt + missing ≥ q then
      .votePending
    else
      .voteLost

/-- Two groups of majority configurations; decisions require the support of both. The
second one is nil (`none`) when unused.
-/
structure JointConfig where
  incoming : MajorityConfig := .empty
  outgoing : Option MajorityConfig := none
deriving DecidableEq

/-- `len(voters[1])`, the lookups in it and so on, which do not see whether it is nil. -/
def JointConfig.outgoingSet (c : JointConfig) : MajorityConfig := .ofNil c.outgoing

/-- `IDs`, the set of voters in either half. -/
def JointConfig.ids (c : JointConfig) : IdSet :=
  c.outgoingSet.keys.foldl IdSet.insertId c.incoming

/-- `CommittedIndex` of a joint configuration, committed in both halves. -/
def JointConfig.committedIndex (c : JointConfig) (l : AckedIndexer) : Nat :=
  let idx0 := c.incoming.committedIndex l
  let idx1 := c.outgoingSet.committedIndex l
  if idx0 < idx1 then idx0 else idx1

/-- `VoteResult` of a joint configuration. -/
def JointConfig.voteResult (c : JointConfig) (votes : IdMap Bool) : VoteResult :=
  let r1 := c.incoming.voteResult votes
  let r2 := c.outgoingSet.voteResult votes
  if r1 = r2 then
    r1
  else if r1 = .voteLost ∨ r2 = .voteLost then
    .voteLost
  else
    .votePending

end EtcdRaft
