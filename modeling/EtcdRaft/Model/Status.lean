import EtcdRaft.Model.RawNode

/-! `Status`, what a node reports about itself. -/

namespace EtcdRaft

structure BasicStatus where
  id : Nat
  hardState : HardState
  softState : SoftState
  applied : Nat
  leadTransferee : Nat
deriving DecidableEq

/-- `Status`. Only a leader reports the progress of its peers, elsewhere the map is nil.
-/
structure Status extends BasicStatus where
  config : TrackerConfig
  progress : ProgressMap
deriving DecidableEq

/-- `getProgressCopy`, whose copies have flow control windows of their own. -/
def getProgressCopy (r : Raft) : ProgressMap :=
  r.trk.progress.mapValues fun _ pr => { pr with inflights := pr.inflights.clone }

def getBasicStatus (r : Raft) : BasicStatus where
  id := r.id
  hardState := r.hardState
  softState := r.softState
  applied := r.raftLog.applied
  leadTransferee := r.leadTransferee

def getStatus (r : Raft) : Status :=
  { getBasicStatus r with
    config := r.trk.config.clone
    progress := if r.state = .stateLeader then getProgressCopy r else .empty }

/-- `Status()` of a `RawNode`. -/
def RawNode.status (rn : RawNode) : Status := getStatus rn.raft

end EtcdRaft
