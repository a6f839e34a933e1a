import EtcdRaft.Model.Confchange
import Mathlib.Logic.Function.Basic

/-! The place of each node in a configuration. A configuration together with its progress
map is nothing but an assignment of places, and a single change moves one node.
-/

namespace EtcdRaft

-----------------------------------------------------------------------------------------
-- Places
-----------------------------------------------------------------------------------------

/-- What a node is in a configuration: no member, a voter of the incoming half, of the
outgoing half or of both, a voter of the outgoing half that is to become a learner, or a
learner.
-/
inductive Place where
  | absent
  | incoming
  | outgoing
  | both
  | demoted
  | learner
deriving DecidableEq

namespace Place

def isIncoming : Place → Bool
  | .incoming | .both => true
  | _ => false

def isOutgoing : Place → Bool
  | .outgoing | .both | .demoted => true
  | _ => false

def isLearner : Place → Bool
  | .learner => true
  | _ => false

def isNext : Place → Bool
  | .demoted => true
  | _ => false

/-- The learner flag of the progress, for the nodes that have one. -/
def flag : Place → Option Bool
  | .absent => none
  | .learner => some true
  | _ => some false

def makeVoter : Place → Place
  | .absent | .incoming | .learner => .incoming
  | .outgoing | .both | .demoted => .both

def makeLearner : Place → Place
  | .absent | .incoming | .learner => .learner
  | .outgoing | .both | .demoted => .demoted

def remove : Place → Place
  | .absent | .incoming | .learner => .absent
  | .outgoing | .both | .demoted => .outgoing

/-- The voters become the outgoing half as well. -/
def enter : Place → Place
  | .incoming => .both
  | place => place

/-- The outgoing half is given up. -/
def leave : Place → Place
  | .absent | .outgoing => .absent
  | .incoming | .both => .incoming
  | .demoted | .learner => .learner

/-- A node that is not part of an outgoing half. -/
def Settled (place : Place) : Prop := place.isOutgoing = false

instance (place : Place) : Decidable place.Settled := inferInstanceAs (Decidable (_ = _))

def change : ConfChangeType → Place → Place
  | .confChangeAddNode => makeVoter
  | .confChangeAddLearnerNode => makeLearner
  | .confChangeRemoveNode => remove
  | .confChangeUpdateNode => id
  | .unknown _ => id

/-- The outgoing half never changes by itself. -/
theorem isOutgoing_change (type : ConfChangeType) (place : Place)
    : (place.change type).isOutgoing = place.isOutgoing := by
  cases type <;> cases place <;> rfl

/-- A change before the outgoing half is given up is the same as one after it. -/
theorem leave_change (type : ConfChangeType) (place : Place)
    : (place.change type).leave = place.leave.change type := by
  cases type <;> cases place <;> rfl

/-- Learners do not vote. -/
theorem isIncoming_of_isLearner {place : Place} (learner : place.isLearner = true)
    : place.isIncoming = false := by
  cases place <;> first | rfl | cases learner

/-- A node that is to become a learner no longer votes in the incoming half. -/
theorem isIncoming_of_isNext {place : Place} (next : place.isNext = true)
    : place.isIncoming = false := by
  cases place <;> first | rfl | cases next

theorem isIncoming_leave (place : Place) : place.leave.isIncoming = place.isIncoming := by
  cases place <;> rfl

theorem settled_leave (place : Place) : place.leave.Settled := by
  cases place <;> rfl

theorem leave_enter {place : Place} (settled : place.Settled)
    : place.enter.leave = place := by
  cases place <;> first | rfl | cases settled

theorem isIncoming_enter (place : Place) : place.enter.isIncoming = place.isIncoming := by
  cases place <;> rfl

theorem isOutgoing_enter {place : Place} (settled : place.Settled)
    : place.enter.isOutgoing = place.isIncoming := by
  cases place <;> first | rfl | cases settled

end Place

/-- The places of all nodes. -/
abbrev Places := Nat → Place

namespace Places

/-- The places after a single change; a change of node zero is ignored. -/
def change (places : Places) (cc : ConfChangeSingle) : Places :=
  if cc.nodeId = 0 then places
  else Function.update places cc.nodeId ((places cc.nodeId).change cc.type)

def changes (places : Places) (ccs : List ConfChangeSingle) : Places := ccs.foldl change places

/-- A change of a type that the code knows, or of node zero. -/
def Known (cc : ConfChangeSingle) : Prop := cc.nodeId = 0 ∨ ∀ value, cc.type ≠ .unknown value

/-- Some node is a voter of the incoming half. -/
def Voted (places : Places) : Prop := ∃ id, (places id).isIncoming = true

/-- No node is part of an outgoing half. -/
def Settled (places : Places) : Prop := ∀ id, (places id).Settled

end Places

end EtcdRaft
