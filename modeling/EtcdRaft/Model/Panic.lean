import EtcdRaft.Model.Raftpb

/-! The ways the code stops. A panic ends the process; errors are ordinary results. -/

namespace EtcdRaft

/-- Errors of package `confchange`. -/
inductive ConfChangeError where
  | alreadyJoint
  | zeroVoterJoint
  | leaveNonJoint
  | simpleInJoint
  | moreThanOneVoterChanged
  | unexpectedConfType (type : ConfChangeType)
  | removedAllVoters
  | noProgress (id : Nat)
  | learnersNextNotOutgoing (id : Nat)
  | learnersNextIsLearner (id : Nat)
  | learnerInOutgoing (id : Nat)
  | learnerInIncoming (id : Nat)
  | learnerNotMarked (id : Nat)
  | outgoingNotNil
  | learnersNextNotNil
  | autoLeaveNotJoint
deriving DecidableEq

/-- Errors of the `Storage` interface. -/
inductive StorageError where
  | errCompacted
  | errSnapOutOfDate
  | errUnavailable
deriving DecidableEq

/-- Errors that `Step` returns. -/
inductive StepError where
  | errProposalDropped
  | errStepLocalMsg
  | errStepPeerNotFound
deriving DecidableEq

/-- The panics of the library, named after their messages. -/
inductive Panic where
  /-- "tocommit(%d) is out of range [lastIndex(%d)]" -/
  | commitOutOfRange (tocommit lastIndex : Nat)
  /-- "entry %d conflict with committed entry [committed(%d)]" -/
  | conflictWithCommitted (ci committed : Nat)
  /-- "index, %d, is out of range [%d]" -/
  | appendIndexOutOfRange (index len : Nat)
  /-- "after(%d) is out of range [committed(%d)]" -/
  | afterOutOfRange (after committed : Nat)
  /-- "applied(%d) is out of range [prevApplied(%d), committed(%d)]" -/
  | appliedOutOfRange (applied prevApplied committed : Nat)
  /-- "applying(%d) is out of range [prevApplying(%d), committed(%d)]" -/
  | applyingOutOfRange (applying prevApplying committed : Nat)
  /-- "applying entry size (%d-%d)=%d not positive" -/
  | applyingSizeNotPositive (max size : Nat)
  /-- "unexpected error when getting unapplied entries (%v)" -/
  | unappliedEntries (err : StorageError)
  /-- "unexpected error when getting the last term at %d: %v" -/
  | lastTerm (index : Nat) (err : StorageError)
  /-- "invalid slice %d > %d" -/
  | invalidSlice (lo hi : Nat)
  /-- "slice[%d,%d) out of bound [%d,%d]" -/
  | sliceOutOfBound (lo hi first last : Nat)
  /-- "entries[%d:%d) is unavailable from storage" -/
  | entriesUnavailable (lo hi : Nat)
  /-- "invalid unstable.slice %d > %d" -/
  | invalidUnstableSlice (lo hi : Nat)
  /-- "unstable.slice[%d,%d) out of bound [%d,%d]" -/
  | unstableSliceOutOfBound (lo hi offset upper : Nat)
  /-- "entries' hi(%d) is out of bound lastindex(%d)" -/
  | entriesHiOutOfBound (hi last : Nat)
  /-- "snapshot %d is out of bound lastindex(%d)" -/
  | snapshotOutOfBound (i last : Nat)
  /-- "compact %d is out of bound lastindex(%d)" -/
  | compactOutOfBound (i last : Nat)
  /-- "missing log entry [last: %d, append at: %d]" -/
  | missingLogEntry (last first : Nat)
  /-- "error scanning unapplied entries [%d, %d): %v" -/
  | scanError (lo hi : Nat)
  /-- "cannot add into a Full inflights" -/
  | inflightsFull
  /-- "sending append in unhandled state %s" -/
  | sendingInUnhandledState
  /-- "term should be set when sending %s" -/
  | termShouldBeSet (type : MessageType)
  /-- "term should not be set when sending %s (was %d)" -/
  | termShouldNotBeSet (type : MessageType) (term : Nat)
  /-- "message should not be self-addressed when sending %s" -/
  | selfAddressed (type : MessageType)
  /-- "need non-empty snapshot" -/
  | needNonEmptySnapshot
  /-- "invalid transition [leader -> candidate]" -/
  | invalidTransitionLeaderCandidate
  /-- "invalid transition [leader -> pre-candidate]" -/
  | invalidTransitionLeaderPreCandidate
  /-- "invalid transition [follower -> leader]" -/
  | invalidTransitionFollowerLeader
  /-- "empty entry was dropped" -/
  | emptyEntryDropped
  /-- "%x stepped empty MsgProp" -/
  | emptyProp
  /-- `panic(err)` after a failed `proto.Unmarshal` -/
  | unmarshal
  /-- "unable to restore config %+v: %s", and `panic(err)` after a failed change -/
  | confChange (err : ConfChangeError)
  /-- "unknown transition: %+v" -/
  | unknownTransition
  /-- `assertConfStatesEquivalent` -/
  | confStatesNotEquivalent
  /-- "%x state.commit %d is out of range [%d, %d]" -/
  | loadStateOutOfRange (commit committed last : Nat)
  /-- `Config.validate` -/
  | invalidConfig
  /-- "two accepted Ready structs without call to Advance" -/
  | twoReadys
  /-- "Advance must not be called when using AsyncStorageWrites" -/
  | advanceInAsync
  /-- A nil pointer is dereferenced or an index is out of a slice's range. -/
  | runtimeError
deriving DecidableEq

abbrev Result (α : Type) := Except Panic α

end EtcdRaft
