import EtcdRaft.Foundation.IdMap
import EtcdRaft.Foundation.WireFormat
import Mathlib.Algebra.Ring.Nat

/-! The protocol buffer types of `raftpb`. Every optional field carries the value its
generated getter answers when the field is unset.
-/

namespace EtcdRaft

/-- `None`, the placeholder node ID used when there is no leader. -/
def none64 : Nat := 0

def maxUint64 : Nat := 2 ^ 64 - 1

/-- `LocalAppendThread`. -/
def localAppendThread : Nat := maxUint64

/-- `LocalApplyThread`. -/
def localApplyThread : Nat := maxUint64 - 1

/-- `noLimit`. -/
def noLimit : Nat := maxUint64

/-- Subtraction of `uint64` values, which wraps around. -/
def sub64 (a b : Nat) : Nat :=
  if b ≤ a then a - b else 2 ^ 64 + a - b

/-- Addition of `uint64` values, which wraps around. -/
def add64 (a b : Nat) : Nat := (a + b) % 2 ^ 64

-----------------------------------------------------------------------------------------
-- Entries and snapshots
-----------------------------------------------------------------------------------------

inductive EntryType where
  | entryNormal
  | entryConfChange
  | entryConfChangeV2
deriving DecidableEq

structure Entry where
  term : Nat := 0
  index : Nat := 0
  type : EntryType := .entryNormal
  data : List UInt8 := []
deriving DecidableEq, Inhabited

/-- An entry that carries a configuration change, of either version. -/
def Entry.isConfChange (e : Entry) : Bool :=
  e.type == .entryConfChange || e.type == .entryConfChangeV2

structure ConfState where
  voters : List Nat := []
  learners : List Nat := []
  votersOutgoing : List Nat := []
  learnersNext : List Nat := []
  autoLeave : Bool := false
deriving DecidableEq, Inhabited

structure SnapshotMetadata where
  confState : ConfState := {}
  index : Nat := 0
  term : Nat := 0
deriving DecidableEq, Inhabited

/-- A snapshot of the application's state. The library never looks into `data`; here it is
the most general state a replicated state machine can have, the sequence of the entries it
has applied.
-/
structure Snapshot where
  data : List Entry := []
  metadata : SnapshotMetadata := {}
deriving DecidableEq, Inhabited

structure HardState where
  term : Nat := 0
  vote : Nat := 0
  commit : Nat := 0
deriving DecidableEq, Inhabited

-----------------------------------------------------------------------------------------
-- Messages
-----------------------------------------------------------------------------------------

inductive MessageType where
  | msgHup
  | msgBeat
  | msgProp
  | msgApp
  | msgAppResp
  | msgVote
  | msgVoteResp
  | msgSnap
  | msgHeartbeat
  | msgHeartbeatResp
  | msgUnreachable
  | msgSnapStatus
  | msgCheckQuorum
  | msgTransferLeader
  | msgTimeoutNow
  | msgReadIndex
  | msgReadIndexResp
  | msgPreVote
  | msgPreVoteResp
  | msgStorageAppend
  | msgStorageAppendResp
  | msgStorageApply
  | msgStorageApplyResp
  | msgForgetLeader
deriving DecidableEq

/-- The log one gets by performing every truncation, append and restore at once: the
entries after the position `(base, baseTerm)`.
-/
structure LogicalLog where
  base : Nat := 0
  baseTerm : Nat := 0
  entries : List Entry := []
deriving DecidableEq

/-- A message, without the `responses` of the two storage requests (see `StorageMessage`).
`stamp` and `origin` are no fields of the protocol but history variables that no function
reads: the delivery of a `MsgReadIndex` sets `stamp` to the time of delivery, and `origin`
is the log of the sender of an answer that waits for a write.
-/
structure Message where
  type : MessageType
  toId : Nat := 0
  fromId : Nat := 0
  term : Nat := 0
  logTerm : Nat := 0
  index : Nat := 0
  entries : List Entry := []
  commit : Nat := 0
  vote : Nat := 0
  snapshot : Option Snapshot := none
  reject : Bool := false
  rejectHint : Nat := 0
  context : List UInt8 := []
  stamp : Nat := 0
  origin : LogicalLog := {}
deriving DecidableEq

/-- A `MsgStorageAppend` or `MsgStorageApply`, the two messages that carry `responses`. -/
structure StorageMessage where
  message : Message
  responses : List Message
deriving DecidableEq

-----------------------------------------------------------------------------------------
-- Configuration changes
-----------------------------------------------------------------------------------------

inductive ConfChangeType where
  | confChangeAddNode
  | confChangeRemoveNode
  | confChangeUpdateNode
  | confChangeAddLearnerNode
  | unknown (value : Nat)
deriving DecidableEq

inductive ConfChangeTransition where
  | confChangeTransitionAuto
  | confChangeTransitionJointImplicit
  | confChangeTransitionJointExplicit
  | unknown (value : Nat)
deriving DecidableEq

structure ConfChangeSingle where
  type : ConfChangeType := .confChangeAddNode
  nodeId : Nat := 0
deriving DecidableEq

structure ConfChange where
  type : ConfChangeType := .confChangeAddNode
  nodeId : Nat := 0
  context : List UInt8 := []
deriving DecidableEq

structure ConfChangeV2 where
  transition : ConfChangeTransition := .confChangeTransitionAuto
  changes : List ConfChangeSingle := []
  context : List UInt8 := []
deriving DecidableEq

/-- `AsV2` of the legacy `ConfChange`. -/
def ConfChange.asV2 (c : ConfChange) : ConfChangeV2 where
  changes := [{ type := c.type, nodeId := c.nodeId }]
  context := c.context

/-- `EnterJoint` of a `ConfChangeV2`. Outside the error case the answer is
`some autoLeave` if the change uses joint consensus and `none` if it does not; an unknown
transition panics.
-/
def ConfChangeV2.enterJoint (c : ConfChangeV2) : Except Unit (Option Bool) :=
  if c.transition ≠ .confChangeTransitionAuto ∨ c.changes.length > 1 then
    match c.transition with
    | .confChangeTransitionAuto => .ok (some true)
    | .confChangeTransitionJointImplicit => .ok (some true)
    | .confChangeTransitionJointExplicit => .ok (some false)
    | .unknown _ => .error ()
  else
    .ok none

/-- `LeaveJoint` of a `ConfChangeV2`. -/
def ConfChangeV2.leaveJoint (c : ConfChangeV2) : Bool :=
  c.transition == .confChangeTransitionAuto && c.changes.length == 0

-----------------------------------------------------------------------------------------
-- The protocol buffer runtime
-----------------------------------------------------------------------------------------

/-- What the code uses of the protocol buffer runtime: the encoded size of an entry and
the decoding of the two configuration changes, `none` standing for a decoding error.
-/
class Codec where
  size : Entry → Nat
  unmarshalConfChange : List UInt8 → Option ConfChange
  unmarshalConfChangeV2 : List UInt8 → Option ConfChangeV2

/-- The encoded size of an entry with a term and an index. A normal entry has no type and
an empty one no data.
-/
def Entry.wireSize (e : Entry) : Nat :=
  (1 + WireFormat.sizeVarint e.term) + (1 + WireFormat.sizeVarint e.index)
    + (if e.type = .entryNormal then 0 else 2)
    + if e.data.isEmpty then 0 else 1 + WireFormat.sizeVarint e.data.length + e.data.length

def ConfChangeType.ofWire : Nat → ConfChangeType
  | 0 => .confChangeAddNode
  | 1 => .confChangeRemoveNode
  | 2 => .confChangeUpdateNode
  | 3 => .confChangeAddLearnerNode
  | v => .unknown v

def ConfChangeTransition.ofWire : Nat → ConfChangeTransition
  | 0 => .confChangeTransitionAuto
  | 1 => .confChangeTransitionJointImplicit
  | 2 => .confChangeTransitionJointExplicit
  | v => .unknown v

/-- The change after one more field has been read. Unknown fields are skipped. -/
def ConfChangeSingle.readField (c : ConfChangeSingle) : Nat × WireFormat.Value → ConfChangeSingle
  | (1, .varint v) => { c with type := .ofWire v }
  | (2, .varint v) => { c with nodeId := v }
  | _ => c

def ConfChange.readField (c : ConfChange) : Nat × WireFormat.Value → ConfChange
  | (2, .varint v) => { c with type := .ofWire v }
  | (3, .varint v) => { c with nodeId := v }
  | (4, .bytes b) => { c with context := b }
  | _ => c

def ConfChangeV2.readField (c : ConfChangeV2) : Nat × WireFormat.Value → Option ConfChangeV2
  | (1, .varint v) => some { c with transition := .ofWire v }
  | (2, .bytes b) => do
      let fields ← WireFormat.fields b
      return { c with changes := c.changes ++ [fields.foldl ConfChangeSingle.readField {}] }
  | (3, .bytes b) => some { c with context := b }
  | _ => some c

/-- The codec of the wire format, for concrete runs. -/
@[reducible] def Codec.wire : Codec where
  size := Entry.wireSize
  unmarshalConfChange data := do
    let fields ← WireFormat.fields data
    return fields.foldl ConfChange.readField {}
  unmarshalConfChangeV2 data := do
    let fields ← WireFormat.fields data
    fields.foldlM ConfChangeV2.readField {}

/-- The total encoded size of the entries, `entsSize`. -/
def entsSize [Codec] (ents : List Entry) : Nat :=
  (ents.map Codec.size).sum

/-- The loop of `limitSize` over the entries after the first; `size` is the running sum.
-/
def limitSizeRest [Codec] (maxSize size : Nat) : List Entry → List Entry
  | [] => []
  | e :: rest =>
      if size + Codec.size e > maxSize then
        []
      else
        e :: limitSizeRest maxSize (size + Codec.size e) rest

/-- The longest nonempty head of the entries whose size stays within `maxSize`; the first
entry is always kept.
-/
def limitSize [Codec] (ents : List Entry) (maxSize : Nat) : List Entry :=
  match ents with
  | [] => []
  | e :: rest => e :: limitSizeRest maxSize (Codec.size e) rest

/-- `payloadSize`. -/
def payloadSize (e : Entry) : Nat := e.data.length

/-- `payloadsSize`. -/
def payloadsSize (ents : List Entry) : Nat := (ents.map payloadSize).sum

-----------------------------------------------------------------------------------------
-- Message classes
-----------------------------------------------------------------------------------------

/-- `IsLocalMsg`. -/
def isLocalMsg : MessageType → Bool
  | .msgHup | .msgBeat | .msgUnreachable | .msgSnapStatus | .msgCheckQuorum
  | .msgStorageAppend | .msgStorageAppendResp | .msgStorageApply
  | .msgStorageApplyResp => true
  | _ => false

/-- `IsResponseMsg`. -/
def isResponseMsg : MessageType → Bool
  | .msgAppResp | .msgVoteResp | .msgHeartbeatResp | .msgUnreachable | .msgReadIndexResp
  | .msgPreVoteResp | .msgStorageAppendResp | .msgStorageApplyResp => true
  | _ => false

/-- `IsLocalMsgTarget`. -/
def isLocalMsgTarget (id : Nat) : Bool :=
  id == localAppendThread || id == localApplyThread

/-- `IsEmptyHardState`; a missing hard state is the zero one. -/
def isEmptyHardState (st : HardState) : Bool := st == {}

/-- `IsEmptySnap`; a missing snapshot is the zero one. -/
def isEmptySnap (sp : Option Snapshot) : Bool :=
  (sp.getD {}).metadata.index == 0

end EtcdRaft
