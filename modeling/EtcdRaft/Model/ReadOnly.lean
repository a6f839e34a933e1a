import EtcdRaft.Model.Quorum
import EtcdRaft.Model.Panic

/-! Linearizable reads that wait for the heartbeats of a quorum, `read_only.go`. -/

namespace EtcdRaft

inductive ReadOnlyOption where
  | readOnlySafe
  | readOnlyLeaseBased
deriving DecidableEq

/-- `ReadState`. The history variable `stamp` is the one of the request it answers. -/
structure ReadState where
  index : Nat
  requestCtx : List UInt8
  stamp : Nat
deriving DecidableEq

/-- `readIndexRequest`. -/
structure ReadIndexRequest where
  req : Message
  index : Nat
deriving DecidableEq

/-- `readOnly`. A read is identified by its position: the number of reads this structure
had been given when it was added, itself included.
-/
structure ReadOnly where
  option : ReadOnlyOption
  acks : IdMap Nat := .empty
  unconfirmedReads : List ReadIndexRequest := []
  confirmedReads : Nat := 0

def newReadOnly (option : ReadOnlyOption) : ReadOnly := { option }

/-- `binary.LittleEndian.PutUint64`. -/
def putUint64 (v : Nat) : List UInt8 :=
  (List.range 8).map fun i => UInt8.ofNat (v / 256 ^ i % 256)

/-- The number whose least significant byte comes first. -/
def littleEndian : List UInt8 → Nat
  | [] => 0
  | b :: rest => b.toNat + 256 * littleEndian rest

/-- `binary.LittleEndian.Uint64`, which needs eight bytes. -/
def uint64 (b : List UInt8) : Result Nat :=
  if b.length < 8 then throw .runtimeError else return littleEndian (b.take 8)

namespace ReadOnly

def addRequest (ro : ReadOnly) (commitIndex : Nat) (req : Message) : ReadOnly :=
  { ro with unconfirmedReads := ro.unconfirmedReads ++ [{ req, index := commitIndex }] }

def recvAck (ro : ReadOnly) (from_ : Nat) (ctx : List UInt8) : Result ReadOnly := do
  if ctx.length ≠ 0 then
    let position ← uint64 ctx
    return { ro with acks := ro.acks.insert from_ (max ((ro.acks.get? from_).getD 0) position) }
  else
    return ro

/-- `maybeAdvance` takes the reads that a quorum has confirmed off the queue. -/
def maybeAdvance (ro : ReadOnly) (c : JointConfig) : Result (ReadOnly × List ReadIndexRequest) := do
  let newConfirmedReads := c.committedIndex ro.acks.get?
  if newConfirmedReads ≤ ro.confirmedReads then
    return (ro, [])
  let n := newConfirmedReads - ro.confirmedReads
  if n > ro.unconfirmedReads.length then
    throw .runtimeError
  return ({ ro with
    unconfirmedReads := ro.unconfirmedReads.drop n
    confirmedReads := newConfirmedReads }, ro.unconfirmedReads.take n)

/-- The position of the last unconfirmed read, encoded; empty when there is none. -/
def heartbeatCtx (ro : ReadOnly) : List UInt8 :=
  if ro.unconfirmedReads.length = 0 then
    []
  else
    putUint64 (ro.confirmedReads + ro.unconfirmedReads.length)

end ReadOnly

end EtcdRaft
