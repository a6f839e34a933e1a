import EtcdRaft.Model.Storage

/-! `MemoryStorage` as the code lays it out: one slice that starts with the dummy entry,
positions that are 64-bit offsets from it, and every access checked against the bounds of
the slice.
-/

namespace EtcdRaft

/-- The fields of `MemoryStorage` that hold the log. -/
structure SliceStorage where
  snapshot : Snapshot := {}
  ents : List Entry
deriving DecidableEq

/-- `NewMemoryStorage`. -/
def newMemoryStorage : SliceStorage where
  ents := [{}]

namespace SliceStorage

-----------------------------------------------------------------------------------------
-- Slices
-----------------------------------------------------------------------------------------

/-- `s[i]` -/
def index (s : List Entry) (i : Nat) : Result Entry :=
  match s[i]? with
  | none => throw .runtimeError
  | some e => return e

/-- `s[lo:]` -/
def sliceFrom (s : List Entry) (lo : Nat) : Result (List Entry) :=
  if lo ≤ s.length then return s.drop lo else throw .runtimeError

/-- `s[lo:hi]` -/
def slice (s : List Entry) (lo hi : Nat) : Result (List Entry) :=
  if lo ≤ hi ∧ hi ≤ s.length then return (s.drop lo).take (hi - lo) else throw .runtimeError

-----------------------------------------------------------------------------------------
-- Reading
-----------------------------------------------------------------------------------------

/-- `ms.ents[0].GetIndex()` -/
def offset (ms : SliceStorage) : Result Nat := Entry.index <$> index ms.ents 0

def lastIndex (ms : SliceStorage) : Result Nat := do
  let offset ← ms.offset
  return sub64 (add64 offset ms.ents.length) 1

def firstIndex (ms : SliceStorage) : Result Nat := do
  let offset ← ms.offset
  return add64 offset 1

/-- `Term`. The position is compared as an `int`, so one of 2^63 or more passes for
negative.
-/
def term (ms : SliceStorage) (i : Nat) : Result (Except StorageError Nat) := do
  let offset ← ms.offset
  if i < offset then
    return .error .errCompacted
  let position := sub64 i offset
  if position < 2 ^ 63 ∧ position ≥ ms.ents.length then
    return .error .errUnavailable
  let e ← index ms.ents position
  return .ok e.term

def entries [Codec] (ms : SliceStorage) (lo hi maxSize : Nat)
    : Result (Except StorageError (List Entry)) := do
  let offset ← ms.offset
  if lo ≤ offset then
    return .error .errCompacted
  let last ← ms.lastIndex
  if hi > add64 last 1 then
    throw (.entriesHiOutOfBound hi last)
  -- only the dummy entry
  if ms.ents.length = 1 then
    return .error .errUnavailable
  let ents ← slice ms.ents (sub64 lo offset) (sub64 hi offset)
  return .ok (limitSize ents maxSize)

-----------------------------------------------------------------------------------------
-- Writing
-----------------------------------------------------------------------------------------

/-- `ApplySnapshot`, with the storage that it leaves. -/
def applySnapshot (ms : SliceStorage) (snap : Snapshot) : SliceStorage × Option StorageError :=
  let msIndex := ms.snapshot.metadata.index
  let snapIndex := snap.metadata.index
  if msIndex ≠ 0 ∧ msIndex ≥ snapIndex then
    (ms, some .errSnapOutOfDate)
  else
    ({ snapshot := snap, ents := [{ term := snap.metadata.term, index := snap.metadata.index }] },
      none)

/-- `CreateSnapshot`. Without a new `ConfState` the snapshot keeps the old one. -/
def createSnapshot (ms : SliceStorage) (i : Nat) (cs : Option ConfState) (data : List Entry)
    : Result (SliceStorage × Except StorageError Snapshot) := do
  if i ≤ ms.snapshot.metadata.index then
    return (ms, .error .errSnapOutOfDate)
  let offset ← ms.offset
  let last ← ms.lastIndex
  if i > last then
    throw (.snapshotOutOfBound i last)
  let e ← index ms.ents (sub64 i offset)
  let snapshot : Snapshot := {
    data
    metadata := {
      index := i
      term := e.term
      confState := cs.getD ms.snapshot.metadata.confState } }
  return ({ ms with snapshot := snapshot }, .ok snapshot)

def compact (ms : SliceStorage) (compactIndex : Nat)
    : Result (SliceStorage × Option StorageError) := do
  let offset ← ms.offset
  if compactIndex ≤ offset then
    return (ms, some .errCompacted)
  let last ← ms.lastIndex
  if compactIndex > last then
    throw (.compactOutOfBound compactIndex last)
  let i := sub64 compactIndex offset
  let e ← index ms.ents i
  let rest ← sliceFrom ms.ents (add64 i 1)
  return ({ ms with ents := { index := e.index, term := e.term } :: rest }, none)

/-- The `switch` of `Append`, for entries that are not compacted. -/
def appendNew (ms : SliceStorage) (entries : List Entry) : Result SliceStorage := do
  let e ← index entries 0
  let start ← ms.offset
  let offset := sub64 e.index start
  if ms.ents.length > offset then
    return { ms with ents := ms.ents.take offset ++ entries }
  else if ms.ents.length = offset then
    return { ms with ents := ms.ents ++ entries }
  else
    throw (.missingLogEntry (← ms.lastIndex) e.index)

def append (ms : SliceStorage) (entries : List Entry) : Result SliceStorage := do
  match entries with
  | [] => return ms
  | e :: _ =>
      let first ← ms.firstIndex
      let last := sub64 (add64 e.index entries.length) 1
      -- nothing is new
      if last < first then
        return ms
      -- what is compacted already is left out
      if first > e.index then
        ms.appendNew (← sliceFrom entries (sub64 first e.index))
      else
        ms.appendNew entries

end SliceStorage

-----------------------------------------------------------------------------------------
-- Sequences of calls
-----------------------------------------------------------------------------------------

/-- A call that may change a storage. -/
inductive StorageOp where
  | append (entries : List Entry)
  | compact (compactIndex : Nat)
  | createSnapshot (i : Nat) (cs : Option ConfState) (data : List Entry)
  | applySnapshot (snap : Snapshot)

namespace SliceStorage

/-- The storage after a call, and the error that the call returned. -/
def call (ms : SliceStorage) : StorageOp → Result (SliceStorage × Option StorageError)
  | .append entries => do return (← ms.append entries, none)
  | .compact compactIndex => ms.compact compactIndex
  | .createSnapshot i cs data => do
      let (ms, answer) ← ms.createSnapshot i cs data
      match answer with
      | .error err => return (ms, some err)
      | .ok _ => return (ms, none)
  | .applySnapshot snap => return ms.applySnapshot snap

/-- The storage after a sequence of calls that do not panic. -/
def calls (ms : SliceStorage) : List StorageOp → Result SliceStorage
  | [] => return ms
  | op :: rest => do
      let (ms, _) ← ms.call op
      ms.calls rest

end SliceStorage

end EtcdRaft
