import EtcdRaft.Model.Panic

/-! `MemoryStorage`, the stable storage of a node. -/

namespace EtcdRaft

/-- `MemoryStorage`. The Go slice `ents` starts with a dummy entry that holds the index
and the term of the last compacted entry; it is the field `dummy` here, so that it cannot
be missing.
-/
structure MemoryStorage where
  hardState : HardState := {}
  snapshot : Snapshot := {}
  dummy : Entry := {}
  ents : List Entry := []
deriving DecidableEq

namespace MemoryStorage

def initialState (ms : MemoryStorage) : HardState × ConfState :=
  (ms.hardState, ms.snapshot.metadata.confState)

def setHardState (ms : MemoryStorage) (st : HardState) : MemoryStorage :=
  { ms with hardState := st }

def lastIndex (ms : MemoryStorage) : Nat := ms.dummy.index + ms.ents.length

def firstIndex (ms : MemoryStorage) : Nat := ms.dummy.index + 1

def term (ms : MemoryStorage) (i : Nat) : Except StorageError Nat :=
  if i < ms.dummy.index then
    throw .errCompacted
  else
    match (ms.dummy :: ms.ents)[i - ms.dummy.index]? with
    | none => throw .errUnavailable
    | some e => return e.term

/-- `Entries(lo, hi, maxSize)`. -/
def entries [Codec] (ms : MemoryStorage) (lo hi maxSize : Nat)
    : Result (Except StorageError (List Entry)) := do
  if lo ≤ ms.dummy.index then
    return .error .errCompacted
  if hi > ms.lastIndex + 1 then
    throw (.entriesHiOutOfBound hi ms.lastIndex)
  if ms.ents.length = 0 then
    return .error .errUnavailable
  if lo > hi then
    throw .runtimeError
  return .ok (limitSize ((ms.ents.drop (lo - ms.dummy.index - 1)).take (hi - lo)) maxSize)

/-- `ApplySnapshot` overwrites the contents with those of the snapshot. -/
def applySnapshot (ms : MemoryStorage) (snap : Snapshot) : Except StorageError MemoryStorage :=
  let msIndex := ms.snapshot.metadata.index
  if msIndex ≠ 0 ∧ msIndex ≥ snap.metadata.index then
    throw .errSnapOutOfDate
  else
    return { ms with
      snapshot := snap
      dummy := { term := snap.metadata.term, index := snap.metadata.index }
      ents := [] }

/-- `CreateSnapshot` records the state of the application at index `i`. -/
def createSnapshot (ms : MemoryStorage) (i : Nat) (cs : ConfState) (data : List Entry)
    : Result (Except StorageError MemoryStorage) := do
  if i ≤ ms.snapshot.metadata.index then
    return .error .errSnapOutOfDate
  if i > ms.lastIndex then
    throw (.snapshotOutOfBound i ms.lastIndex)
  if i < ms.dummy.index then
    throw .runtimeError
  match (ms.dummy :: ms.ents)[i - ms.dummy.index]? with
  | none => throw .runtimeError
  | some e =>
      return .ok { ms with
        snapshot := { data, metadata := { index := i, term := e.term, confState := cs } } }

/-- `Compact` discards the entries before `compactIndex`, whose entry becomes the dummy.
-/
def compact (ms : MemoryStorage) (compactIndex : Nat)
    : Result (Except StorageError MemoryStorage) := do
  if compactIndex ≤ ms.dummy.index then
    return .error .errCompacted
  if compactIndex > ms.lastIndex then
    throw (.compactOutOfBound compactIndex ms.lastIndex)
  match ms.ents[compactIndex - ms.dummy.index - 1]? with
  | none => throw .runtimeError
  | some e =>
      return .ok { ms with
        dummy := { index := e.index, term := e.term }
        ents := ms.ents.drop (compactIndex - ms.dummy.index) }

/-- `Append` writes entries after the stored ones, replacing what they overlap. Entries
that are compacted already are skipped.
-/
def append (ms : MemoryStorage) (entries : List Entry) : Result MemoryStorage := do
  match entries with
  | [] => return ms
  | e :: _ =>
      let first := ms.firstIndex
      let last := e.index + entries.length - 1
      if last < first then
        return ms
      let entries := if first > e.index then entries.drop (first - e.index) else entries
      let index := max first e.index
      let offset := index - ms.dummy.index
      if ms.ents.length + 1 ≥ offset then
        return { ms with ents := ms.ents.take (offset - 1) ++ entries }
      else
        throw (.missingLogEntry ms.lastIndex index)

end MemoryStorage

end EtcdRaft
