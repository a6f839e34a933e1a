import EtcdRaft.Model.Storage

/-! The raft log: stable storage followed by the unstable entries that are not known to be
stored yet.
-/

namespace EtcdRaft

/-- `entryID`. -/
structure EntryID where
  term : Nat
  index : Nat
deriving DecidableEq

def Entry.id (e : Entry) : EntryID := { term := e.term, index := e.index }

/-- `logSlice`, a slice of the log of a leader. -/
structure LogSlice where
  term : Nat
  prev : EntryID
  entries : List Entry

/-- The errors of `valid`. -/
inductive SliceError where
  | notConsistent (term : Nat) (prev id : EntryID)
  | newerTerm (term : Nat) (id : EntryID)
deriving DecidableEq

/-- The loop of `valid` over the entries, which returns the ID of the last one. -/
def LogSlice.checkEntries (term : Nat) (prev : EntryID) : List Entry → Except SliceError EntryID
  | [] => return prev
  | e :: rest =>
      if e.id.term < prev.term ∨ e.id.index ≠ prev.index + 1 then
        throw (.notConsistent term prev e.id)
      else
        checkEntries term e.id rest

def LogSlice.valid (s : LogSlice) : Except SliceError Unit := do
  let last ← checkEntries s.term s.prev s.entries
  if s.term < last.term then
    throw (.newerTerm s.term last)

-----------------------------------------------------------------------------------------
-- Unstable entries
-----------------------------------------------------------------------------------------

/-- `unstable`. `entries[i]` has the log position `i + offset`; the part before
`offsetInProgress` has been handed out to be written. The code keeps
`offset ≤ offsetInProgress ≤ offset + entries.length`, and `offset` above the snapshot.
-/
structure Unstable where
  snapshot : Option Snapshot := none
  entries : List Entry := []
  offset : Nat
  snapshotInProgress : Bool := false
  offsetInProgress : Nat

namespace Unstable

def maybeFirstIndex (u : Unstable) : Option Nat :=
  u.snapshot.map (fun s => s.metadata.index + 1)

def maybeLastIndex (u : Unstable) : Option Nat :=
  if u.entries.length ≠ 0 then
    some (u.offset + u.entries.length - 1)
  else
    u.snapshot.map (fun s => s.metadata.index)

def maybeTerm (u : Unstable) (i : Nat) : Option Nat :=
  if i < u.offset then
    match u.snapshot with
    | some s => if s.metadata.index = i then some s.metadata.term else none
    | none => none
  else
    match u.maybeLastIndex with
    | none => none
    | some last => if i > last then none else u.entries[i - u.offset]?.map Entry.term

/-- The entries not yet handed out to be written. -/
def nextEntries (u : Unstable) : List Entry :=
  u.entries.drop (u.offsetInProgress - u.offset)

/-- The snapshot, if it has not been handed out to be written. -/
def nextSnapshot (u : Unstable) : Option Snapshot :=
  if u.snapshotInProgress then none else u.snapshot

def acceptInProgress (u : Unstable) : Unstable :=
  { u with
    offsetInProgress := match u.entries.getLast? with
      | some e => e.index + 1
      | none => u.offsetInProgress
    snapshotInProgress := u.snapshot.isSome || u.snapshotInProgress }

/-- `stableTo` drops the entries up to `id`, unless `id` is no longer in the log. -/
def stableTo (u : Unstable) (id : EntryID) : Unstable :=
  match u.maybeTerm id.index with
  | none => u
  | some gt =>
      if id.index < u.offset then
        u
      else if gt ≠ id.term then
        u
      else
        { u with
          entries := u.entries.drop (id.index + 1 - u.offset)
          offset := id.index + 1
          offsetInProgress := max u.offsetInProgress (id.index + 1) }

def stableSnapTo (u : Unstable) (i : Nat) : Unstable :=
  match u.snapshot with
  | some s =>
      if s.metadata.index = i then
        { u with snapshot := none, snapshotInProgress := false }
      else
        u
  | none => u

def restore (_u : Unstable) (s : Snapshot) : Unstable where
  offset := s.metadata.index + 1
  offsetInProgress := s.metadata.index + 1
  entries := []
  snapshot := some s
  snapshotInProgress := false

def mustCheckOutOfBounds (u : Unstable) (lo hi : Nat) : Result Unit := do
  if lo > hi then
    throw (.invalidUnstableSlice lo hi)
  let upper := u.offset + u.entries.length
  if lo < u.offset ∨ hi > upper then
    throw (.unstableSliceOutOfBound lo hi u.offset upper)

def slice (u : Unstable) (lo hi : Nat) : Result (List Entry) := do
  u.mustCheckOutOfBounds lo hi
  return (u.entries.drop (lo - u.offset)).take (hi - lo)

def truncateAndAppend (u : Unstable) (ents : List Entry) : Result Unstable := do
  match ents with
  | [] => throw .runtimeError
  | e :: _ =>
      let fromIndex := e.index
      if fromIndex = u.offset + u.entries.length then
        return { u with entries := u.entries ++ ents }
      else if fromIndex ≤ u.offset then
        return { u with entries := ents, offset := fromIndex, offsetInProgress := fromIndex }
      else
        let keep ← u.slice u.offset fromIndex
        return { u with
          entries := keep ++ ents
          offsetInProgress := min u.offsetInProgress fromIndex }

end Unstable

-----------------------------------------------------------------------------------------
-- The logical log
-----------------------------------------------------------------------------------------

namespace LogicalLog

def lastIndex (l : LogicalLog) : Nat := l.base + l.entries.length

/-- The entry at an index, if the log holds it. -/
def entry? (l : LogicalLog) (i : Nat) : Option Entry :=
  if i ≤ l.base then none else l.entries[i - l.base - 1]?

def term? (l : LogicalLog) (i : Nat) : Option Nat :=
  if i = l.base then some l.baseTerm else (l.entry? i).map Entry.term

def truncateAndAppend (l : LogicalLog) (ents : List Entry) : LogicalLog :=
  match ents with
  | [] => l
  | e :: _ => { l with entries := l.entries.take (e.index - l.base - 1) ++ ents }

def restore (s : Snapshot) : LogicalLog where
  base := s.metadata.index
  baseTerm := s.metadata.term
  entries := []

end LogicalLog

-----------------------------------------------------------------------------------------
-- The raft log
-----------------------------------------------------------------------------------------

/-- `raftLog`. The field `logical` is no field of the code: it is a history variable that
`append` and `restore` update and no function reads.
-/
structure RaftLog where
  storage : MemoryStorage
  unstable : Unstable
  committed : Nat
  applying : Nat
  applied : Nat
  maxApplyingEntsSize : Nat
  applyingEntsSize : Nat := 0
  applyingEntsPaused : Bool := false
  logical : LogicalLog

def newLogWithSize (storage : MemoryStorage) (maxApplyingEntsSize : Nat) : RaftLog where
  storage := storage
  unstable := { offset := storage.lastIndex + 1, offsetInProgress := storage.lastIndex + 1 }
  maxApplyingEntsSize := maxApplyingEntsSize
  committed := storage.firstIndex - 1
  applying := storage.firstIndex - 1
  applied := storage.firstIndex - 1
  logical := {
    base := storage.dummy.index
    baseTerm := storage.dummy.term
    entries := storage.ents }

namespace RaftLog

def firstIndex (l : RaftLog) : Nat := l.unstable.maybeFirstIndex.getD l.storage.firstIndex

def lastIndex (l : RaftLog) : Nat := l.unstable.maybeLastIndex.getD l.storage.lastIndex

def term (l : RaftLog) (i : Nat) : Except StorageError Nat :=
  match l.unstable.maybeTerm i with
  | some t => return t
  | none =>
      -- an index that is asked for can be the largest one, an index of the log cannot
      let next := if i ≤ l.lastIndex then i + 1 else add64 i 1
      if next < l.firstIndex then
        throw .errCompacted
      else if i > l.lastIndex then
        throw .errUnavailable
      else
        l.storage.term i

/-- `zeroTermOnOutOfBounds` applied to `term`. -/
def zeroTerm (l : RaftLog) (i : Nat) : Nat :=
  match l.term i with
  | .ok t => t
  | .error _ => 0

def lastEntryID (l : RaftLog) : Result EntryID :=
  match l.term l.lastIndex with
  | .ok t => return { term := t, index := l.lastIndex }
  | .error err => throw (.lastTerm l.lastIndex err)

def matchTerm (l : RaftLog) (id : EntryID) : Bool :=
  match l.term id.index with
  | .ok t => t == id.term
  | .error _ => false

def isUpToDate (l : RaftLog) (their : EntryID) : Result Bool := do
  let our ← l.lastEntryID
  return decide (their.term > our.term) ||
    (their.term == our.term && decide (their.index ≥ our.index))

/-- `findConflict`, the index of the first entry the log does not hold, or zero. -/
def findConflict (l : RaftLog) : List Entry → Nat
  | [] => 0
  | e :: rest => if l.matchTerm e.id then l.findConflict rest else e.index

def findConflictByTerm (l : RaftLog) (index term : Nat) : Nat × Nat :=
  match index with
  | 0 => (0, 0)
  | i + 1 =>
      match l.term (i + 1) with
      | .error _ => (i + 1, 0)
      | .ok ourTerm => if ourTerm ≤ term then (i + 1, ourTerm) else l.findConflictByTerm i term

def commitTo (l : RaftLog) (tocommit : Nat) : Result RaftLog := do
  if l.committed < tocommit then
    if l.lastIndex < tocommit then
      throw (.commitOutOfRange tocommit l.lastIndex)
    return { l with committed := tocommit }
  else
    return l

/-- `append`; the new last index is `lastIndex` of the result. -/
def append (l : RaftLog) (ents : List Entry) : Result RaftLog := do
  match ents with
  | [] => return l
  | e :: _ =>
      let after := sub64 e.index 1
      if after < l.committed then
        throw (.afterOutOfRange after l.committed)
      let unstable ← l.unstable.truncateAndAppend ents
      return { l with unstable := unstable, logical := l.logical.truncateAndAppend ents }

/-- The part of `maybeAppend` that appends what follows the first conflict `ci`, if any.
-/
def appendConflict (l : RaftLog) (a : LogSlice) (ci : Nat) : Result RaftLog :=
  if ci = 0 then
    return l
  else if ci ≤ l.committed then
    throw (.conflictWithCommitted ci l.committed)
  else
    let offset := a.prev.index + 1
    if sub64 ci offset > a.entries.length then
      throw (.appendIndexOutOfRange (sub64 ci offset) a.entries.length)
    else
      l.append (a.entries.drop (sub64 ci offset))

/-- `maybeAppend`. The answer `none` means that the log does not hold the entry before the
slice.
-/
def maybeAppend (l : RaftLog) (a : LogSlice) (committed : Nat)
    : Result (RaftLog × Option Nat) := do
  if !l.matchTerm a.prev then
    return (l, none)
  let lastnewi := a.prev.index + a.entries.length
  let l ← l.appendConflict a (l.findConflict a.entries)
  let l ← l.commitTo (min committed lastnewi)
  return (l, some lastnewi)

def maybeCommit (l : RaftLog) (at_ : EntryID) : Result (RaftLog × Bool) := do
  if at_.term ≠ 0 ∧ at_.index > l.committed ∧ l.matchTerm at_ then
    let l ← l.commitTo at_.index
    return (l, true)
  else
    return (l, false)

def restore (l : RaftLog) (s : Snapshot) : RaftLog :=
  { l with
    committed := s.metadata.index
    unstable := l.unstable.restore s
    logical := .restore s }

-----------------------------------------------------------------------------------------
-- Reading entries
-----------------------------------------------------------------------------------------

def mustCheckOutOfBounds (l : RaftLog) (lo hi : Nat) : Result (Except StorageError Unit) := do
  if lo > hi then
    throw (.invalidSlice lo hi)
  let fi := l.firstIndex
  if lo < fi then
    return .error .errCompacted
  let length := sub64 (l.lastIndex + 1) fi
  if hi > fi + length then
    throw (.sliceOutOfBound lo hi fi l.lastIndex)
  return .ok ()

/-- `slice(lo, hi, maxSize)`, reading the storage first and then the unstable entries. -/
def slice [Codec] (l : RaftLog) (lo hi maxSize : Nat)
    : Result (Except StorageError (List Entry)) := do
  match ← l.mustCheckOutOfBounds lo hi with
  | .error err => return .error err
  | .ok () =>
      if lo = hi then
        return .ok []
      if lo ≥ l.unstable.offset then
        let ents ← l.unstable.slice lo hi
        return .ok (limitSize ents maxSize)
      let cut := min hi l.unstable.offset
      match ← l.storage.entries lo cut maxSize with
      | .error .errUnavailable => throw (.entriesUnavailable lo cut)
      | .error err => return .error err
      | .ok ents =>
          if hi ≤ l.unstable.offset then
            return .ok ents
          -- fewer entries than asked for: the size limit was reached
          if ents.length < cut - lo then
            return .ok ents
          let size := entsSize ents
          if size ≥ maxSize then
            return .ok ents
          let rest ← l.unstable.slice l.unstable.offset hi
          let rest := limitSize rest (maxSize - size)
          -- `limitSize` always keeps one entry, even one that does not fit
          if rest.length = 1 ∧ size + entsSize rest > maxSize then
            return .ok ents
          return .ok (ents ++ rest)

def entries [Codec] (l : RaftLog) (i maxSize : Nat)
    : Result (Except StorageError (List Entry)) := do
  if i > l.lastIndex then
    return .ok []
  l.slice i (l.lastIndex + 1) maxSize

/-- `snapshot`, the unstable one if there is one. -/
def snapshot (l : RaftLog) : Snapshot := l.unstable.snapshot.getD l.storage.snapshot

def hasNextUnstableEnts (l : RaftLog) : Bool := decide (l.unstable.nextEntries.length > 0)

def hasNextUnstableSnapshot (l : RaftLog) : Bool := l.unstable.nextSnapshot.isSome

def hasNextOrInProgressSnapshot (l : RaftLog) : Bool := l.unstable.snapshot.isSome

def maxAppliableIndex (l : RaftLog) (allowUnstable : Bool) : Nat :=
  if allowUnstable then l.committed else min l.committed (l.unstable.offset - 1)

def hasNextCommittedEnts (l : RaftLog) (allowUnstable : Bool) : Bool :=
  if l.applyingEntsPaused then
    false
  else if l.hasNextOrInProgressSnapshot then
    false
  else
    decide (l.applying + 1 < l.maxAppliableIndex allowUnstable + 1)

/-- `nextCommittedEnts`, the entries ready to be applied. -/
def nextCommittedEnts [Codec] (l : RaftLog) (allowUnstable : Bool) : Result (List Entry) := do
  if l.applyingEntsPaused then
    return []
  if l.hasNextOrInProgressSnapshot then
    return []
  let lo := l.applying + 1
  let hi := l.maxAppliableIndex allowUnstable + 1
  if lo ≥ hi then
    return []
  let maxSize := sub64 l.maxApplyingEntsSize l.applyingEntsSize
  if maxSize = 0 then
    throw (.applyingSizeNotPositive l.maxApplyingEntsSize l.applyingEntsSize)
  match ← l.slice lo hi maxSize with
  | .ok ents => return ents
  | .error err => throw (.unappliedEntries err)

/-- The errors that `scan` returns: that of a read, "got 0 entries in [%d, %d)", and that
of the callback.
-/
inductive ScanError (ε : Type) where
  | read (err : StorageError)
  | noEntries (lo hi : Nat)
  | callback (err : ε)

/-- The loop of `scan`. The callback `v` takes and returns a state of its own. Each page
has an entry at least, so `hi - lo` pages are enough.
-/
def scanLoop [Codec] {σ ε : Type} (l : RaftLog) (hi pageSize : Nat)
    (v : σ → List Entry → σ × Option ε)
    : (fuel lo : Nat) → σ → Result (σ × Option (ScanError ε))
  | 0, _, s => return (s, none)
  | fuel + 1, lo, s => do
      if lo ≥ hi then
        return (s, none)
      match ← l.slice lo hi pageSize with
      | .error err => return (s, some (.read err))
      | .ok ents =>
          if ents.length = 0 then
            return (s, some (.noEntries lo hi))
          match v s ents with
          | (s, some err) => return (s, some (.callback err))
          | (s, none) => l.scanLoop hi pageSize v fuel (lo + ents.length) s

/-- `scan(lo, hi, pageSize, v)` passes the entries in `[lo, hi)` to the callback, page by
page.
-/
def scan [Codec] {σ ε : Type} (l : RaftLog) (lo hi pageSize : Nat)
    (v : σ → List Entry → σ × Option ε) (s : σ)
    : Result (σ × Option (ScanError ε)) :=
  l.scanLoop hi pageSize v (hi - lo) lo s

-----------------------------------------------------------------------------------------
-- Applying
-----------------------------------------------------------------------------------------

def appliedTo (l : RaftLog) (i size : Nat) : Result RaftLog := do
  if l.committed < i ∨ i < l.applied then
    throw (.appliedOutOfRange i l.applied l.committed)
  let applyingEntsSize := if l.applyingEntsSize > size then l.applyingEntsSize - size else 0
  return { l with
    applied := i
    applying := max l.applying i
    applyingEntsSize := applyingEntsSize
    applyingEntsPaused := decide (applyingEntsSize ≥ l.maxApplyingEntsSize) }

def acceptApplying (l : RaftLog) (i size : Nat) (allowUnstable : Bool) : Result RaftLog := do
  if l.committed < i then
    throw (.applyingOutOfRange i l.applying l.committed)
  let applyingEntsSize := l.applyingEntsSize + size
  return { l with
    applying := i
    applyingEntsSize := applyingEntsSize
    applyingEntsPaused := decide (applyingEntsSize ≥ l.maxApplyingEntsSize) ||
      decide (i < l.maxAppliableIndex allowUnstable) }

def stableTo (l : RaftLog) (id : EntryID) : RaftLog :=
  { l with unstable := l.unstable.stableTo id }

def stableSnapTo (l : RaftLog) (i : Nat) : RaftLog :=
  { l with unstable := l.unstable.stableSnapTo i }

def acceptUnstable (l : RaftLog) : RaftLog :=
  { l with unstable := l.unstable.acceptInProgress }

end RaftLog

end EtcdRaft
