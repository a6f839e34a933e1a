import EtcdRaft.Refinement.View
import EtcdRaft.Cluster.Host

/-! The way of a log to the disk: a durable version, versions that writes in flight will
make durable, and the current one. The raft log may forget an unstable entry only if every
version holds it, whatever writes are still to come.

`L t` is the log of the leader of term `t`, as far as it has grown.
-/

namespace EtcdRaft

-----------------------------------------------------------------------------------------
-- Versions
-----------------------------------------------------------------------------------------

/-- Entries carry their indexes, and the log agrees with the leader of each entry's term
up to that entry.
-/
structure Matched (L : Nat → List Entry) (l : List Entry) : Prop where
  indexed : Indexed l
  leader : ∀ i e, l[i]? = some e → l.take (i + 1) <+: L e.term

theorem Matched.of_fin {L : Nat → List Entry} {l : List Entry}
    (each : ∀ i : Fin l.length, l[i].index = i + 1 ∧ l.take (i + 1) <+: L l[i].term)
    : Matched L l := by
  constructor
  · intro i e found
    obtain ⟨inside, rfl⟩ := List.getElem?_eq_some_iff.mp found
    exact (each ⟨i, inside⟩).1
  · intro i e found
    obtain ⟨inside, rfl⟩ := List.getElem?_eq_some_iff.mp found
    exact (each ⟨i, inside⟩).2

theorem Matched.nil {L : Nat → List Entry} : Matched L [] :=
  .of_fin fun i => i.elim0

/-- Neither list is the beginning of the other. -/
def Diverges (x l : List Entry) : Prop := ¬x <+: l ∧ ¬l <+: x

/-- A log and the term in which a node had it. -/
structure Version where
  term : Nat
  log : List Entry

/-- A write in flight, the version it leads to and the answers of the append thread that
come after it.
-/
structure Slot where
  entries : List Entry
  snapshot : Option Snapshot
  resps : List Message
  version : Version

/-- The current term and log of a node and its versions on the way to the disk. `done` are
the answers for writes that are durable. No version differs from the durable one up to
`floor`, except by a snapshot.
-/
structure Pipeline where
  term : Nat
  log : List Entry
  floor : Nat
  durable : Version
  done : List Message
  slots : List Slot

/-- The version after the writes. -/
def lastVersion (v : Version) : List Slot → Version
  | [] => v
  | s :: rest => lastVersion s.version rest

namespace Pipeline

def versions (p : Pipeline) : List Version := p.durable :: p.slots.map Slot.version

def last (p : Pipeline) : Version := lastVersion p.durable p.slots

/-- The answers of the append thread, in the order of the writes. -/
def resps (p : Pipeline) : List Message := p.done ++ p.slots.flatMap Slot.resps

end Pipeline

/-- A write leads from `log` to the version of the slot. -/
def Slot.Follows (floor : Nat) (log : List Entry) (s : Slot) : Prop :=
  match s.snapshot with
  | none =>
      (∃ a, s.entries = s.version.log.drop a ∧ s.version.log.take a <+: log)
        ∧ s.version.log.take floor = log.take floor
        ∧ (s.entries = [] → s.version.log = log)
        ∧ (s.entries ≠ [] → floor < s.version.log.length)
  | some sn =>
      s.entries = s.version.log.drop sn.metadata.index
        ∧ sn.data = s.version.log.take sn.metadata.index
        ∧ sn.metadata.index ≤ s.version.log.length
        ∧ sn.metadata.term = termAt s.version.log sn.metadata.index
        ∧ floor < sn.metadata.index

/-- The floor after a write. -/
def Slot.floorAfter (s : Slot) (floor : Nat) : Nat :=
  match s.snapshot with
  | none => floor
  | some sn => sn.metadata.index

/-- Each write leads from the version before it to its own. -/
def Chain : Nat → List Entry → List Slot → Prop
  | _, _, [] => True
  | floor, log, s :: rest => s.Follows floor log ∧ Chain (s.floorAfter floor) s.version.log rest

/-- The floor after all the writes. -/
def endFloor (floor : Nat) (slots : List Slot) : Nat :=
  slots.foldl (fun floor s => s.floorAfter floor) floor

-----------------------------------------------------------------------------------------
-- Answers of the append thread
-----------------------------------------------------------------------------------------

/-- The part of the log that an answer says is stored. -/
def answered (L : Nat → List Entry) (m : Message) : List Entry := (L m.logTerm).take m.index

/-- The version `v` and the writes after it hold `x`, which the current log still has. -/
structure Held (p : Pipeline) (handed : Nat) (x : List Entry) (v : Version)
    (rest : List Slot)
    : Prop where
  term : v.term = p.term
  here : x <+: v.log
  later : ∀ s ∈ rest, s.version.term = p.term ∧ x <+: s.version.log
    ∧ (s.entries ≠ [] → x.length < s.version.log.length)
  current : x <+: p.log
  handed : x.length < handed

/-- The version `v` and the writes after it hold the pending snapshot of index `i`. -/
def Restored (p : Pipeline) (i : Nat) (v : Version) (rest : List Slot) : Prop :=
  ∀ w ∈ v :: rest.map Slot.version, p.log.take i <+: w.log ∧ (p.log.length = i → w.log = p.log)

/-- An answer for the version `v` that the writes `rest` come after. An answer of the
current term is about a part of the log that is in place ever since, or that the leader of
the term has replaced.
-/
structure RespOk (L : Nat → List Entry) (p : Pipeline) (u : Unstable) (m : Message)
    (v : Version)
    (rest : List Slot) : Prop where
  type : m.type = .msgStorageAppendResp
  term : m.term ≤ p.term ∧ m.term ≠ 0
  within : m.index ≤ (L m.logTerm).length
  entries : m.term = p.term → m.index ≠ 0 → Held p u.offsetInProgress (answered L m) v rest
    ∨ Diverges (answered L m) (L p.term) ∧ p.log <+: L p.term
  snapshot : ∀ s sn, m.snapshot = some s → u.snapshot = some sn
    → sn.metadata.index = s.metadata.index → Restored p s.metadata.index v rest

/-- The answers that come with the writes. -/
def SlotsOk (L : Nat → List Entry) (p : Pipeline) (u : Unstable) : List Slot → Prop
  | [] => True
  | s :: rest => (∀ m ∈ s.resps, RespOk L p u m s.version rest) ∧ SlotsOk L p u rest

/-- An answer that says nothing about entries of `log` after index `i`. -/
def Stale (L : Nat → List Entry) (T i : Nat) (log : List Entry) (m : Message) : Prop :=
  m.term = T → m.index ≤ i ∨ Diverges (answered L m) (L T) ∧ log <+: L T

/-- The answers before the one that carries the snapshot of index `i` are stale. -/
def Guarded (L : Nat → List Entry) (T i : Nat) (log : List Entry) : List Message → Prop
  | [] => True
  | m :: rest =>
      m.snapshot.map (fun s => s.metadata.index) = some i
        ∨ (Stale L T i log m ∧ Guarded L T i log rest)

structure RespsOk (L : Nat → List Entry) (p : Pipeline) (u : Unstable) : Prop where
  done : ∀ m ∈ p.done, RespOk L p u m p.durable p.slots
  slots : SlotsOk L p u p.slots
  doneFloor : ∀ m ∈ p.done, ∀ s, m.snapshot = some s → s.metadata.index ≤ p.floor
  slotSnap : ∀ s ∈ p.slots, ∀ sn, s.snapshot = some sn → ∃ m ∈ s.resps, m.snapshot = some sn
  respSnap : ∀ s ∈ p.slots, ∀ m ∈ s.resps, ∀ sn, m.snapshot = some sn → s.snapshot = some sn
  increasing : (p.resps.filterMap Message.snapshot).Pairwise
    fun s s' => s.metadata.index < s'.metadata.index
  pending : ∀ m ∈ p.resps, ∀ s, m.snapshot = some s → ∃ sn, u.snapshot = some sn
    ∧ (s.metadata.index < sn.metadata.index
      ∨ (s.metadata.index = sn.metadata.index ∧ u.snapshotInProgress = true))
  guarded : ∀ sn, u.snapshot = some sn → Guarded L p.term sn.metadata.index p.log p.resps
  carried : ∀ sn, u.snapshot = some sn → u.snapshotInProgress = true
    → ∃ m ∈ p.resps, m.snapshot.map (fun s => s.metadata.index) = some sn.metadata.index

-----------------------------------------------------------------------------------------
-- The invariant
-----------------------------------------------------------------------------------------

structure UnstableOk (u : Unstable) (log : List Entry) : Prop where
  positive : 1 ≤ u.offset
  ordered : u.offset ≤ u.offsetInProgress
  within : u.offsetInProgress ≤ log.length + 1
  entries : u.entries = log.drop (u.offset - 1)
  snapshot : ∀ s, u.snapshot = some s → u.offset = s.metadata.index + 1
    ∧ s.data = log.take s.metadata.index ∧ s.metadata.term = termAt log s.metadata.index
    ∧ s.metadata.index ≠ 0
  unhanded : u.snapshot.isSome → u.snapshotInProgress = false → u.offsetInProgress = u.offset
  idle : u.snapshot = none → u.snapshotInProgress = false

structure StorageOk (ms : MemoryStorage) (floor : Nat) (d : List Entry) : Prop where
  stored : Stored ms d
  dummy : ms.dummy.index ≤ floor
  snapshot : ms.snapshot.metadata.index ≤ floor
  floor : floor ≤ d.length

structure LineOk (L : Nat → List Entry) (p : Pipeline) (u : Unstable) : Prop where
  current : Matched L p.log
  matched : ∀ v ∈ p.versions, Matched L v.log
  chain : Chain p.floor p.durable.log p.slots
  handed : endFloor p.floor p.slots < u.offsetInProgress
  fresh : ∀ sn, u.snapshot = some sn → u.snapshotInProgress = false
    → endFloor p.floor p.slots < sn.metadata.index
  agree : u.snapshot = none → ∀ v ∈ p.versions, p.log.take (u.offset - 1) <+: v.log
  beyond : u.snapshot = none → ∀ s ∈ p.slots, s.entries ≠ [] → u.offset ≤ s.version.log.length
  whole : u.snapshot = none → u.entries = [] → ∀ v ∈ p.versions, v.log = p.log
  last : u.snapshot = none ∨ u.snapshotInProgress = true
    → p.log.take (u.offsetInProgress - 1) <+: p.last.log
      ∧ (u.offsetInProgress = p.log.length + 1 → p.last.log = p.log)
  same : ∀ v ∈ p.versions, v.term ≤ p.term
    ∧ (v.term = p.term → v.log = p.log ∨ (p.log <+: L p.term ∧ ¬p.log <+: v.log))

structure IndexOk (async : Bool) (p : Pipeline) (l : RaftLog) : Prop where
  committed : l.committed ≤ p.log.length
  applying : l.applying ≤ l.committed
  applied : l.applied ≤ l.applying
  appliedFloor : l.applied ≤ p.floor
  applyingFloor : async = true → l.applying ≤ p.floor
  reach : l.applying < if async then l.unstable.offset else l.unstable.offsetInProgress
  last : l.applying ≤ p.last.log.length
  pending : ∀ s, l.unstable.snapshot = some s
    → l.applying < s.metadata.index ∧ s.metadata.index ≤ l.committed
  slots : ∀ s ∈ p.slots, ∀ sn, s.snapshot = some sn → sn.metadata.index ≤ l.committed

/-- The raft log, the storage, the writes in flight and the answers of the append thread
fit together.
-/
structure Pipe (L : Nat → List Entry) (async : Bool) (p : Pipeline)
    (l : RaftLog) : Prop where
  unstable : UnstableOk l.unstable p.log
  storage : StorageOk l.storage p.floor p.durable.log
  line : LineOk L p l.unstable
  resps : RespsOk L p l.unstable
  index : IndexOk async p l

-----------------------------------------------------------------------------------------
-- First consequences
-----------------------------------------------------------------------------------------

theorem Matched.take {L : Nat → List Entry} {l : List Entry} (matched : Matched L l)
    (n : Nat)
    : Matched L (l.take n) where
  indexed := matched.indexed.of_extension (List.take_prefix n l)
  leader := by
    intro i e found
    have within := (List.getElem?_eq_some_iff.mp found).1
    rw [List.length_take] at within
    rw [List.take_take, Nat.min_eq_left (by omega)]
    refine matched.leader i e ?_
    rw [List.getElem?_take_of_lt (by omega)] at found
    exact found

/-- Up to an index the log agrees with the leader of the term there. -/
theorem Matched.prefix_leader {L : Nat → List Entry} {l : List Entry} {i : Nat}
    (matched : Matched L l) (present : i ≤ l.length)
    : l.take i <+: L (termAt l i) := by
  cases i with
  | zero => exact List.nil_prefix
  | succ n =>
      obtain ⟨e, found⟩ : ∃ e, l[n]? = some e := ⟨_, List.getElem?_eq_getElem present⟩
      rw [termAt_succ found]
      exact matched.leader n e found

/-- The whole log agrees with the leader of the last entry's term. -/
theorem Matched.whole {L : Nat → List Entry} {l : List Entry} (matched : Matched L l)
    : l <+: L (termAt l l.length) := by
  have pre := matched.prefix_leader (Nat.le_refl l.length)
  rwa [List.take_length] at pre

/-- Logs with the same term at an index agree up to it. -/
theorem Matched.take_eq {L : Nat → List Entry} {l l' : List Entry} {i : Nat}
    (matched : Matched L l) (matched' : Matched L l') (present : i ≤ l.length)
    (present' : i ≤ l'.length) (same : termAt l i = termAt l' i)
    : l.take i = l'.take i := by
  cases i with
  | zero => simp
  | succ i =>
      obtain ⟨e, found⟩ : ∃ e, l[i]? = some e := ⟨_, List.getElem?_eq_getElem present⟩
      obtain ⟨e', found'⟩ : ∃ e, l'[i]? = some e := ⟨_, List.getElem?_eq_getElem present'⟩
      rw [termAt_succ found, termAt_succ found'] at same
      have pre := matched.leader i e found
      have pre' := matched'.leader i e' found'
      rw [← same] at pre'
      have length : (l.take (i + 1)).length = (l'.take (i + 1)).length := by
        rw [List.length_take, List.length_take]
        omega
      exact (List.prefix_of_prefix_length_le pre pre' length.le).eq_of_length length

theorem Slot.Follows.le_floorAfter {floor : Nat} {log : List Entry} {s : Slot}
    (follows : s.Follows floor log)
    : floor ≤ s.floorAfter floor := by
  unfold Slot.Follows at follows
  unfold Slot.floorAfter
  cases snapshot : s.snapshot with
  | none => exact Nat.le_refl _
  | some sn =>
      rw [snapshot] at follows
      exact follows.2.2.2.2.le

theorem Chain.le_endFloor {floor : Nat} {log : List Entry} {slots : List Slot}
    (chain : Chain floor log slots)
    : floor ≤ endFloor floor slots := by
  induction slots generalizing floor log with
  | nil => exact Nat.le_refl _
  | cons s rest ih => exact chain.1.le_floorAfter.trans (ih chain.2)

namespace Pipe

variable {L : Nat → List Entry} {async : Bool} {p : Pipeline} {l : RaftLog}

theorem floor_lt (pipe : Pipe L async p l) : p.floor < l.unstable.offsetInProgress :=
  pipe.line.chain.le_endFloor.trans_lt pipe.line.handed

/-- The raft log shows the current log. -/
theorem shows (pipe : Pipe L async p l) : Shows l p.log where
  positive := pipe.unstable.positive
  within := pipe.unstable.ordered.trans pipe.unstable.within
  entries := pipe.unstable.entries
  snapshot := by
    intro s pending
    obtain ⟨offset, _, term, _⟩ := pipe.unstable.snapshot s pending
    exact ⟨offset, term⟩
  stable := by
    intro none
    refine ⟨p.durable.log, pipe.storage.stored, ?_, ?_, ?_⟩
    · exact pipe.line.agree none p.durable List.mem_cons_self
    · exact fun empty => pipe.line.whole none empty p.durable List.mem_cons_self
    · have := pipe.floor_lt
      have := pipe.unstable.within
      have := pipe.storage.dummy
      omega

end Pipe

end EtcdRaft
