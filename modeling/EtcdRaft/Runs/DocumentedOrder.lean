import EtcdRaft.Runs.Deliveries
import EtcdRaft.Runs.LogicalLogs

/-! The order in which the README says that a `Ready` is stored: first the entries, then
the hard state and the snapshot. Only as long as a snapshot comes without entries it is
safe.
-/

namespace EtcdRaft

-----------------------------------------------------------------------------------------
-- The order
-----------------------------------------------------------------------------------------

/-- Step 1 of the README for a `MemoryStorage`: `Append`, `SetHardState` and
`ApplySnapshot`.
-/
def Host.storeDocumented (ms : MemoryStorage) (rd : Ready) : Result MemoryStorage := do
  let ms ← ms.append rd.entries
  let ms := if isEmptyHardState rd.hardState then ms else ms.setHardState rd.hardState
  return ms.install (if isEmptySnap rd.snapshot then none else rd.snapshot)

theorem MemoryStorage.install_setHardState (ms : MemoryStorage) (hs : HardState)
    (snapshot : Option Snapshot)
    : (ms.setHardState hs).install snapshot = (ms.install snapshot).setHardState hs := by
  unfold install applySnapshot setHardState
  cases snapshot with
  | none => rfl
  | some s =>
      by_cases outdated : ms.snapshot.metadata.index ≠ 0
          ∧ ms.snapshot.metadata.index ≥ s.metadata.index
      · simp only [if_pos outdated]
        rfl
      · simp only [if_neg outdated]
        rfl

/-- When there are no entries or no snapshot, the order does not matter. -/
theorem Host.storeDocumented_eq (ms : MemoryStorage) {rd : Ready}
    (messages response : List Message)
    (apart : isEmptySnap rd.snapshot = true ∨ rd.entries = [])
    : storeDocumented ms rd = store ms (writeOf rd messages response) := by
  rw [store_eq]
  unfold storeDocumented writeOf
  dsimp only
  rcases apart with blank | none
  · rw [if_pos blank]
    rfl
  · rw [none]
    show Except.ok _ = Except.ok _
    split
    · rfl
    · rw [MemoryStorage.install_setHardState]

/-- A single entry is always read. -/
theorem Stored.entries_one [Codec] {ms : MemoryStorage} {d : List Entry}
    (stored : Stored ms d)
    {i : Nat} {e : Entry} (maxSize : Nat) (available : ms.dummy.index < i)
    (found : d[i - 1]? = some e)
    : ms.entries i (i + 1) maxSize = .ok (.ok [e]) := by
  have present := (List.getElem?_eq_some_iff.mp found).1
  have one : (d.drop (i - 1)).take (i + 1 - i) = [e] := by
    rw [Nat.add_sub_cancel_left, List.take_one, List.head?_drop, found]
    rfl
  rw [stored.entries maxSize available (Nat.lt_add_one i) (by omega), one]
  rfl

theorem MemoryStorage.append_snapshot {ms ms' : MemoryStorage} {es : List Entry}
    (appended : ms.append es = .ok ms')
    : ms'.snapshot = ms.snapshot := by
  unfold append at appended
  split at appended
  · cases appended
    rfl
  · dsimp only at appended
    split at appended
    · cases appended
      rfl
    · split at appended
      · cases appended
        rfl
      · cases appended

/-- A newer snapshot that is applied last leaves no entry. -/
theorem Host.storeDocumented_snapshot {ms ms' : MemoryStorage} {rd : Ready} {s : Snapshot}
    (stores : storeDocumented ms rd = .ok ms') (snapshot : rd.snapshot = some s)
    (newer : ms.snapshot.metadata.index < s.metadata.index)
    : ms'.lastIndex = s.metadata.index := by
  obtain ⟨ms₁, appended, eq⟩ := except_bind_eq_ok.mp stores
  cases eq
  have kept : ms₁.snapshot = ms.snapshot := MemoryStorage.append_snapshot appended
  have full : isEmptySnap (some s) = false := by
    simp only [isEmptySnap, Option.getD_some, beq_eq_false_iff_ne]
    omega
  rw [snapshot, full, if_neg Bool.false_ne_true, MemoryStorage.install_newer]
  · exact Nat.add_zero _
  · split
    · rw [kept]
      exact newer
    · show ms₁.snapshot.metadata.index < _
      rw [kept]
      exact newer

-----------------------------------------------------------------------------------------
-- Ready
-----------------------------------------------------------------------------------------

section

variable [Codec] {L : Nat → List Entry} {d : Version} {p : Pipeline} {h : Host}
  {rn rn' : RawNode}
  {rd : Ready}

/-- What a `Ready` is to store is all that is unstable. -/
structure RawNode.Offers (rn : RawNode) (rd : Ready) : Prop where
  entries : rd.entries = rn.raft.raftLog.unstable.nextEntries
  snapshot : rd.snapshot = rn.raft.raftLog.unstable.nextSnapshot

theorem RawNode.Taken.offers (taken : rn.Taken rn' rd) : rn.Offers rd := by
  cases taken <;> exact ⟨rfl, rfl⟩

omit [Codec] in
/-- A `Ready` has no more than the log. -/
theorem RawNode.Offers.apart (offers : rn.Offers rd)
    (apart : rn.raft.raftLog.unstable.snapshot = none ∨ rn.raft.raftLog.unstable.entries = [])
    : isEmptySnap rd.snapshot = true ∨ rd.entries = [] := by
  rw [offers.snapshot, offers.entries]
  unfold Unstable.nextSnapshot Unstable.nextEntries
  refine apart.imp (fun none => ?_) fun none => ?_
  · rw [none, ite_self]
    rfl
  · rw [none, List.drop_nil]

/-- Every entry of the logical log that the node can read is in the storage. -/
def MemoryStorage.Holds (ms : MemoryStorage) (l : RaftLog) : Prop :=
  ∀ i, l.firstIndex ≤ i → i ≤ l.lastIndex → ∃ e, l.logical.entry? i = some e
    ∧ ∀ maxSize, ms.entries i (i + 1) maxSize = .ok (.ok [e])

omit [Codec] in
/-- Between two `Ready`s no write is on its way, and a snapshot is not either. -/
theorem Sound.idle (sound : Sound L d false p h rn) (writes : h.writes = [])
    (steps : rn.stepsOnAdvance = [])
    : p.slots = [] ∧ (rn.raft.raftLog.unstable.snapshot.isSome
      → rn.raft.raftLog.unstable.snapshotInProgress = false) := by
  have none : p.resps = [] := by rw [sound.own rfl, steps]; rfl
  refine ⟨sound.slots_eq writes, fun pending => ?_⟩
  obtain ⟨s, pending⟩ := Option.isSome_iff_exists.mp pending
  by_contra handed
  obtain ⟨m, member, _⟩ :=
    sound.piped.pipe.resps.carried s pending (by simpa using handed)
  rw [none] at member
  cases member

/-- The usual order stores the whole log. -/
theorem Sound.holds_store (sound : Sound L d false p h rn) (slots : p.slots = [])
    (notYet : rn.raft.raftLog.unstable.snapshot.isSome
      → rn.raft.raftLog.unstable.snapshotInProgress = false)
    (offers : rn.Offers rd) (messages response : List Message)
    : ∃ ms, Host.store rn.raft.raftLog.storage (Host.writeOf rd messages response) = .ok ms
      ∧ ms.Holds rn.raft.raftLog := by
  have pipe := sound.piped.pipe
  have follows := pipe.slot_follows []
  rw [Pipeline.last, slots] at follows
  have snapshot : (Host.writeOf rd messages response).snapshot
      = (p.slot rn.raft.raftLog.unstable []).snapshot := by
    show (if isEmptySnap rd.snapshot then none else rd.snapshot) = _
    rw [offers.snapshot]
    exact sound.isEmptySnap_nextSnapshot
  obtain ⟨ms, stores, ok, _, dummy⟩ := pipe.storage.store follows pipe.line.current.indexed
    offers.entries snapshot
  refine ⟨ms, stores, fun i available present => ?_⟩
  have first := rn.raft.raftLog.firstIndex_pos
  have above := sound.piped.base_lt_firstIndex
  have last := pipe.shows.lastIndex
  obtain ⟨e, found⟩ : ∃ e, p.log[i - 1]? = some e :=
    ⟨_, List.getElem?_eq_getElem (by omega)⟩
  refine ⟨e, ?_, fun maxSize => ok.stored.entries_one maxSize ?_ found⟩
  · rw [sound.piped.logical.entry? (by omega)]
    exact found
  · refine Nat.lt_of_lt_of_le ?_ available
    rw [dummy]
    unfold Slot.floorAfter RaftLog.firstIndex Unstable.maybeFirstIndex
    cases pending : rn.raft.raftLog.unstable.snapshot with
    | none =>
        have none : (p.slot rn.raft.raftLog.unstable []).snapshot = none := by
          show rn.raft.raftLog.unstable.nextSnapshot = none
          unfold Unstable.nextSnapshot
          rw [pending, ite_self]
        rw [none]
        exact Nat.lt_succ_self _
    | some s =>
        have next : (p.slot rn.raft.raftLog.unstable []).snapshot = some s :=
          Unstable.nextSnapshot_eq_some.mpr ⟨pending, notYet (by rw [pending]; rfl)⟩
        rw [next]
        exact Nat.lt_succ_self _

/-- The documented order stores the whole log unless a snapshot comes with entries. -/
theorem Sound.documented_iff (sound : Sound L d false p h rn) (writes : h.writes = [])
    (steps : rn.stepsOnAdvance = []) (offers : rn.Offers rd)
    : (∃ ms, Host.storeDocumented rn.raft.raftLog.storage rd = .ok ms ∧ ms.Holds rn.raft.raftLog)
      ↔ rn.raft.raftLog.unstable.snapshot = none ∨ rn.raft.raftLog.unstable.entries = [] := by
  obtain ⟨slots, notYet⟩ := sound.idle writes steps
  have pipe := sound.piped.pipe
  constructor
  · rintro ⟨ms, stores, holds⟩
    by_contra both
    obtain ⟨pending, entries⟩ := not_or.mp both
    obtain ⟨s, pending⟩ := Option.ne_none_iff_exists'.mp pending
    have notYet := notYet (by rw [pending]; rfl)
    have newer := pipe.line.fresh s pending notYet
    rw [slots] at newer
    have last := Host.storeDocumented_snapshot stores
      (offers.snapshot.trans (Unstable.nextSnapshot_eq_some.mpr ⟨pending, notYet⟩))
      (pipe.storage.snapshot.trans_lt newer)
    have offset := (pipe.unstable.snapshot s pending).1
    rw [pipe.unstable.entries, List.drop_eq_nil_iff, offset, Nat.add_sub_cancel] at entries
    have end_ := pipe.shows.lastIndex
    have first : rn.raft.raftLog.firstIndex = s.metadata.index + 1 := by
      unfold RaftLog.firstIndex Unstable.maybeFirstIndex
      rw [pending]
      rfl
    obtain ⟨e, _, read⟩ := holds rn.raft.raftLog.lastIndex (by omega) (Nat.le_refl _)
    have read := read 0
    unfold MemoryStorage.entries at read
    have after : ¬rn.raft.raftLog.lastIndex ≤ ms.dummy.index := by
      have : ms.dummy.index ≤ ms.lastIndex := Nat.le_add_right _ _
      omega
    rw [if_neg after, if_pos (by omega)] at read
    cases read
  · intro apart
    obtain ⟨ms, stores, holds⟩ := sound.holds_store slots notYet offers [] []
    refine ⟨ms, ?_, holds⟩
    rw [Host.storeDocumented_eq _ [] [] (offers.apart apart), stores]

/-- In every state of a lifetime in which the application takes a `Ready`, the order of
the README stores the whole log without a panic exactly if there is no snapshot with
entries after it. Then it leads to the same storage as the order that is safe.
-/
theorem Launch.documented_order_iff {x : Launch} {inputs : List Input}
    (logs : ∀ t, Matched L (L t)) (prepared : x.Prepared L)
    (sync : x.setup.asyncStorageWrites = false)
    (admitted : Host.Along x.setup x.id (Host.Admits L x.setup x.id) x.host inputs)
    (node : (x.run inputs).node = some rn) (free : (x.run inputs).outstanding = false)
    (taken : rn.ready = .ok (rn', rd))
    : ((∃ ms, Host.storeDocumented rn.raft.raftLog.storage rd = .ok ms ∧ ms.Holds rn.raft.raftLog)
        ↔ rn.raft.raftLog.unstable.snapshot = none ∨ rn.raft.raftLog.unstable.entries = [])
      ∧ (rn.raft.raftLog.unstable.snapshot = none ∨ rn.raft.raftLog.unstable.entries = []
        → Host.storeDocumented rn.raft.raftLog.storage rd
          = Host.store rn.raft.raftLog.storage (Host.writeOf rd rd.messages [])) := by
  obtain ⟨⟨d, _, sound⟩, _, separate⟩ := sound_run logs prepared admitted
  rw [sync] at sound separate
  obtain ⟨p, sound⟩ := sound rn node
  have taken := (RawNode.ends_ready rn).result taken
  have steps : rn.stepsOnAdvance = [] := by
    cases taken with
    | sync mode fresh => exact fresh
    | async mode => exact absurd ((separate.mode rn node).symm.trans mode) nofun
  have offers := taken.offers
  refine ⟨sound.documented_iff (separate.free rfl free).1 steps offers, fun apart => ?_⟩
  exact Host.storeDocumented_eq _ _ _ (offers.apart apart)

end

attribute [local instance] Codec.wire

/-- One of three voters. -/
def follower : Launch :=
  { replica with setup := { replica.setup with asyncStorageWrites := false } }

/-- The logs of two leaders that differ in the second entry. -/
def restoredLogs : Nat → List Entry
  | 1 => [{ term := 1, index := 1 }, { term := 1, index := 2 }]
  | 2 => [{ term := 1, index := 1 }, { term := 2, index := 2 }, { term := 2, index := 3 }]
  | _ => []

/-- A snapshot of the first two entries of the second leader, and its third entry. -/
def snapshotThenEntry : List Input := [
  .receive {
    type := .msgSnap, toId := 1, fromId := 2, term := 2
    snapshot := some {
      data := [{ term := 1, index := 1 }, { term := 2, index := 2 }]
      metadata := { confState := { voters := [1, 2, 3] }, index := 2, term := 2 } } },
  .receive {
    type := .msgApp, toId := 1, fromId := 2, term := 2, index := 2, logTerm := 2
    entries := [{ term := 2, index := 3 }], commit := 2 }]

/-- The two entries of the first leader, which the node stores. -/
def storesEntries : List Input := [
  .receive {
    type := .msgApp, toId := 1, fromId := 3, term := 1
    entries := [{ term := 1, index := 1 }, { term := 1, index := 2 }] }] ++ handleReady 0 1

theorem restoredLogs_matched (t : Nat) : Matched restoredLogs (restoredLogs t) := by
  match t with
  | 0 => exact .nil
  | 1 => exact .of_fin (by decide)
  | 2 => exact .of_fin (by decide)
  | t + 3 => exact .nil

/-- The first entries of a node are stored in the documented order. -/
theorem documented_order_entries
    : ∃ rn rn' rd ms, (follower.run (storesEntries.take 1)).node = some rn
      ∧ rn.ready = .ok (rn', rd) ∧ rd.entries.length = 2
      ∧ Host.storeDocumented rn.raft.raftLog.storage rd = .ok ms ∧ ms.Holds rn.raft.raftLog := by
  have ready : (follower.run (storesEntries.take 1)).node.bind (fun rn => rn.ready.toOption.map
      fun res => (res.2.entries.length, rn.raft.raftLog.unstable.snapshot)) = some (2, none) := by
    decide +kernel
  obtain ⟨rn, node, ready⟩ := Option.bind_eq_some_iff.mp ready
  obtain ⟨⟨rn', rd⟩, taken, state⟩ := Option.map_eq_some_iff.mp ready
  simp only [Prod.mk.injEq] at state
  have taken := except_toOption_eq_some.mp taken
  have prepared : follower.Prepared restoredLogs :=
    ⟨⟨[], ⟨Nat.le_refl _, rfl, rfl⟩, .nil⟩, Nat.le_refl _⟩
  have admitted : Host.Along follower.setup follower.id
      (Host.Admits restoredLogs follower.setup follower.id) follower.host
      (storesEntries.take 1) := by
    decide +kernel
  have free : (follower.run (storesEntries.take 1)).outstanding = false := by decide +kernel
  obtain ⟨ms, stores, holds⟩ := (Launch.documented_order_iff restoredLogs_matched prepared rfl
    admitted node free taken).1.mpr (.inl state.2)
  exact ⟨rn, rn', rd, ms, node, taken, state.1, stores, holds⟩

/-- How the storage ends in the documented order: the last index, unless there is a panic.
-/
def Host.documentedEnd (h : Host) : Option (Option Nat) :=
  h.node.bind fun rn => rn.ready.toOption.map fun res =>
    (storeDocumented rn.raft.raftLog.storage res.2).toOption.map MemoryStorage.lastIndex

/-- If nothing is stored before the snapshot, its entry cannot be appended. After
conflicting entries it can be, and then the snapshot drops it.
-/
theorem documented_order_fails
    : Host.Along follower.setup follower.id
        (Host.Admits restoredLogs follower.setup follower.id) follower.host snapshotThenEntry
      ∧ (follower.run snapshotThenEntry).outstanding = false
      ∧ (follower.run snapshotThenEntry).documentedEnd = some none
      ∧ Host.Along follower.setup follower.id
        (Host.Admits restoredLogs follower.setup follower.id) follower.host
        (storesEntries ++ snapshotThenEntry)
      ∧ (follower.run (storesEntries ++ snapshotThenEntry)).outstanding = false
      ∧ (follower.run (storesEntries ++ snapshotThenEntry)).documentedEnd = some (some 2)
      ∧ (follower.run (storesEntries ++ snapshotThenEntry)).node.map (fun rn =>
          (rn.raft.raftLog.firstIndex, rn.raft.raftLog.lastIndex)) = some (3, 3) := by
  refine ⟨?_, ?_, ?_, ?_, ?_, ?_, ?_⟩ <;> decide +kernel

end EtcdRaft
