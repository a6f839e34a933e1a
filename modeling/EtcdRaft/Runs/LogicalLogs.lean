import EtcdRaft.Runs.Pipelines

/-! The split of the log into a stable and an unstable part is invisible: the node reads
its logical log, and what it hands out can be stored.
-/

namespace EtcdRaft

section

namespace Launch

variable [Codec] {L : Nat → List Entry} {x : Launch} {inputs : List Input}

/-- At every point of a lifetime the entries that can be read are those of the logical
log, its end is the end of the log, and the storage takes the next write.
-/
theorem reads_logical {rn : RawNode} (logs : ∀ t, Matched L (L t))
    (prepared : x.Prepared L)
    (admitted : Host.Along x.setup x.id (Host.Admits L x.setup x.id) x.host inputs)
    (node : (x.run inputs).node = some rn)
    : (∀ i, rn.raft.raftLog.firstIndex ≤ i → i ≤ rn.raft.raftLog.lastIndex
        → ∃ e, rn.raft.raftLog.logical.entry? i = some e ∧ rn.raft.raftLog.term i = .ok e.term
          ∧ ∀ maxSize, rn.raft.raftLog.slice i (i + 1) maxSize = .ok (.ok [e]))
      ∧ rn.raft.raftLog.lastIndex = rn.raft.raftLog.logical.lastIndex
      ∧ ∀ w rest, (x.run inputs).writes = w :: rest
        → ∃ ms, Host.store rn.raft.raftLog.storage w = .ok ms := by
  obtain ⟨⟨d, _, sound⟩, _⟩ := sound_run logs prepared admitted
  obtain ⟨p, ok⟩ := sound rn node
  have shows := ok.piped.pipe.shows
  have last := shows.lastIndex
  refine ⟨fun i available present => ?_, last.trans ok.piped.logical.lastIndex.symm, ?_⟩
  · have first := rn.raft.raftLog.firstIndex_pos
    have above := ok.piped.base_lt_firstIndex
    obtain ⟨e, found⟩ : ∃ e, p.log[i - 1]? = some e :=
      ⟨_, List.getElem?_eq_getElem (by omega)⟩
    refine ⟨e, ?_, ?_, fun maxSize => shows.slice_one available found⟩
    · rw [ok.piped.logical.entry? (by omega)]
      exact found
    · have term := termAt_succ found
      rw [Nat.sub_add_cancel (by omega)] at term
      rw [shows.term (by omega) (by omega), term]
  · intro w rest queued
    obtain ⟨s, slots, first, _, _, follows, indexed⟩ := ok.oldest queued
    obtain ⟨ms, stored, _⟩ :=
      ok.piped.pipe.storage.store follows indexed first.entries first.snapshot
    exact ⟨ms, stored⟩

end Launch

end

attribute [local instance] Codec.wire

/-- One of three voters, with asynchronous writes. -/
def replica : Launch where
  setup := { boot := { confState := { voters := [1, 2, 3] } }, asyncStorageWrites := true }
  id := 1
  config := {
    id := 1
    electionTick := 10
    heartbeatTick := 1
    storage := {}
    maxSizePerMsg := 1000
    maxInflightMsgs := 256 }
  disk := { snapshot := { metadata := { confState := { voters := [1, 2, 3] } } } }
  confs := [(0, { voters := [1, 2, 3] })]

/-- One of two voters. -/
def pair : Launch :=
  { replica with
    setup := { boot := { confState := { voters := [1, 2] } }, asyncStorageWrites := true }
    disk := { snapshot := { metadata := { confState := { voters := [1, 2] } } } }
    confs := [(0, { voters := [1, 2] })] }

/-- The logs of two leaders, the second of which has not got the last entry of the first.
-/
def rivalLogs : Nat → List Entry
  | 1 => [{ term := 1, index := 1 }, { term := 1, index := 2 }]
  | 2 => [{ term := 1, index := 1 }, { term := 2, index := 2 }]
  | _ => []

/-- The second leader replaces an entry that is on its way to the storage and gets there.
-/
def replacement : List Input := [
  .receive {
    type := .msgApp, toId := 1, fromId := 2, term := 1
    entries := [{ term := 1, index := 1 }, { term := 1, index := 2 }] },
  .event .ready,
  .receive {
    type := .msgApp, toId := 1, fromId := 3, term := 2, index := 1, logTerm := 1
    entries := [{ term := 2, index := 2 }], commit := 1 },
  .event .ready,
  .event .persist,
  .event .appendResp]

theorem rivalLogs_matched (t : Nat) : Matched rivalLogs (rivalLogs t) := by
  match t with
  | 0 => exact .nil
  | 1 => exact .of_fin (by decide)
  | 2 => exact .of_fin (by decide)
  | t + 3 => exact .nil

theorem replica_prepared : replica.Prepared rivalLogs :=
  ⟨⟨[], ⟨Nat.le_refl _, rfl, rfl⟩, .nil⟩, Nat.le_refl _⟩

theorem replacement_admitted
    : Host.Along replica.setup replica.id (Host.Admits rivalLogs replica.setup replica.id)
        replica.host replacement := by
  decide +kernel

/-- The storage still has the entry of the first leader, the node reads that of the second
one.
-/
theorem reads_logical_replacement
    : ∃ rn, (replica.run replacement).node = some rn
      ∧ rn.raft.raftLog.storage.ents.map Entry.term = [1, 1] ∧ rn.raft.raftLog.term 2 = .ok 2 := by
  have state : (replica.run replacement).node.map (fun rn =>
      (rn.raft.raftLog.storage.ents.map Entry.term, rn.raft.raftLog.firstIndex,
        rn.raft.raftLog.lastIndex, (rn.raft.raftLog.logical.entry? 2).map Entry.term))
      = some ([1, 1], 1, 2, some 2) := by
    decide +kernel
  obtain ⟨rn, node, state⟩ := Option.map_eq_some_iff.mp state
  simp only [Prod.mk.injEq] at state
  obtain ⟨stored, first, last, logical⟩ := state
  obtain ⟨e, entry, term, _⟩ := (Launch.reads_logical rivalLogs_matched replica_prepared
    replacement_admitted node).1 2 (by omega) (by omega)
  rw [entry] at logical
  have second : e.term = 2 := Option.some.inj logical
  exact ⟨rn, node, stored, second ▸ term⟩

end EtcdRaft
