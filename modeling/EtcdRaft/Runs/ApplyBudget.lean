import EtcdRaft.Refinement.Slices
import EtcdRaft.Runs.Deliveries
import EtcdRaft.Runs.Pipelines
import Mathlib.Algebra.Order.BigOperators.Group.List
import Mathlib.Algebra.Order.Group.Nat

/-! The budget for the entries that are handed out and not yet acknowledged. The node
keeps their total size, and stops handing out entries while there is no room.
-/

namespace EtcdRaft

/-- What a change of the log that is no acknowledgement of the state machine does to the
budget: `appliedTo` for a snapshot may set the flag anew.
-/
structure Loads (l l' : RaftLog) : Prop where
  limit : l'.maxApplyingEntsSize = l.maxApplyingEntsSize
  size : l'.applyingEntsSize = l.applyingEntsSize
  paused : l'.applyingEntsPaused = l.applyingEntsPaused
    ∨ l'.applyingEntsPaused = decide (l.maxApplyingEntsSize ≤ l.applyingEntsSize)

theorem Keeps.loads {l l' : RaftLog} (keeps : Keeps l l') : Loads l l' :=
  ⟨keeps.limit, keeps.size, .inl keeps.paused⟩

theorem Loads.trans {l₁ l₂ l₃ : RaftLog} (first : Loads l₁ l₂) (second : Loads l₂ l₃)
    : Loads l₁ l₃ where
  limit := second.limit.trans first.limit
  size := second.size.trans first.size
  paused := by
    rcases second.paused with same | anew
    · rw [same]
      exact first.paused
    · rw [first.limit, first.size] at anew
      exact .inr anew

section

variable [Codec]

-----------------------------------------------------------------------------------------
-- Steps
-----------------------------------------------------------------------------------------

theorem Act.loads {now : Nat} {m : Message} {c c' : Core} (act : Act now m c c')
    (other : m.type ≠ .msgStorageApplyResp)
    : Loads c.raftLog c'.raftLog := by
  cases stored : m.type.isStored with
  | false => exact (act.keeps stored).loads
  | true =>
      cases act with
      | commit leads raftLog commits => exact (Keeps.maybeCommit commits).loads
      | accept type => rw [type] at stored; cases stored
      | heartbeat type => rw [type] at stored; cases stored
      | fastForward type => rw [type] at stored; cases stored
      | restore type => rw [type] at stored; cases stored
      | stored type current term raftLog stores =>
          have kept := RaftLog.stored_ok stores
          exact ⟨kept.limit, kept.size, kept.paused⟩
      | applied type => exact absurd type other
      | _ => exact (Keeps.refl _).loads

theorem Acts.loads {now : Nat} {m : Message} {c c' : Core} (acts : Acts now m c c')
    (other : m.type ≠ .msgStorageApplyResp)
    : Loads c.raftLog c'.raftLog := by
  induction acts with
  | refl => exact (Keeps.refl _).loads
  | tail _ act ih => exact ih.trans (act.loads other)

theorem Steps.loads {now : Nat} {m : Message} {c c' : Core} (steps : Steps now m c c')
    (other : m.type ≠ .msgStorageApplyResp)
    : Loads c.raftLog c'.raftLog := by
  obtain ⟨c₁, acts, rfl | ⟨c₂, appends, new, rfl, sends⟩⟩ := steps
  · exact Acts.loads acts other
  · obtain ⟨leads, es, nonempty, index, proposal, source, raftLog, appends⟩ := appends
    exact (Acts.loads acts other).trans (Keeps.append appends).loads

theorem Raft.Called.loads {r r' : Raft} {changes : Prop} {m : Message}
    (called : r.Called changes m r')
    (termed : m.type.termed = true → m.term ≠ 0) (other : m.type ≠ .msgStorageApplyResp)
    : Loads r.raftLog r'.raftLog := by
  obtain ⟨now, cfg, progress, steps⟩ := called.exists_steps termed
  exact steps.loads other

-----------------------------------------------------------------------------------------
-- The budget
-----------------------------------------------------------------------------------------

/-- The total size of the entries that `resps` acknowledge. -/
def respsSize (resps : List Message) : Nat := (resps.map fun m => entsSize m.entries).sum

/-- The size that the log keeps is that of the entries whose acknowledgements, `resps`,
are still to come, and there is room unless the log is paused.
-/
structure Budget (limit : Nat) (l : RaftLog) (resps : List Message) : Prop where
  bound : l.maxApplyingEntsSize = limit
  size : l.applyingEntsSize = respsSize resps
  nonempty : ∀ m ∈ resps, m.entries ≠ []
  room : l.applyingEntsPaused = false → l.applyingEntsSize < limit
  free : resps = [] → l.applyingEntsPaused = false

namespace Budget

variable {limit : Nat} {l l' : RaftLog} {resps : List Message}

theorem loads (ok : Budget limit l resps) (positive : 0 < limit) (loads : Loads l l')
    : Budget limit l' resps where
  bound := loads.limit.trans ok.bound
  size := loads.size.trans ok.size
  nonempty := ok.nonempty
  room := by
    rw [loads.size]
    rcases loads.paused with same | anew
    · rw [same]
      exact ok.room
    · rw [anew, ok.bound]
      intro running
      exact Nat.lt_of_not_le (of_decide_eq_false running)
  free := by
    intro none
    rcases loads.paused with same | anew
    · rw [same]
      exact ok.free none
    · have size : l.applyingEntsSize = 0 := by
        rw [ok.size, none]
        rfl
      rw [anew, ok.bound, size]
      exact decide_eq_false (by omega)

/-- The oldest of the batches is acknowledged. -/
theorem applied {m : Message} {i : Nat} (ok : Budget limit l (m :: resps))
    (positive : 0 < limit) (applies : l.appliedTo i (entsSize m.entries) = .ok l')
    : Budget limit l' resps := by
  have size : l.applyingEntsSize - entsSize m.entries = respsSize resps := by
    rw [ok.size]
    exact Nat.add_sub_cancel_left _ _
  rw [RaftLog.appliedTo_eq applies, size]
  exact {
    bound := ok.bound
    size := rfl
    nonempty := fun m' member => ok.nonempty m' (List.mem_cons_of_mem _ member)
    room := by
      show decide (l.maxApplyingEntsSize ≤ respsSize resps) = false → _
      rw [ok.bound]
      exact fun running => Nat.lt_of_not_le (of_decide_eq_false running)
    free := by
      rintro rfl
      show decide (l.maxApplyingEntsSize ≤ 0) = false
      rw [ok.bound]
      exact decide_eq_false (by omega) }

/-- Entries are handed out. -/
theorem handOut {rn : RawNode} {committed : List Entry}
    (ok : Budget limit rn.raft.raftLog resps)
    (accepts : rn.handedOutLog committed = .ok l)
    : Budget limit l (resps ++ rn.applyAnswers committed) := by
  unfold RawNode.handedOutLog at accepts
  unfold RawNode.applyAnswers
  cases last : committed.getLast? with
  | none =>
      rw [last] at accepts
      cases accepts
      rw [List.getLast?_eq_none_iff.mp last]
      simpa using { ok with }
  | some e =>
      have some : committed ≠ [] := fun none => by simp [none] at last
      rw [last] at accepts
      rw [if_pos (List.length_pos_iff.mpr some)]
      dsimp only at accepts
      unfold RaftLog.acceptApplying at accepts
      split at accepts
      · cases accepts
      cases accepts
      refine ⟨ok.bound, ?_, ?_, ?_, fun none => absurd none (by simp)⟩
      · show rn.raft.raftLog.applyingEntsSize + _ = _
        rw [ok.size]
        simp [respsSize, newStorageApplyRespMsg]
      · exact List.forall_mem_append.mpr ⟨ok.nonempty, List.forall_mem_singleton.mpr some⟩
      · intro running
        have running := (Bool.or_eq_false_iff.mp running).1
        have below := Nat.lt_of_not_le (of_decide_eq_false running)
        exact below.trans_eq ok.bound

/-- Every input of a running node keeps the budget. -/
theorem turns {takes changes : Prop} {async : Bool} {arrives : Message → Prop}
    {h h' : Host} {rn rn' : RawNode}
    (ok : Budget limit rn.raft.raftLog (h.applyResps rn)) (positive : 0 < limit)
    (turns : h.Turns takes changes async arrives rn h' rn')
    : Budget limit rn'.raft.raftLog (h'.applyResps rn') := by
  cases turns with
  | rest writes appended applied =>
      rw [applied]
      exact ok
  | @call m r steps called remote termed source writes appended applied own =>
      have other : m.type ≠ .msgStorageApplyResp := fun type => by
        rw [type] at remote
        cases remote
      have loads := called.loads termed other
      have resps : h'.applyResps { rn with raft := r, stepsOnAdvance := steps } = h.applyResps rn :=
        applied
      rw [resps]
      exact ok.loads positive loads
  | @answerAppend m r err steps answer handled popped writes applied =>
      have other : m.type ≠ .msgStorageApplyResp := fun type => by
        have := answer.type.symm.trans type
        cases this
      have loads := (Raft.called_step handled).loads (fun _ => answer.term) other
      have resps : h'.applyResps { rn with raft := r, stepsOnAdvance := steps } = h.applyResps rn :=
        applied
      rw [resps]
      exact ok.loads positive loads
  | @answerApply m r err steps answer handled popped writes appended applied =>
      rw [applied] at ok
      show Budget limit r.raftLog (h'.applyResps { rn with stepsOnAdvance := steps })
      rcases Raft.step_applied answer.type answer.term handled with
        ⟨_, none⟩ | ⟨e, l, _, applies, rest⟩
      · exact absurd none (ok.nonempty m List.mem_cons_self)
      · exact (ok.applied positive applies).loads positive (rest.loads nofun)
  | ready taken writes appended applied =>
      rw [applied]
      cases taken with
      | sync mode fresh appliable answers accepts => exact ok.handOut accepts
      | async mode appliable request accepts => exact ok.handOut accepts
  | @persist w ms queued stored appended applied =>
      rw [show h'.applyResps (Host.setStorage rn ms) = h.applyResps rn from applied]
      exact { ok with }
  | @createSnapshot i cs data ms below created writes appended applied =>
      rw [show h'.applyResps (Host.setStorage rn ms) = h.applyResps rn from applied]
      exact { ok with }
  | @compact i ms below compacted writes appended applied =>
      rw [show h'.applyResps (Host.setStorage rn ms) = h.applyResps rn from applied]
      exact { ok with }

/-- There is room for another entry, unless the log is paused. -/
theorem nextCommittedEnts (ok : Budget limit l resps) (allowUnstable : Bool)
    (max size : Nat)
    : l.nextCommittedEnts allowUnstable ≠ .error (.applyingSizeNotPositive max size) := by
  intro fails
  rw [RaftLog.nextCommittedEnts_eq] at fails
  split at fails
  · rename_i next
    have running : l.applyingEntsPaused = false := by
      by_contra paused
      simp [RaftLog.hasNextCommittedEnts, paused] at next
    have below := ok.room running
    have room : sub64 l.maxApplyingEntsSize l.applyingEntsSize ≠ 0 := by
      rw [ok.bound, sub64_of_le below.le]
      omega
    rw [if_neg room] at fails
    have reads := l.ends_slice (l.applying + 1) (l.maxAppliableIndex allowUnstable + 1)
      (sub64 l.maxApplyingEntsSize l.applyingEntsSize)
    cases read : l.slice (l.applying + 1) (l.maxAppliableIndex allowUnstable + 1)
        (sub64 l.maxApplyingEntsSize l.applyingEntsSize) with
    | error p =>
        rw [read] at fails
        cases fails
        cases reads.failure read
    | ok page =>
        rw [read] at fails
        cases page <;> cases fails
  · cases fails

/-- A batch that is handed out keeps within the limit or is a single entry. -/
theorem handsOut {allowUnstable : Bool} {committed : List Entry}
    (ok : Budget limit l resps)
    (appliable : l.nextCommittedEnts allowUnstable = .ok committed)
    (some_ : committed ≠ [])
    : respsSize resps + entsSize committed ≤ limit ∨ committed.length = 1 := by
  have running : l.applyingEntsPaused = false := by
    by_contra paused
    rw [RaftLog.nextCommittedEnts_eq, if_neg (by simp [RaftLog.hasNextCommittedEnts, paused])]
      at appliable
    cases appliable
    exact some_ rfl
  have below := ok.room running
  rcases RaftLog.nextCommittedEnts_fits appliable with single | fits
  · have positive := List.length_pos_iff.mpr some_
    exact .inr (by omega)
  · rw [ok.bound, sub64_of_le below.le] at fits
    rw [← ok.size]
    exact .inl (by omega)

end Budget

-----------------------------------------------------------------------------------------
-- Whole lifetimes
-----------------------------------------------------------------------------------------

/-- A `Ready` hands out the next entry. -/
theorem Sound.ready_applies {L : Nat → List Entry} {d : Version} {async : Bool}
    {p : Pipeline} {h : Host} {rn : RawNode} {limit : Nat} (ok : Sound L d async p h rn)
    (budget : Budget limit rn.raft.raftLog [])
    (appliable : rn.raft.raftLog.applying
      < rn.raft.raftLog.maxAppliableIndex rn.applyUnstableEntries)
    (none : rn.raft.raftLog.unstable.snapshot = none)
    (free : rn.asyncStorageWrites = true ∨ rn.stepsOnAdvance = [])
    : ∃ rn' rd e rest, rn.ready = .ok (rn', rd) ∧ rd.committedEntries = e :: rest
      ∧ e.index = rn.raft.raftLog.applying + 1 := by
  have shows := ok.piped.pipe.shows
  have indexed := ok.piped.pipe.line.current.indexed
  have running := budget.free rfl
  obtain ⟨e, rest, read, found⟩ := shows.nextCommittedEnts_some running none
    (budget.bound ▸ budget.room running) (ok.piped.firstIndex_le_applying none)
    ok.piped.pipe.index.committed appliable
  obtain ⟨resps, answers⟩ :=
    ok.exists_storageAppendResp rn.raft.raftLog.unstable.nextSnapshot
  have parts := RawNode.ends_ready_parts answers fun _ => ok.exists_handedOutLog
  obtain ⟨⟨rn', rd⟩, taken, handedOut⟩ := parts.exists_ok fun p fails => by
    rcases fails with fails | ⟨_, sync, queued⟩
    · cases read.symm.trans fails
    · exact free.elim (fun async => absurd (async.symm.trans sync) nofun) queued
  rw [read] at handedOut
  exact ⟨rn', rd, e, rest, taken, (Except.ok.inj handedOut).symm, indexed _ e found⟩

/-- What arrives is from the network. -/
def Input.Public : Input → Prop
  | .receive m => m.Public
  | .event e => e.steady = true
  | _ => True

instance : DecidablePred Input.Public
  | .receive m => inferInstanceAs (Decidable m.Public)
  | .event e => inferInstanceAs (Decidable (e.steady = true))
  | .release => .isTrue trivial
  | .own => .isTrue trivial

omit [Codec] in
theorem Input.Public.steady {i : Input} (source : i.Public) {e : HostEvent}
    (event : i = .event e)
    : e.steady = true := by
  subst event
  exact source

omit [Codec] in
theorem Input.Public.network {i : Input} (source : i.Public) {m : Message}
    (arrived : i = .receive m)
    : m.Public := by
  subst arrived
  exact source

/-- The batches that are handed out and not acknowledged, the oldest first. The answer to
a batch carries its entries.
-/
def Host.unacknowledged (h : Host) (rn : RawNode) : List (List Entry) :=
  (h.applyResps rn).map Message.entries

namespace Launch

variable {x : Launch} {inputs : List Input} {limit : Nat}

omit [Codec] in
theorem Up.budget {rn : RawNode} {h : Host} (up : x.Up rn h) (positive : 0 < limit)
    (same : x.config.withDefaults.maxCommittedSizePerReady = limit)
    [Codec] : Budget limit rn.raft.raftLog (h.applyResps rn) := by
  have log := up.started.log
  have bound : rn.raft.raftLog.maxApplyingEntsSize = limit := log.limit.trans same
  have resps : h.applyResps rn = [] := by
    unfold Host.applyResps
    rw [up.applied, up.batches, up.steps]
    rfl
  rw [resps]
  refine ⟨bound, log.size, List.forall_mem_nil _, fun _ => by rw [log.size]; exact positive, ?_⟩
  intro _
  cases paused : rn.raft.raftLog.applyingEntsPaused with
  | false => rfl
  | true =>
      have zero := log.paused paused
      omega

/-- The budget is kept at every point of a lifetime. -/
theorem budget_run (positive : 0 < limit)
    (same : x.config.withDefaults.maxCommittedSizePerReady = limit)
    (isPublic : ∀ i ∈ inputs, i.Public)
    : (∀ rn, (x.run inputs).node = some rn
        → Budget limit rn.raft.raftLog ((x.run inputs).applyResps rn))
      ∧ (x.run inputs).Termed ∧ (x.run inputs).Separate x.setup.asyncStorageWrites := by
  have along : Host.Along x.setup x.id (fun _ i => i.Public) x.host inputs := by
    generalize x.host = h
    induction inputs generalizing h with
    | nil => trivial
    | cons i rest ih =>
        obtain ⟨first, later⟩ := List.forall_mem_cons.mp isPublic
        exact ⟨first, ih later _⟩
  refine along.preserves (p := fun h => (∀ rn, h.node = some rn
    → Budget limit rn.raft.raftLog (h.applyResps rn)) ∧ h.Termed
    ∧ h.Separate x.setup.asyncStorageWrites) ⟨?_, x.host_ok⟩ ?_
  · intro rn node
    exact (up_of_node node).budget positive same
  · rintro h i ⟨ok, termed, separate⟩ source
    have goes := @Host.goes _ x.setup x.id h i fun _ => source.steady
    have network : ∀ m, i = .receive m → m.Public := fun _ => source.network
    refine ⟨fun rn' node' => ?_, termed.goes network goes, separate.goes goes⟩
    obtain ⟨rn, node, turns⟩ := goes.turns termed separate network node' (fun _ => trivial)
      fun _ => trivial
    exact (ok rn node).turns positive turns

omit [Codec] in
theorem limit_eq (limited : 0 < x.config.maxCommittedSizePerReady)
    : x.config.withDefaults.maxCommittedSizePerReady
      = x.config.maxCommittedSizePerReady := by
  unfold Config.withDefaults
  exact if_neg (Nat.ne_of_gt limited)

/-- The apply budget is accounted exactly. At every point of a lifetime the node counts
the size of the batches that are handed out and not acknowledged; so taking back the size
of one of them leaves the others. While it is not paused there is room, and a batch that
is handed out next keeps within the limit or is a single entry.
-/
theorem applyingEntsSize_exact {rn : RawNode}
    (limited : 0 < x.config.maxCommittedSizePerReady)
    (isPublic : ∀ i ∈ inputs, i.Public) (node : (x.run inputs).node = some rn)
    : rn.raft.raftLog.maxApplyingEntsSize = x.config.maxCommittedSizePerReady
      ∧ rn.raft.raftLog.applyingEntsSize = (((x.run inputs).unacknowledged rn).map entsSize).sum
      ∧ (∀ batch ∈ (x.run inputs).unacknowledged rn,
        entsSize batch ≤ rn.raft.raftLog.applyingEntsSize)
      ∧ (rn.raft.raftLog.applyingEntsPaused = false
        → rn.raft.raftLog.applyingEntsSize < rn.raft.raftLog.maxApplyingEntsSize)
      ∧ ∀ i, i.Public → ((x.run inputs).input x.setup x.id i).2.handedOut ≠ []
        → (∃ rn', ((x.run inputs).input x.setup x.id i).1.node = some rn'
            ∧ ((x.run inputs).input x.setup x.id i).1.unacknowledged rn'
              = (x.run inputs).unacknowledged rn
                ++ [((x.run inputs).input x.setup x.id i).2.handedOut])
          ∧ (rn.raft.raftLog.applyingEntsSize
              + entsSize ((x.run inputs).input x.setup x.id i).2.handedOut
              ≤ rn.raft.raftLog.maxApplyingEntsSize
            ∨ ((x.run inputs).input x.setup x.id i).2.handedOut.length = 1) := by
  obtain ⟨budget, termed, separate⟩ := budget_run limited (limit_eq limited) isPublic
  have ok := budget rn node
  have size : rn.raft.raftLog.applyingEntsSize
      = (((x.run inputs).unacknowledged rn).map entsSize).sum := by
    rw [ok.size, Host.unacknowledged, List.map_map]
    rfl
  refine ⟨ok.bound, size, fun batch member => ?_, ok.bound ▸ ok.room, fun i source some_ => ?_⟩
  · rw [size]
    exact List.le_sum_of_mem (List.mem_map_of_mem member)
  · have goes := @Host.goes _ x.setup x.id (x.run inputs) i fun _ => source.steady
    obtain ⟨rn₁, rn', rd, up, node', taken, handedOut, resps⟩ :=
      goes.handsOut termed separate some_
    cases node.symm.trans up
    rw [handedOut] at some_ ⊢
    refine ⟨⟨rn', node', ?_⟩, ?_⟩
    · rw [Host.unacknowledged, resps, RawNode.applyAnswers, if_pos (List.length_pos_iff.mpr some_),
        List.map_append]
      rfl
    · rw [ok.bound, ok.size]
      exact ok.handsOut taken.appliable some_

/-- The apply path works for every configuration with a limit. The node never runs out of
room while it hands out entries, and when there are committed entries, no snapshot is
pending and everything handed out is acknowledged, the next `Ready` has at least one of
them.
-/
theorem ready_never_starves {rn : RawNode}
    (limited : x.config.maxCommittedSizePerReady ≠ 0 ∨ x.config.maxSizePerMsg ≠ 0)
    (isPublic : ∀ i ∈ inputs, i.Public) (node : (x.run inputs).node = some rn)
    : (∀ allowUnstable max size, rn.raft.raftLog.nextCommittedEnts allowUnstable
        ≠ .error (.applyingSizeNotPositive max size))
      ∧ ∀ L, (∀ t, Matched L (L t)) → x.Prepared L
        → Host.Along x.setup x.id (Host.Admits L x.setup x.id) x.host inputs
        → rn.raft.raftLog.applying < rn.raft.raftLog.maxAppliableIndex rn.applyUnstableEntries
        → rn.raft.raftLog.unstable.snapshot = none → (x.run inputs).applyResps rn = []
        → rn.asyncStorageWrites = true ∨ rn.stepsOnAdvance = []
        → ∃ rn' rd e rest, rn.ready = .ok (rn', rd) ∧ rd.committedEntries = e :: rest
          ∧ e.index = rn.raft.raftLog.applying + 1 := by
  have positive : 0 < x.config.withDefaults.maxCommittedSizePerReady := by
    unfold Config.withDefaults
    dsimp only
    split <;> omega
  have budget := (budget_run positive rfl isPublic).1 rn node
  refine ⟨budget.nextCommittedEnts, ?_⟩
  intro L logs prepared admitted appliable none acknowledged free
  obtain ⟨⟨d, _, sound⟩, _⟩ := sound_run logs prepared admitted
  obtain ⟨p, ok⟩ := sound rn node
  rw [acknowledged] at budget
  exact ok.ready_applies budget appliable none free

end Launch

end

attribute [local instance] Codec.wire

/-- The node is elected and commits the entry of its term. -/
def firstCommit : List Input := [.event .campaign] ++ handleReady 0 1 ++ handleReady 0 2

/-- A node whose messages have one entry at most, with the default for what a `Ready`
hands out.
-/
def oneEntryPerMessage : Launch :=
  { loneVoter with config := { loneVoter.config with maxSizePerMsg := 0 } }

/-- Such a node panics as soon as it is to hand out an entry. -/
theorem oneEntryPerMessage_starves
    : (oneEntryPerMessage.config.validate.toOption.isSome
        ∧ ∀ i ∈ firstCommit, i.Public)
      ∧ ∃ rn, (oneEntryPerMessage.run firstCommit).node = some rn
        ∧ rn.raft.raftLog.nextCommittedEnts rn.applyUnstableEntries
          = .error (.applyingSizeNotPositive 0 0) := by
  refine ⟨⟨by decide, by simp [firstCommit, handleReady, Input.Public, HostEvent.steady]⟩, ?_⟩
  have fails : (oneEntryPerMessage.run firstCommit).node.map (fun rn =>
      (rn.raft.raftLog.nextCommittedEnts rn.applyUnstableEntries).failure?)
        = some (some (.applyingSizeNotPositive 0 0)) := by
    decide +kernel
  obtain ⟨rn, node, fails⟩ := Option.map_eq_some_iff.mp fails
  exact ⟨rn, node, except_failure_eq_some.mp fails⟩

/-- The log of the only leader. -/
def firstLog (t : Nat) : List Entry := if t = 1 then [{ term := 1, index := 1 }] else []

theorem firstLog_matched (t : Nat) : Matched firstLog (firstLog t) := by
  by_cases first : t = 1
  · subst first
    exact .of_fin (by decide)
  · rw [firstLog, if_neg first]
    exact .nil

/-- With a limit it hands out the entry. -/
theorem ready_never_starves_loneVoter
    : ∃ rn rn' rd, (loneVoter.run firstCommit).node = some rn ∧ rn.ready = .ok (rn', rd)
      ∧ ∃ e rest, rd.committedEntries = e :: rest ∧ e.index = 1 := by
  have state : (loneVoter.run firstCommit).node.map (fun rn => (rn.raft.raftLog.applying,
      rn.raft.raftLog.maxAppliableIndex rn.applyUnstableEntries,
      rn.raft.raftLog.unstable.snapshot.isSome, rn.stepsOnAdvance.length,
      ((loneVoter.run firstCommit).applyResps rn).length)) = some (0, 1, false, 0, 0) := by
    decide +kernel
  have isPublic : ∀ i ∈ firstCommit, i.Public := by
    simp [firstCommit, handleReady, Input.Public, HostEvent.steady]
  have admitted : Host.Along loneVoter.setup loneVoter.id
      (Host.Admits firstLog loneVoter.setup loneVoter.id) loneVoter.host firstCommit := by
    decide +kernel
  have prepared : loneVoter.Prepared firstLog :=
    ⟨⟨[], ⟨Nat.le_refl _, rfl, rfl⟩, .nil⟩, Nat.le_refl _⟩
  obtain ⟨rn, node, state⟩ := Option.map_eq_some_iff.mp state
  simp only [Prod.mk.injEq, List.length_eq_zero_iff, Option.isSome_eq_false_iff,
    Option.isNone_iff_eq_none] at state
  obtain ⟨applying, appliable, none, free, acknowledged⟩ := state
  obtain ⟨rn', rd, e, rest, taken, handedOut, index⟩ :=
    (Launch.ready_never_starves (.inr (by decide)) isPublic node).2 firstLog firstLog_matched
      prepared admitted (by omega) none acknowledged (.inr free)
  exact ⟨rn, rn', rd, node, taken, e, rest, handedOut, by omega⟩

/-- A node with asynchronous writes that hands out up to 12 bytes before it waits for an
answer.
-/
def twelveBytes : Launch :=
  { loneVoter with
    setup := { loneVoter.setup with asyncStorageWrites := true }
    config := { loneVoter.config with maxCommittedSizePerReady := 12 } }

/-- The entries up to `index` are stored, committed and handed out. -/
def handOut (index : Nat) : List Input := [
  .event .ready, .event .persist, .event .appendResp,
  .receive { type := .msgAppResp, toId := 1, fromId := 1, term := 1, index := index },
  .event .ready, .event .persist]

/-- The entry of the term, of 4 bytes, is handed out with a proposal of 7; one of 8 is
next.
-/
def twoBatches : List Input :=
  [.event .campaign, .event .ready, .event .persist,
    .receive { type := .msgVoteResp, toId := 1, fromId := 1, term := 1 },
    .event (.propose [7])]
  ++ handOut 2 ++ [.event (.propose [8, 9])] ++ handOut 3

/-- The application handles the first batch, and the node gets the answer. -/
def firstHandled : List Input := [.event .apply, .event .apply, .event .apply, .event .applyResp]

/-- Two batches count 19 bytes together; once the first is acknowledged, 8 bytes are left.
-/
theorem applyingEntsSize_exact_twoBatches
    : ∃ rn rn', (twelveBytes.run twoBatches).node = some rn
      ∧ rn.raft.raftLog.applyingEntsSize = 19
      ∧ (twelveBytes.run (twoBatches ++ firstHandled)).node = some rn'
      ∧ (twelveBytes.run (twoBatches ++ firstHandled)).unacknowledged rn'
        = [[{ term := 1, index := 3, data := [8, 9] }]]
      ∧ rn'.raft.raftLog.applyingEntsSize = 8 := by
  have state : (twelveBytes.run twoBatches).node.map
      (fun rn => ((twelveBytes.run twoBatches).unacknowledged rn).map entsSize)
      = some [11, 8] := by
    decide +kernel
  have state' : (twelveBytes.run (twoBatches ++ firstHandled)).node.map
      (twelveBytes.run (twoBatches ++ firstHandled)).unacknowledged
      = some [[{ term := 1, index := 3, data := [8, 9] }]] := by
    decide +kernel
  obtain ⟨rn, node, sizes⟩ := Option.map_eq_some_iff.mp state
  obtain ⟨rn', node', batches⟩ := Option.map_eq_some_iff.mp state'
  obtain ⟨_, size, _⟩ := @Launch.applyingEntsSize_exact _ twelveBytes twoBatches rn (by decide)
    (by decide +kernel) node
  obtain ⟨_, size', _⟩ := @Launch.applyingEntsSize_exact _ twelveBytes
    (twoBatches ++ firstHandled) rn' (by decide) (by decide +kernel) node'
  refine ⟨rn, rn', node, ?_, node', batches, ?_⟩
  · rw [size, sizes]
    rfl
  · rw [size', batches]
    rfl

end EtcdRaft
