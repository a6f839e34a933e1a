import EtcdRaft.Runs.InRange
import EtcdRaft.Runs.Quota
import EtcdRaft.Tracking.SendLoop

/-! The flow control of every leader, for as long as it leads. It never overruns the
window of a peer, and what it knows of a peer only grows.
-/

namespace EtcdRaft

section

variable [Codec] {L : Nat → List Entry} {d : Version} {async : Bool} {p : Pipeline}
  {m : Message}
  {h h' : Host} {rn rn' : RawNode}

-----------------------------------------------------------------------------------------
-- No panic of the flow control
-----------------------------------------------------------------------------------------

namespace RaftLog

variable {l : RaftLog}

/-- The call does not fail with a panic of the flow control. -/
abbrev Calm {α : Type} (x : Result α) : Prop := Ends x (fun _ => True) fun p => p.overrun = false

omit [Codec] in
theorem calm_of_sane {α : Type} {x : Result α} {post : α → Prop} (sane : Ends x post Sane)
    : Calm x :=
  sane.mono (fun _ _ => trivial) fun _ sane => (Bool.or_eq_false_iff.mp sane).2

omit [Codec] in
theorem calm_commitTo (l : RaftLog) (i : Nat) : Calm (l.commitTo i) := by
  unfold commitTo
  exact Ends.ite (fun _ => Ends.ite (fun _ => rfl) fun _ => trivial) fun _ => trivial

omit [Codec] in
theorem calm_append (l : RaftLog) (es : List Entry) : Calm (l.append es) := by
  unfold append
  split
  · exact trivial
  refine Ends.ite (fun _ => rfl) fun _ => Ends.bind (q := fun _ => True) ?_ fun _ _ => trivial
  unfold Unstable.truncateAndAppend
  refine Ends.ite (fun _ => trivial) fun _ => Ends.ite (fun _ => trivial) fun _ => ?_
  exact Ends.bind (calm_of_sane ((Unstable.ends_slice _ _ _).mono (fun _ h => h)
    fun _ => Panic.sane_of_read)) fun _ _ => trivial

omit [Codec] in
theorem calm_maybeAppend (l : RaftLog) (a : LogSlice) (k : Nat)
    : Calm (l.maybeAppend a k) := by
  unfold maybeAppend appendConflict
  refine Ends.ite (fun _ => trivial) fun _ => Ends.bind (q := fun _ => True) ?_ fun l _ =>
    Ends.bind (l.calm_commitTo _) fun _ _ => trivial
  refine Ends.ite (fun _ => trivial) fun _ => Ends.ite (fun _ => rfl) fun _ => ?_
  exact Ends.ite (fun _ => rfl) fun _ => l.calm_append _

theorem calm_misread {p : Panic} (misread : l.Misread p) : p.overrun = false := by
  cases misread with
  | slice lo hi maxSize fails =>
      exact (calm_of_sane (l.sane_slice lo hi maxSize)).failure fails
  | lastEntryID fails => exact (calm_of_sane l.sane_lastEntryID).failure fails

omit [Codec] in
theorem calm_stored (l : RaftLog) (current : Bool) (m : Message)
    : Calm (l.stored current m) := by
  unfold stored
  dsimp only
  split
  · exact trivial
  · exact calm_of_sane (sane_appliedTo _ _ _)

end RaftLog

/-- None of the calls that can fail at a log fails in the flow control. -/
theorem Corrupt.calm {c : Core} {p : Panic} (corrupt : Corrupt m c p)
    : p.overrun = false := by
  cases corrupt with
  | accept type follower term above fails =>
      exact (RaftLog.calm_maybeAppend _ _ _).failure fails
  | heartbeat type follower term fails => exact (RaftLog.calm_commitTo _ _).failure fails
  | fastForward type follower term newer holds fails =>
      exact (RaftLog.calm_commitTo _ _).failure fails
  | commit leads fails =>
      have calm : RaftLog.Calm
          (c.raftLog.maybeCommit { term := c.term, index := c.committedIndex }) := by
        unfold RaftLog.maybeCommit
        exact Ends.ite (fun _ => Ends.bind (RaftLog.calm_commitTo _ _) fun _ _ => trivial)
          fun _ => trivial
      exact calm.failure fails
  | append leads es fails => exact (RaftLog.calm_append _ _).failure fails
  | read misread => exact RaftLog.calm_misread misread
  | readAppended c' appends misread => exact RaftLog.calm_misread misread
  | stored type current fails => exact (RaftLog.calm_stored _ _ _).failure fails
  | applied type e last size fails =>
      exact (RaftLog.calm_of_sane (RaftLog.sane_appliedTo _ _ _)).failure fails

theorem Fails.calm {now : Nat} {c : Core} {p : Panic} (fails : Fails now m c p)
    : p.overrun = false := by
  cases overrun : p.overrun with
  | false => rfl
  | true =>
      obtain ⟨c', _, corrupt⟩ := fails (by rw [overrun, Bool.or_true])
      exact overrun.symm.trans corrupt.calm

/-- A failure of a running node does not come from the flow control. -/
theorem Sound.trips_calm {arrives : Message → Prop} {p' : Panic}
    (ok : Sound L d async p h rn) (trips : h.Trips async arrives rn p')
    : p'.overrun = false := by
  cases trips with
  | call fails remote termed source =>
      obtain ⟨now, cfg, progress, fails⟩ := fails.exists_fails termed
      exact fails.calm
  | answerAppend answer fails popped =>
      obtain ⟨rest, done, _⟩ := ok.done_of_pops answer popped
      have older := (ok.piped.pipe.resps.done _ (done ▸ List.mem_cons_self)).term.1
      rw [ok.piped.term] at older
      obtain ⟨current, now, settles⟩ := Raft.settles_stored answer.type answer.term older
      rcases settles.failure fails with bad | ⟨l, stores, fails⟩
      · exact (RaftLog.calm_stored _ _ _).failure bad
      · exact fails.calm
  | @answerApply m answer fails queued idle =>
      cases last : m.entries.getLast? with
      | none =>
          have nothing := List.getLast?_eq_none_iff.mp last
          cases (Raft.step_applied_nothing answer.type answer.term nothing).symm.trans fails
      | some e =>
          rcases (Raft.settles_applied answer.type answer.term last).failure fails with
            bad | ⟨l, applies, fails⟩
          · exact (RaftLog.calm_of_sane (RaftLog.sane_appliedTo _ _ _)).failure bad
          · exact fails.calm
  | ready fails => exact (RaftLog.calm_of_sane rn.ends_ready).failure fails
  | other benign => exact (Bool.or_eq_false_iff.mp benign).2

omit [Codec] in
theorem Host.outcome_panic {x : Result (Host × Output)} {q : Panic → Prop} {p : Panic}
    (ends : Ends x (fun res => res.2.panic = none) q)
    (panics : (h.outcome x).2.panic = some p)
    : q p := by
  cases x with
  | ok res => exact absurd (Eq.trans (Eq.symm ends) panics) nofun
  | error p' =>
      cases panics
      exact ends

/-- The apply thread makes no use of the flow control beyond `ApplyConfChange`. -/
theorem Host.process_calm {calls : Bool} {p : Panic}
    (panics : (h.process calls).2.panic = some p)
    : p.overrun = false := by
  unfold process at panics
  split at panics
  · rename_i rn e entries response rest node queued
    refine outcome_panic (q := fun p => p.overrun = false)
      (Ends.bind (RaftLog.calm_of_sane ((Raft.benign_confChangeOf e).mono (fun _ h => h)
        fun _ => Benign.sane)) fun change _ => ?_) panics
    cases change with
    | none => exact rfl
    | some cc =>
        refine Ends.ite (fun _ => Ends.bind (q := fun _ => True) ?_ fun _ _ => rfl) fun _ => rfl
        refine Ends.bind (q := fun _ => True) (Ends.of_eq (fun _ _ => trivial) fun p fails => ?_)
          fun _ _ => trivial
        obtain ⟨now, cfg, progress, fails⟩ :=
          (Raft.CallFails.applyConfChange fails).exists_fails nofun
        exact fails.calm
  · cases panics
  · cases panics

/-- No service of a running node fails in the flow control. -/
theorem Host.Accepts.calm {σ : Setup} {id : Nat} {s : Service} {p : Panic}
    (accepts : h.Accepts L σ id s) (ordered : h.Ordered L d async)
    (node : h.node = some rn) (panics : (h.serve σ id s).2.panic = some p)
    : p.overrun = false := by
  cases s with
  | input i =>
      have source := accepts.1
      have network := source.network
      obtain ⟨_, sound⟩ := ordered.sound rn node
      exact sound.trips_calm ((@Host.goes _ σ id h i source.steady).trips ordered.termed
        ordered.separate (fun m arrived => (network m arrived).1) node panics)
  | process calls => exact process_calm panics

-----------------------------------------------------------------------------------------
-- Progress
-----------------------------------------------------------------------------------------

omit [Codec] in
/-- The snapshot in the storage covers no more than the log. -/
theorem Piped.backed {b : Books} {term : Nat} (piped : Piped L async p term b.raftLog)
    (covers : b.raftLog.storage.firstIndex ≤ b.raftLog.storage.snapshot.metadata.index + 1)
    : b.Backed := by
  refine ⟨covers, ?_⟩
  rw [piped.pipe.shows.lastIndex]
  exact piped.pipe.storage.snapshot.trans (piped.floor.trans piped.pipe.index.committed)

/-- A service keeps the flow control of a leader. -/
theorem Raft.Accounts.flows {r : Raft} {b' : Books} {heard : Message → Prop}
    {beats : ProgressState → Prop}
    {changes : ConfChangeV2 → Prop} {queue : List Entry}
    (accounts : r.Accounts L async heard beats changes b')
    (leads' : b'.state = .stateLeader)
    (piped : Piped L async p r.term r.raftLog) (settled : r.core.Settled queue)
    (covers : r.raftLog.storage.firstIndex ≤ r.raftLog.storage.snapshot.metadata.index + 1)
    (hears : r.state = .stateLeader → r.books.Hears heard)
    (ok : r.state = .stateLeader → r.books.Flows)
    : b'.Flows := by
  cases accounts with
  | @leads p' l b size leads advances piped' duties books kept =>
      subst books
      have last : l.lastIndex = r.raftLog.lastIndex := by
        rw [piped'.pipe.shows.lastIndex, piped.pipe.shows.lastIndex, ← piped'.logical.lastIndex,
          ← piped.logical.lastIndex, advances.logical]
      have flows : { r.books with raftLog := l }.Flows := (ok leads).mono rfl last.ge
      suffices b.Flows from this
      rcases kept with storage | rfl
      · have grounded : { r.books with raftLog := l }.Grounded p'.log :=
          piped'.grounded (advances.snapshot (settled.snapshot (.inr leads)))
        have backed : { r.books with raftLog := l }.Backed :=
          piped'.backed (storage ▸ covers)
        refine flows.duties duties leads' grounded backed fun m heard type accepts => ?_
        exact (hears leads m heard type accepts).trans last.ge
      · exact flows
  | @reconfigures cc config progress leads may changed duties =>
      have grounded : { r.books with config := config, progress := progress }.Grounded p.log :=
        piped.grounded (settled.snapshot (.inr leads))
      have backed : { r.books with config := config, progress := progress }.Backed :=
        piped.backed covers
      exact ((ok leads).configure changed).duties duties leads' grounded backed (hears leads)
  | @risen own candidate found duties =>
      have grounded : (r.books.takenOver own).Grounded p.log :=
        piped.grounded (settled.snapshot (.inl (.inr candidate)))
      have backed : (r.books.takenOver own).Backed := piped.backed covers
      exact (r.books.flows_takenOver own).duties duties leads' grounded backed
        fun _ heard => heard.elim

/-- A service lowers the matched index of no peer that stays tracked. -/
theorem Raft.Accounts.match_le {r : Raft} {b' : Books} {heard : Message → Prop}
    {beats : ProgressState → Prop}
    {changes : ConfChangeV2 → Prop} {id : Nat} {pr pr' : Progress}
    (accounts : r.Accounts L async heard beats changes b')
    (leads : r.state = .stateLeader) (leads' : b'.state = .stateLeader)
    (stays : r.trk.config.voters.incoming.contains id = true ∨ ∀ cc, changes cc → ¬cc.Removes id)
    (found : r.trk.progress.get? id = some pr) (found' : b'.progress.get? id = some pr')
    : pr.match ≤ pr'.match := by
  cases accounts with
  | leads _ advances piped duties books =>
      subst books
      obtain ⟨pr₀, found₀, rises⟩ := Books.match_le_duties duties leads' found'
      cases found.symm.trans found₀
      exact rises
  | @reconfigures cc config progress _ may changed duties =>
      obtain ⟨pr₁, found₁, rises⟩ := Books.match_le_duties duties leads' found'
      have stays : r.trk.config.voters.incoming.contains id = true ∨ ¬cc.Removes id :=
        stays.imp_right fun stays => stays cc may
      obtain ⟨_, rfl⟩ := changedConfig_stays changed found found₁ stays
      exact rises
  | risen candidate => exact absurd (candidate.symm.trans leads) nofun

/-- The flow control of a peer is coherent: the window is empty unless entries are
streamed, and then holds increasing indexes between those that the peer has and the next
one that is sent.
-/
structure Progress.Coherent (pr : Progress) : Prop where
  ahead : pr.match < pr.next
  count : pr.inflights.count = pr.inflights.contents.length
  idle : pr.state ≠ .stateReplicate → pr.inflights.contents = []
  increasing : pr.inflights.contents.Pairwise fun m m' => m.index < m'.index
  inFlight : ∀ m ∈ pr.inflights.contents, pr.match < m.index ∧ m.index ≤ pr.next - 1
  newest : ∀ m, pr.inflights.contents.getLast? = some m → m.index = pr.next - 1
  pending : pr.state ≠ .stateSnapshot → pr.pendingSnapshot = 0

omit [Codec] in
theorem Progress.Flows.coherent {pr : Progress} {last : Nat} {queue : List Inflight}
    (flows : pr.Flows last queue)
    : pr.Coherent := by
  have contents := flows.window.contents
  refine ⟨flows.ahead, ?_, ?_, ?_, ?_, ?_, flows.pending⟩ <;> rw [contents]
  · exact flows.window.count
  · exact flows.idle
  · exact flows.window.ordered
  · intro m member
    have below := flows.below member
    exact ⟨flows.above m member, by omega⟩
  · intro m newest
    have next := flows.newest m newest
    omega

namespace Host

/-- The storage has a snapshot of what it has compacted, and the peers of a leader
acknowledge only what there is.
-/
def Feeds (h : Host) (s : Service) : Prop :=
  ∀ rn ∈ h.node,
    rn.raft.raftLog.storage.firstIndex ≤ rn.raft.raftLog.storage.snapshot.metadata.index + 1
    ∧ (rn.raft.state = .stateLeader → ∀ m ∈ h.handled rn s, m.type = .msgAppResp → m.reject = false
      → m.index ≤ rn.raft.raftLog.lastIndex)

/-- The service calls `ApplyConfChange` for a change that removes the peer `id`. -/
def Removes (h : Host) (s : Service) (id : Nat) : Prop :=
  s.calls = true ∧ ∃ e ∈ h.nextEntry, ∃ cc, Raft.confChangeOf e = .ok (some cc) ∧ cc.Removes id

end Host

/-- What a node that may lead relies on. -/
structure RawNode.Flows (rn : RawNode) : Prop where
  settled : rn.raft.core.Settled []
  leader : rn.raft.state = .stateLeader → rn.raft.books.Flows

theorem RawNode.Flows.serve {σ : Setup} {id : Nat} {s : Service} (ok : rn.Flows)
    (logs : ∀ t, Matched L (L t)) (ordered : h.Ordered L d async)
    (accepts : h.Accepts L σ id s) (feeds : h.Feeds s) (node : h.node = some rn)
    (node' : (h.serve σ id s).1.node = some rn')
    : rn'.Flows := by
  obtain ⟨p, sound⟩ := ordered.sound rn node
  obtain ⟨p', sound'⟩ := (ordered.serve logs accepts).sound rn' node'
  obtain ⟨rn₁, arrives, node₁, network, turns, _⟩ := accepts.turns ordered node'
  cases node.symm.trans node₁
  refine ⟨turns.settled logs network sound ok.settled, fun leads' => ?_⟩
  obtain ⟨covers, hears⟩ := feeds rn node
  exact ((accepts.driven ordered node node').accounts sound sound' leads').flows leads' sound.piped
    ok.settled covers hears ok.leader

namespace Launch

variable {x : Launch} {services : List Service}

/-- The flow control is in order along a run. -/
theorem flows_serve (logs : ∀ t, Matched L (L t)) (prepared : x.Prepared L)
    (served : Host.Served x.setup x.id
      (fun h s => h.Accepts L x.setup x.id s ∧ h.Feeds s) x.host services)
    : ∃ d, (x.serve services).Ordered L d x.setup.asyncStorageWrites
      ∧ ∀ rn, (x.serve services).node = some rn → rn.Flows := by
  obtain ⟨d, _, start⟩ := host_ordered prepared
  have begins (rn : RawNode) (up : x.Up rn x.host) : rn.Flows := by
    refine ⟨.of_follower up.started.state (List.forall_mem_nil _), fun leads => ?_⟩
    cases up.started.state.symm.trans leads
  refine ⟨⟨x.disk.hardState.term, d⟩, serve_invariant (p := fun _ rn => rn.Flows) logs start served
    (fun _ _ => And.left) begins ?_⟩
  rintro h s rn rn' ordered ⟨accepts, feeds⟩ node node' flows
  exact flows.serve logs ordered accepts feeds node node'

/-- A leader can send entries to every other peer that it tracks, as long as the storage
has a snapshot of what it has compacted.
-/
theorem canSend (logs : ∀ t, Matched L (L t))
    (valid : ∀ t,
      ({ term := t, prev := { term := 0, index := 0 }, entries := L t } : LogSlice).valid
      = .ok ())
    (prepared : x.Prepared L)
    (served : Host.Served x.setup x.id
      (fun h s => h.Accepts L x.setup x.id s ∧ h.Feeds s) x.host services)
    (node : (x.serve services).node = some rn) (leads : rn.raft.state = .stateLeader)
    (covers : rn.raft.raftLog.storage.firstIndex
      ≤ rn.raft.raftLog.storage.snapshot.metadata.index + 1)
    {id : Nat} {pr : Progress} (apart : id ≠ rn.raft.id)
    (tracked : rn.raft.trk.progress.get? id = some pr)
    : rn.raft.CanSend id pr := by
  obtain ⟨d, ordered, flows⟩ := flows_serve logs prepared served
  obtain ⟨settled, flows⟩ := flows rn node
  obtain ⟨p, sound⟩ := ordered.sound rn node
  have increasing : EtcdRaft.Ordered p.log :=
    (ordered_of_valid (valid _)).1.of_isPrefix sound.piped.pipe.line.current.whole
  have stable : rn.raft.raftLog.unstable.snapshot = none := settled.snapshot (.inr leads)
  have first : rn.raft.raftLog.firstIndex = rn.raft.raftLog.storage.firstIndex := by
    simp [RaftLog.firstIndex, Unstable.maybeFirstIndex, stable]
  have snapshot : rn.raft.raftLog.snapshot = rn.raft.raftLog.storage.snapshot := by
    simp [RaftLog.snapshot, stable]
  refine ⟨sound.piped.wellFormed increasing, ?_, apart, tracked, flows leads id pr tracked⟩
  rw [first, snapshot]
  exact covers

/-- As long as a node leads, the flow control of every peer is coherent. No service fails
in the flow control or lowers the matched index of a peer that stays tracked, unless it
applies a change that removes a peer that is no voter.
-/
theorem progress_coherent (logs : ∀ t, Matched L (L t)) (prepared : x.Prepared L)
    (served : Host.Served x.setup x.id
      (fun h s => h.Accepts L x.setup x.id s ∧ h.Feeds s) x.host services)
    (node : (x.serve services).node = some rn) (leads : rn.raft.state = .stateLeader)
    : (∀ id pr, rn.raft.trk.progress.get? id = some pr → pr.Coherent)
      ∧ ∀ s, (x.serve services).Accepts L x.setup x.id s →
        ((x.serve services).serve x.setup x.id s).2.panic ≠ some .inflightsFull
        ∧ ((x.serve services).serve x.setup x.id s).2.panic ≠ some .sendingInUnhandledState
        ∧ ∀ rn', ((x.serve services).serve x.setup x.id s).1.node = some rn'
          → rn'.raft.state = .stateLeader → ∀ id pr pr', rn.raft.trk.progress.get? id = some pr
          → rn'.raft.trk.progress.get? id = some pr'
          → rn.raft.trk.config.voters.incoming.contains id = true ∨ ¬(x.serve services).Removes s id
          → pr.match ≤ pr'.match := by
  obtain ⟨d, ordered, flows⟩ := flows_serve logs prepared served
  refine ⟨fun id pr found => ?_, fun s accepts => ?_⟩
  · obtain ⟨queue, flow⟩ := (flows rn node).leader leads id pr found
    exact flow.coherent
  · have calm {p : Panic} (overrun : p.overrun = true)
        : ((x.serve services).serve x.setup x.id s).2.panic ≠ some p := fun panics =>
      absurd ((accepts.calm ordered node panics).symm.trans overrun) nofun
    refine ⟨calm rfl, calm rfl, fun rn' node' leads' id pr pr' found found' stays => ?_⟩
    obtain ⟨p, sound⟩ := Host.Ordered.sound ordered rn node
    obtain ⟨p', sound'⟩ := (Host.Ordered.serve ordered logs accepts).sound rn' node'
    have accounts := (accepts.driven ordered node node').accounts sound sound' leads'
    refine accounts.match_le leads leads' (stays.imp_right fun stays cc applies removes => ?_) found
      found'
    obtain ⟨e, next, decoded⟩ := applies.next
    exact stays ⟨applies.may, e, next, cc, decoded, removes⟩

end Launch

instance (h : Host) (s : Service) : Decidable (h.Feeds s) :=
  inferInstanceAs (Decidable (∀ rn ∈ h.node,
    rn.raft.raftLog.storage.firstIndex ≤ rn.raft.raftLog.storage.snapshot.metadata.index + 1
    ∧ (rn.raft.state = .stateLeader → ∀ m ∈ h.handled rn s, m.type = .msgAppResp → m.reject = false
      → m.index ≤ rn.raft.raftLog.lastIndex)))

end

attribute [local instance] Codec.wire

/-- The other voter has the first entry of the term, and the next one is on its way. -/
def streaming : List Service := [
  .input (.event .campaign), .input (.event .ready), .input (.event .persist),
  .input (.receive { type := .msgVoteResp, toId := 1, fromId := 1, term := 1 }),
  .input (.receive { type := .msgVoteResp, toId := 1, fromId := 2, term := 1 }),
  .input (.receive { type := .msgAppResp, toId := 1, fromId := 2, term := 1, index := 1 }),
  .input (.event (.propose [7]))]

/-- The other voter acknowledges that entry. -/
def acknowledges : Service :=
  .input (.receive { type := .msgAppResp, toId := 1, fromId := 2, term := 1, index := 2 })

theorem progress_coherent_streaming
    : ∃ rn rn' pr pr', (pair.serve streaming).node = some rn
      ∧ ((pair.serve streaming).serve pair.setup pair.id acknowledges).1.node = some rn'
      ∧ rn.raft.trk.progress.get? 2 = some pr ∧ rn'.raft.trk.progress.get? 2 = some pr'
      ∧ pr.inflights.contents.map (·.index) = [2] ∧ pr.Coherent ∧ pr.match ≤ pr'.match := by
  have before : (pair.serve streaming).node.map (fun rn => (rn.raft.state,
      (rn.raft.trk.progress.get? 2).map (·.inflights.contents.map (·.index))))
        = some (.stateLeader, some [2]) := by
    decide +kernel
  have after : ((pair.serve streaming).serve pair.setup pair.id acknowledges).1.node.map (fun rn =>
      (rn.raft.state, (rn.raft.trk.progress.get? 2).isSome)) = some (.stateLeader, true) := by
    decide +kernel
  obtain ⟨rn, node, before⟩ := Option.map_eq_some_iff.mp before
  obtain ⟨rn', node', after⟩ := Option.map_eq_some_iff.mp after
  simp only [Prod.mk.injEq] at before after
  obtain ⟨pr, found, window⟩ := Option.map_eq_some_iff.mp before.2
  obtain ⟨pr', found'⟩ := Option.isSome_iff_exists.mp after.2
  have prepared : pair.Prepared firstProposal :=
    ⟨⟨[], ⟨Nat.le_refl _, rfl, rfl⟩, .nil⟩, Nat.le_refl _⟩
  have served : Host.Served pair.setup pair.id (fun h s =>
      h.Accepts firstProposal pair.setup pair.id s ∧ h.Feeds s) pair.host streaming := by
    decide +kernel
  have accepts : (pair.serve streaming).Accepts firstProposal pair.setup pair.id acknowledges := by
    decide +kernel
  obtain ⟨coherent, further⟩ :=
    Launch.progress_coherent firstProposal_matched prepared served node before.1
  have rises := (further acknowledges accepts).2.2 rn' node' after.1 2 pr pr' found found'
    (.inr fun removes => absurd removes.1 nofun)
  exact ⟨rn, rn', pr, pr', node, node', found, found', window, coherent 2 pr found, rises⟩

/-- One of two voters, with a learner. -/
def tutor : Launch :=
  { pair with
    setup := {
      boot := { confState := { voters := [1, 2], learners := [3] } }, asyncStorageWrites := true }
    disk := { snapshot := { metadata := { confState := { voters := [1, 2], learners := [3] } } } }
    confs := [(0, { voters := [1, 2], learners := [3] })] }

/-- The change that removes the learner and adds it again. -/
def rejoin : Entry where
  type := .entryConfChangeV2
  data := [0x08, 0, 0x12, 4, 0x08, 1, 0x10, 3, 0x12, 4, 0x08, 3, 0x10, 3]

/-- The log of the only leader, with that change. -/
def rejoinLog : Nat → List Entry
  | 1 => [{ term := 1, index := 1 }, { rejoin with term := 1, index := 2 }]
  | _ => []

/-- The change is stored by all, committed and handed out. -/
def rejoins : List Service := [
  .input (.event .campaign), .input (.event .ready), .input (.event .persist),
  .input (.receive { type := .msgVoteResp, toId := 1, fromId := 1, term := 1 }),
  .input (.receive { type := .msgVoteResp, toId := 1, fromId := 2, term := 1 }),
  .input (.receive { type := .msgProp, toId := 1, fromId := 2, entries := [rejoin] }),
  .input (.event .ready), .input (.event .persist),
  .input (.receive { type := .msgAppResp, toId := 1, fromId := 1, term := 1, index := 2 }),
  .input (.receive { type := .msgAppResp, toId := 1, fromId := 2, term := 1, index := 2 }),
  .input (.receive { type := .msgAppResp, toId := 1, fromId := 3, term := 1, index := 2 }),
  .input (.event .appendResp), .input (.event .ready), .process true]

/-- When the application handles the change, the matched index of the learner drops to
zero.
-/
theorem rejoin_lowers_match
    : Host.Served tutor.setup tutor.id (fun h s =>
        h.Accepts rejoinLog tutor.setup tutor.id s ∧ h.Feeds s) tutor.host
        (rejoins ++ [.process true])
      ∧ (tutor.serve rejoins).node.map (fun rn =>
          (rn.raft.state, (rn.raft.trk.progress.get? 3).map (·.match)))
            = some (.stateLeader, some 2)
      ∧ (tutor.serve (rejoins ++ [.process true])).node.map (fun rn =>
          (rn.raft.state, (rn.raft.trk.progress.get? 3).map (·.match)))
        = some (.stateLeader, some 0) := by
  refine ⟨?_, ?_, ?_⟩ <;> decide +kernel

end EtcdRaft
