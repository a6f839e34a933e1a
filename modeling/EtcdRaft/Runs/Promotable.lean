import EtcdRaft.Cluster.ApplyThread
import EtcdRaft.Membership.Dropped
import EtcdRaft.Runs.Campaigns
import EtcdRaft.Runs.LogicalLogs

/-! Elections of a node whose application follows `doc.go`. A candidate is a voter of its
own configuration, as long as `ApplyConfChange` is not called for entries that a snapshot
has overtaken.
-/

namespace EtcdRaft

section

variable [Codec]

namespace Host

variable {σ : Setup} {id : Nat} {takes : Prop} {arrives : Message → Prop}
  {async calls : Bool}
  {h h' : Host} {rn rn' : RawNode}

-----------------------------------------------------------------------------------------
-- What has been handed out
-----------------------------------------------------------------------------------------

/-- The entries that have been handed out and not been handled. -/
def unhandled (h : Host) : List Entry := h.batches.flatMap Batch.entries

omit [Codec] in
theorem unhandled_eq {entries : List Entry} {response : List Message} {rest : List Batch}
    (queued : h.batches = ⟨entries, response⟩ :: rest)
    : h.unhandled = entries ++ rest.flatMap Batch.entries := by
  unfold unhandled
  rw [queued, List.flatMap_cons]

omit [Codec] in
/-- The application has handled one entry. -/
theorem mem_unhandled_of_pop {e e' : Entry} {entries : List Entry}
    {response : List Message}
    {rest : List Batch} (queued : h.batches = ⟨e' :: entries, response⟩ :: rest)
    (queued' : h'.batches = ⟨entries, response⟩ :: rest) (member : e ∈ h'.unhandled)
    : e ∈ h.unhandled := by
  rw [unhandled_eq queued'] at member
  rw [unhandled_eq queued]
  exact List.mem_cons_of_mem _ member

omit [Codec] in
theorem mem_asyncBatches {e : Entry} {committed : List Entry}
    {append : Option StorageMessage}
    (member : e ∈ (asyncBatches (rn.readyOf committed append)).flatMap Batch.entries)
    : e ∈ committed := by
  unfold asyncBatches RawNode.readyOf at member
  dsimp only at member
  split at member
  · cases member
  · rename_i m request
    split at request
    · cases request
      simpa [newStorageApplyMsg] using member
    · cases request

/-- Only a `Ready` hands out entries. -/
theorem Moves.unhandled {now : Nat} {out : Output} {e : Entry}
    (moves : Moves σ id now arrives h out h') (node : h.node = some rn)
    (node' : h'.node = some rn') (member : e ∈ h'.unhandled)
    : e ∈ h.unhandled ∨ ∃ rd, rn.Taken rn' rd ∧ e ∈ rd.committedEntries := by
  cases moves with
  | handle handles =>
      obtain ⟨source, up, steps⟩ := handles
      cases source <;> exact .inl member
  | refuse source refused => cases source <;> exact .inl member
  | fail failure => cases node'
  | start down known starts => cases down.symm.trans node
  | crash k =>
      have stopped : (h.crash k).1.node = none := by
        unfold Host.crash
        dsimp only
        split <;> rfl
      cases stopped.symm.trans node'
  | tick up ticks => exact .inl member
  | readySync up free sync taken =>
      cases node.symm.trans up
      cases node'
      unfold unhandled at member
      rw [List.flatMap_append, List.flatMap_singleton] at member
      exact (List.mem_append.mp member).imp_right fun new => ⟨_, rn.ends_ready.result taken, new⟩
  | readyAsync up free isAsync taken =>
      cases node.symm.trans up
      cases node'
      unfold unhandled at member
      rw [List.flatMap_append] at member
      refine (List.mem_append.mp member).imp_right fun new => ⟨_, rn.ends_ready.result taken, ?_⟩
      cases rn.ends_ready.result taken with
      | sync isSync => exact absurd (isSync.symm.trans isAsync) Bool.false_ne_true
      | async => exact mem_asyncBatches new
  | @persist _ w rest ms up queued stored =>
      unfold Host.persisted at member
      obtain ⟨app, confs, same⟩ := Host.installed_eq _ w.snapshot
      rw [same] at member
      exact .inl member
  | skip up queued old => exact .inl (mem_unhandled_of_pop queued rfl member)
  | apply up queued new normal => exact .inl (mem_unhandled_of_pop queued rfl member)
  | applyConfChange up queued new decoded applied =>
      exact .inl (mem_unhandled_of_pop queued rfl member)
  | finish up queued =>
      rw [unhandled_eq queued]
      exact .inl member
  | createSnapshot up applied durable known created => exact .inl member
  | compact up applied compacted => exact .inl member

theorem Goes.unhandled {out : Output} {e : Entry} (goes : Goes σ id arrives h out h')
    (node : h.node = some rn) (node' : h'.node = some rn') (member : e ∈ h'.unhandled)
    : e ∈ h.unhandled ∨ ∃ rd, rn.Taken rn' rd ∧ e ∈ rd.committedEntries := by
  cases goes with
  | once once down =>
      cases once with
      | idle => exact .inl member
      | one moves => exact moves.unhandled node node' member
  | release handled => exact .inl member
  | own handles =>
      obtain ⟨⟨up, queued, released⟩, _, _⟩ := handles
      exact .inl member
  | ownFails fails => cases node'

-----------------------------------------------------------------------------------------
-- The apply thread
-----------------------------------------------------------------------------------------

/-- What the apply thread does with the next entry. -/
inductive Processes (calls : Bool) (h : Host) : Host → Prop where
  | idle : Processes calls h h
  | fail : Processes calls h h.stop
  | finish {rn : RawNode} {response : List Message} {rest : List Batch} (node : h.node = some rn)
      (queued : h.batches = ⟨[], response⟩ :: rest)
    : Processes calls h { h with batches := rest, applied := h.applied ++ response }
  | pass {rn : RawNode} {e : Entry} {entries : List Entry} {response : List Message}
      {rest : List Batch} (node : h.node = some rn)
      (queued : h.batches = ⟨e :: entries, response⟩ :: rest) (app : List Entry)
    : Processes calls h { h with batches := ⟨entries, response⟩ :: rest, app := app }
  | call {rn : RawNode} {r : Raft} {cs : ConfState} {e : Entry} {entries : List Entry}
      {response : List Message} {rest : List Batch} {cc : ConfChangeV2}
      (node : h.node = some rn) (queued : h.batches = ⟨e :: entries, response⟩ :: rest)
      (decoded : Raft.confChangeOf e = .ok (some cc)) (may : calls = true)
      (applied : rn.raft.applyConfChange cc = .ok (r, cs)) (app : List Entry)
    : Processes calls h { h with
        node := some { rn with raft := r }
        batches := ⟨entries, response⟩ :: rest
        app := app
        confs := (e.index, cs) :: h.confs }

theorem processes (h : Host) (calls : Bool) : Processes calls h (h.process calls).1 := by
  unfold process
  split
  · rename_i rn e entries response rest node queued
    dsimp only
    cases decoded : Raft.confChangeOf e with
    | error p => exact .fail
    | ok change =>
        cases change with
        | none => exact .pass node queued _
        | some cc =>
            cases calls with
            | false => exact .pass node queued _
            | true =>
                dsimp only [except_ok_bind]
                unfold RawNode.applyConfChange
                cases applied : rn.raft.applyConfChange cc with
                | error p => exact .fail
                | ok res => exact .call node queued decoded rfl applied _
  · exact .finish ‹_› ‹_›
  · exact .idle

namespace Processes

theorem termed (processes : Processes calls h h') (ok : h.Termed) : h'.Termed := by
  cases processes with
  | idle => exact ok
  | fail => exact .stop h
  | finish node queued => exact ok.finish queued
  | pass node queued app => exact { ok.withEntries queued with }
  | call node queued decoded may applied app =>
      exact { (ok.withEntries queued).applyConfChange node applied with }

theorem separate (processes : Processes calls h h') (ok : h.Separate async)
    : h'.Separate async := by
  cases processes with
  | idle => exact ok
  | fail => exact .stop h
  | finish node queued => exact ok.finish queued
  | pass node queued app => exact ok.withEntries queued
  | call node queued decoded may applied app =>
      exact (ok.withEntries queued).withRaft node _

/-- A running node whose next entry is handled. -/
theorem turns (processes : Processes calls h h') (node' : h'.node = some rn')
    : ∃ rn, h.node = some rn
      ∧ Turns takes (calls = true ∧ h.Calls h') async arrives h rn h' rn' := by
  cases processes with
  | idle => exact ⟨rn', node', .rest rfl rfl rfl⟩
  | fail => cases node'
  | finish node queued =>
      refine ⟨rn', node', .rest rfl rfl ?_⟩
      exact @applyResps_apply _ _ _ _ [] _ _ queued (.inr ⟨rfl, rfl⟩)
  | pass node queued app =>
      exact ⟨rn', node', .rest rfl rfl (applyResps_apply queued (.inl ⟨rfl, rfl⟩))⟩
  | call node queued decoded may applied app =>
      cases node'
      refine ⟨_, node, .call (.applyConfChange applied ⟨may, ?_⟩) rfl nofun
        (by rintro (app | snap) <;> contradiction) rfl rfl ?_ rfl⟩
      · exact ⟨_, _, _, _, _, queued, rfl, decoded⟩
      · exact applyResps_apply queued (.inl ⟨rfl, rfl⟩)

theorem unhandled {e : Entry} (processes : Processes calls h h')
    (member : e ∈ h'.unhandled)
    : e ∈ h.unhandled := by
  cases processes with
  | idle => exact member
  | fail => cases member
  | finish node queued =>
      rw [unhandled_eq queued]
      exact member
  | pass node queued app => exact mem_unhandled_of_pop queued rfl member
  | call node queued decoded may applied app =>
      exact mem_unhandled_of_pop queued rfl member

end Processes

-----------------------------------------------------------------------------------------
-- The invariant
-----------------------------------------------------------------------------------------

/-- The node, if it runs, campaigns and leads only as it may. -/
def Qualified (h : Host) : Prop := ∀ rn, h.node = some rn → rn.raft.core.Qualified h.unhandled

/-- The next of the entries that have been handed out, if the application handles it now.
-/
def nextEntry (h : Host) : Option Entry :=
  match h.batches with
  | ⟨e :: _, _⟩ :: _ => some e
  | _ => none

/-- A change of the configuration that the application handles next is one that the node
has not applied.
-/
def Timely (h : Host) : Prop :=
  ∀ rn ∈ h.node, ∀ e ∈ h.nextEntry, e.isConfChange = true → rn.raft.raftLog.applied < e.index

omit [Codec] in
theorem nextEntry_eq {e : Entry} {entries : List Entry} {response : List Message}
    {rest : List Batch} (queued : h.batches = ⟨e :: entries, response⟩ :: rest)
    : h.nextEntry = some e := by
  unfold nextEntry
  rw [queued]

/-- The entry for which `ApplyConfChange` is called is the next one. -/
theorem Calls.exists_next (calls : h.Calls h')
    : ∃ e ∈ h.unhandled, h.nextEntry = some e ∧ e.isConfChange = true := by
  obtain ⟨e, cc, entries, response, rest, queued, _, decoded⟩ := calls
  refine ⟨e, ?_, nextEntry_eq queued, Raft.confChangeOf_some decoded⟩
  rw [unhandled_eq queued]
  exact List.mem_cons_self

/-- A change of the configuration that the application handles in time. -/
theorem Timely.exists_new (timely : h.Timely) (node : h.node = some rn)
    (calls : h.Calls h')
    : ∃ e ∈ h.unhandled, e.isConfChange = true ∧ rn.raft.raftLog.applied < e.index := by
  obtain ⟨e, member, next, isChange⟩ := calls.exists_next
  exact ⟨e, member, isChange, timely rn node e next isChange⟩

/-- A node that campaigns has no change of its configuration to apply. -/
theorem Qualified.idle (ok : h.Qualified) (timely : h.Timely) (node : h.node = some rn)
    (calls : h.Calls h')
    : ¬rn.raft.core.Campaigns := by
  obtain ⟨e, member, isChange, new⟩ := timely.exists_new node calls
  intro campaigns
  exact absurd (((ok rn node).isConfChange campaigns member new).symm.trans isChange) nofun

variable {L : Nat → List Entry} {d : Version}

/-- A turn of the node keeps the invariant. -/
theorem Qualified.turns {changes : Prop} (ok : h.Qualified) (logs : ∀ t, Matched L (L t))
    (sound : h.Sound L d async) (network : ∀ m, arrives m → m.OfLeader L)
    (node : h.node = some rn) (turns : Turns takes changes async arrives h rn h' rn')
    (change : changes → ¬rn.raft.core.Campaigns)
    (handed : ∀ e ∈ h'.unhandled, e ∈ h.unhandled
      ∨ ∃ rd, rn.Taken rn' rd ∧ e ∈ rd.committedEntries)
    : rn'.raft.core.Qualified h'.unhandled := by
  obtain ⟨p, sound⟩ := sound rn node
  have ok := turns.qualified logs network sound change (ok rn node)
  refine { ok with handed := fun e member => ?_ }
  rcases handed e member with old | ⟨rd, taken, new⟩
  · exact ok.handed e old
  · exact taken.handed sound e new

/-- An input other than `apply` does not call `ApplyConfChange`. -/
theorem not_calls {i : Input} (steady : ∀ e, i = .event e → e.steady = true)
    (other : i ≠ .event .apply) (node' : (h.input σ id i).1.node = some rn')
    : ¬h.Calls (h.input σ id i).1 := by
  rintro ⟨e, cc, entries, response, rest, queued, queued', _⟩
  rcases queues_input steady with down | queues
  · cases down.symm.trans node'
  · have kept := queues.batches other
    rw [queued, queued', List.cons_prefix_cons] at kept
    have same : e :: entries = entries := congrArg Batch.entries kept.1
    exact absurd (congrArg List.length same) (by simp)

theorem Ordered.process (ok : h.Ordered L d async) (logs : ∀ t, Matched L (L t))
    (leads : (h.process calls).1.Leads L)
    : (h.process calls).1.Ordered L d async := by
  have processes := h.processes calls
  refine ⟨fun rn' node' => ?_, processes.termed ok.termed, processes.separate ok.separate⟩
  obtain ⟨rn, node, turns⟩ :=
    @Processes.turns _ True (fun _ => False) async _ _ _ _ processes node'
  obtain ⟨p, sound⟩ := ok.sound rn node
  exact sound.turns logs (ok.termed.core rn node) (ok.separate.mode rn node) nofun
    (leads rn' node') turns

-----------------------------------------------------------------------------------------
-- Whole lifetimes
-----------------------------------------------------------------------------------------

/-- A service in a cluster with the logs `L`. -/
def Accepts (L : Nat → List Entry) (σ : Setup) (id : Nat) (h : Host) : Service → Prop
  | .input i => h.Admits L σ id i
  | .process calls => (h.process calls).1.Leads L

/-- Where `ApplyConfChange` may be called, the entry is one that the node has not applied.
-/
def InTime (h : Host) (s : Service) : Prop := s.calls = true → h.Timely

/-- Every service is admitted by `ok` at the host it reaches. -/
def Served (σ : Setup) (id : Nat) (ok : Host → Service → Prop) : Host → List Service → Prop
  | _, [] => True
  | h, s :: rest => ok h s ∧ Served σ id ok (h.serve σ id s).1 rest

theorem Ordered.serve {s : Service} (ok : h.Ordered L d async)
    (logs : ∀ t, Matched L (L t)) (accepts : h.Accepts L σ id s)
    : (h.serve σ id s).1.Ordered L d async := by
  cases s with
  | input i => exact ok.input logs accepts
  | process calls => exact ok.process logs accepts

/-- Every service turns a running node. -/
theorem Accepts.turns {s : Service} (accepts : h.Accepts L σ id s)
    (ordered : h.Ordered L d async) (node' : (h.serve σ id s).1.node = some rn')
    : ∃ rn arrives, h.node = some rn ∧ (∀ m, arrives m → m.OfLeader L)
      ∧ Turns True (s.calls = true ∧ h.Calls (h.serve σ id s).1) async arrives h rn
        (h.serve σ id s).1 rn'
      ∧ ∀ e ∈ (h.serve σ id s).1.unhandled, e ∈ h.unhandled
        ∨ ∃ rd, rn.Taken rn' rd ∧ e ∈ rd.committedEntries := by
  cases s with
  | input i =>
      have source := accepts.1
      have network := source.network
      have goes := @Host.goes _ σ id h i source.steady
      have applies (calls : h.Calls (h.input σ id i).1) : i = .event .apply := by
        by_contra other
        exact not_calls source.steady other node' calls
      obtain ⟨rn, node, turns⟩ := @Goes.turns _ σ id True
        ((Service.input i).calls = true ∧ h.Calls (h.input σ id i).1) _ _ _ _ _ _ goes
        ordered.termed ordered.separate (fun m arrived => (network m arrived).1) node'
        (fun _ => trivial) fun calls => ⟨applies calls ▸ rfl, calls⟩
      exact ⟨rn, _, node, fun m arrived => (network m arrived).2, turns,
        fun e member => goes.unhandled node node' member⟩
  | process calls =>
      have processes := h.processes calls
      obtain ⟨rn, node, turns⟩ :=
        @Processes.turns _ True (fun _ => False) async _ _ _ _ processes node'
      exact ⟨rn, _, node, nofun, turns, fun e member => .inl (processes.unhandled member)⟩

/-- An admitted service keeps the invariant, if `ApplyConfChange` is called in time. -/
theorem Qualified.serve {s : Service} (ok : h.Qualified) (logs : ∀ t, Matched L (L t))
    (ordered : h.Ordered L d async) (accepts : h.Accepts L σ id s) (inTime : h.InTime s)
    : (h.serve σ id s).1.Qualified := by
  intro rn' node'
  obtain ⟨rn, arrives, node, network, turns, handed⟩ := accepts.turns ordered node'
  exact ok.turns logs ordered.sound network node turns
    (fun ⟨may, calls⟩ => ok.idle (inTime may) node calls) handed

instance (L : Nat → List Entry) (σ : Setup) (id : Nat) (h : Host) (s : Service)
    : Decidable (h.Accepts L σ id s) :=
  match s with
  | .input i => inferInstanceAs (Decidable (h.Admits L σ id i))
  | .process calls => inferInstanceAs (Decidable ((h.process calls).1.Leads L))

omit [Codec] in
instance (h : Host) : Decidable h.Timely :=
  inferInstanceAs (Decidable (∀ rn ∈ h.node, ∀ e ∈ h.nextEntry,
    e.isConfChange = true → rn.raft.raftLog.applied < e.index))

omit [Codec] in
instance (h : Host) (s : Service) : Decidable (h.InTime s) :=
  inferInstanceAs (Decidable (s.calls = true → h.Timely))

instance decidableServed (σ : Setup) (id : Nat) (ok : Host → Service → Prop)
    [∀ h s, Decidable (ok h s)] : ∀ h services, Decidable (Served σ id ok h services)
  | _, [] => inferInstanceAs (Decidable True)
  | h, s :: rest =>
      have := decidableServed σ id ok (h.serve σ id s).1 rest
      inferInstanceAs (Decidable (ok h s ∧ Served σ id ok (h.serve σ id s).1 rest))

/-- What every admitted service preserves holds all the time. -/
theorem Served.preserves {ok : Host → Service → Prop} {p : Host → Prop}
    {services : List Service} (served : Served σ id ok h services) (start : p h)
    (step : ∀ {h s}, p h → ok h s → p (h.serve σ id s).1)
    : p (services.foldl (fun h s => (h.serve σ id s).1) h) := by
  induction services generalizing h with
  | nil => exact start
  | cons s rest ih => exact ih served.2 (step start served.1)

end Host

namespace Launch

variable {L : Nat → List Entry} {x : Launch} {services : List Service}

omit [Codec] in
theorem Up.qualified {rn : RawNode} {h : Host} (up : x.Up rn h) : h.Qualified := by
  intro rn' node
  cases up.node.symm.trans node
  refine (Core.Settled.of_follower up.started.state ?_).qualified fun campaigns =>
    absurd campaigns (Core.not_campaigns (.inl up.started.state))
  unfold Host.unhandled
  rw [up.batches]
  exact List.forall_mem_nil _

omit [Codec] in
/-- A node that is tracked in its own configuration can take over. -/
theorem exists_takeLeadership {r : Raft} {acked : Nat} {learner : Bool}
    (tracked : r.core.progress r.id = some (acked, learner))
    : ∃ r', r.takeLeadership = .ok r' := by
  have kept : (r.reset r.term).core.progress r.id = some (r.raftLog.lastIndex, learner) := by
    rw [Raft.core_reset]
    show (r.core.progress r.id).map (fun pr => (if r.id = r.id then _ else 0, pr.2)) = _
    rw [tracked, Option.map_some, if_pos rfl]
    rfl
  obtain ⟨pr, found, _⟩ := Option.map_eq_some_iff.mp kept
  have self : (r.reset r.term).id = r.id := congrArg Core.id (Raft.core_reset r r.term)
  unfold Raft.takeLeadership
  dsimp only
  split
  · rename_i none
    rw [self] at none
    exact absurd (none.symm.trans found) nofun
  · exact ⟨_, rfl⟩

/-- The invariant rule for lifetimes: what holds of a node that has just started and is
preserved by every service of a host that is in order holds all the time.
-/
theorem serve_invariant {p : Host → RawNode → Prop} {ok : Host → Service → Prop}
    {d : Version}
    (logs : ∀ t, Matched L (L t)) (start : x.host.Ordered L d x.setup.asyncStorageWrites)
    (served : Host.Served x.setup x.id ok x.host services)
    (accepts : ∀ h s, ok h s → h.Accepts L x.setup x.id s)
    (begins : ∀ rn, x.Up rn x.host → p x.host rn)
    (step : ∀ h s rn rn', h.Ordered L d x.setup.asyncStorageWrites → ok h s → h.node = some rn
      → (h.serve x.setup x.id s).1.node = some rn' → p h rn → p (h.serve x.setup x.id s).1 rn')
    : (x.serve services).Ordered L d x.setup.asyncStorageWrites
      ∧ ∀ rn, (x.serve services).node = some rn → p (x.serve services) rn := by
  refine served.preserves (p := fun h => h.Ordered L d x.setup.asyncStorageWrites
    ∧ ∀ rn, h.node = some rn → p h rn) ⟨start, fun rn node => begins rn (up_of_node node)⟩ ?_
  rintro h s ⟨ordered, holds⟩ admitted
  have accepted := accepts h s admitted
  refine ⟨ordered.serve logs accepted, fun rn' node' => ?_⟩
  obtain ⟨rn, _, node, _⟩ := accepted.turns ordered node'
  exact step h s rn rn' ordered admitted node node' (holds rn node)

/-- Candidates are tracked as voters in their own configuration, nobody who campaigns or
leads waits for a snapshot, and a candidate that wins can take over.
-/
theorem campaigns_promotable {rn : RawNode} (logs : ∀ t, Matched L (L t))
    (prepared : x.Prepared L)
    (served : Host.Served x.setup x.id
      (fun h s => h.Accepts L x.setup x.id s ∧ h.InTime s) x.host services)
    (node : (x.serve services).node = some rn)
    : (rn.raft.state = .statePreCandidate ∨ rn.raft.state = .stateCandidate
        → (∃ pr, rn.raft.trk.progress.get? rn.raft.id = some pr ∧ pr.isLearner = false)
          ∧ rn.raft.raftLog.unstable.snapshot = none ∧ ∃ r, rn.raft.takeLeadership = .ok r)
      ∧ (rn.raft.state = .stateLeader → rn.raft.raftLog.unstable.snapshot = none) := by
  obtain ⟨d, _, start⟩ := host_ordered prepared
  have begins : x.host.Qualified := fun rn node => (up_of_node node).qualified rn node
  obtain ⟨_, qualified⟩ := served.preserves
    (p := fun h => h.Ordered L ⟨x.disk.hardState.term, d⟩ x.setup.asyncStorageWrites ∧ h.Qualified)
    ⟨start, begins⟩ <| by
      rintro h s ⟨ordered, qualified⟩ ⟨accepts, inTime⟩
      exact ⟨ordered.serve logs accepts, qualified.serve logs ordered accepts inTime⟩
  have ok := qualified rn node
  refine ⟨fun campaigns => ?_, ok.leader⟩
  obtain ⟨⟨acked, tracked⟩, none, _⟩ := ok.candidate campaigns
  obtain ⟨pr, found, same⟩ := Option.map_eq_some_iff.mp tracked
  exact ⟨⟨pr, found, congrArg Prod.snd same⟩, none, exists_takeLeadership tracked⟩

end Launch

end

attribute [local instance] Codec.wire

/-- The leader of the first term removes node 1 and adds it again. -/
def returning : Nat → List Entry
  | 1 => [
      { term := 1, index := 1 },
      { term := 1, index := 2, type := .entryConfChange, data := [0x10, 1, 0x18, 1] },
      { term := 1, index := 3, type := .entryConfChange, data := [0x10, 0, 0x18, 1] }]
  | _ => []

theorem returning_matched (t : Nat) : Matched returning (returning t) := by
  match t with
  | 0 => exact .nil
  | 1 => exact .of_fin (by decide)
  | t + 2 => exact .nil

theorem replica_prepared_returning : replica.Prepared returning :=
  ⟨⟨[], ⟨Nat.le_refl _, rfl, rfl⟩, .nil⟩, Nat.le_refl _⟩

/-- The node applies both changes and campaigns then. -/
def rejoined : List Service := [
  .input (.receive {
    type := .msgApp, toId := 1, fromId := 2, term := 1, entries := returning 1, commit := 3 }),
  .input (.event .ready), .input (.event .persist), .input (.event .appendResp),
  .input (.event .ready), .process true, .process true, .process true, .process true,
  .input (.event .applyResp), .input (.event .campaign)]

theorem campaigns_promotable_rejoined
    : ∃ rn, (replica.serve rejoined).node = some rn ∧ rn.raft.state = .stateCandidate
      ∧ (∃ pr, rn.raft.trk.progress.get? rn.raft.id = some pr ∧ pr.isLearner = false)
      ∧ rn.raft.raftLog.unstable.snapshot = none ∧ ∃ r, rn.raft.takeLeadership = .ok r := by
  have state : (replica.serve rejoined).node.map (fun rn => rn.raft.state)
      = some .stateCandidate := by
    decide +kernel
  obtain ⟨rn, node, candidate⟩ := Option.map_eq_some_iff.mp state
  have served : Host.Served replica.setup replica.id (fun h s =>
      h.Accepts returning replica.setup replica.id s ∧ h.InTime s) replica.host rejoined := by
    decide +kernel
  exact ⟨rn, node, candidate, (Launch.campaigns_promotable returning_matched
    replica_prepared_returning served node).1 (.inr candidate)⟩

/-- A snapshot with both changes overtakes the first one, which has been handed out. The
node campaigns, and then the application handles the change.
-/
def overtaken : List Service := [
  .input (.receive {
    type := .msgApp, toId := 1, fromId := 2, term := 1, entries := (returning 1).take 2
    commit := 2 }),
  .input (.event .ready), .input (.event .persist), .input (.event .appendResp),
  .input (.event .ready),
  .input (.receive {
    type := .msgSnap, toId := 1, fromId := 2, term := 1
    snapshot := some {
      data := returning 1
      metadata := { confState := { voters := [1, 2, 3] }, index := 3, term := 1 } } }),
  .input (.event .ready), .input (.event .persist), .input (.event .appendResp),
  .input (.event .campaign), .process true, .process true]

/-- The others vote for the candidate. -/
def elected : List Service := [
  .input (.event .ready), .input (.event .persist),
  .input (.receive { type := .msgVoteResp, toId := 1, fromId := 2, term := 2 })]

/-- The candidate is no longer in its own configuration, and fails when it wins. -/
theorem overtaken_candidate
    : Host.Served replica.setup replica.id (Host.Accepts returning replica.setup replica.id)
        replica.host (overtaken ++ elected)
      ∧ (replica.serve overtaken).node.map (fun rn =>
          (rn.raft.state, (rn.raft.trk.progress.get? rn.raft.id).isSome))
        = some (.stateCandidate, false)
      ∧ ((replica.serve (overtaken ++ elected)).serve replica.setup replica.id (.input (.receive
          { type := .msgVoteResp, toId := 1, fromId := 3, term := 2 }))).2.panic
        = some .runtimeError := by
  refine ⟨?_, ?_, ?_⟩ <;> decide +kernel

end EtcdRaft
