import EtcdRaft.Cluster.Lifetime
import EtcdRaft.Refinement.Piped
import EtcdRaft.Runs.Terms

/-! The transitions of a node within one lifetime, and the rule for what holds all the
time.
-/

namespace EtcdRaft

theorem MessageType.isStored_of_remote {type : MessageType}
    (remote : isLocalMsg type = false)
    : type.isStored = false := by
  cases type <;> first | rfl | cases remote

theorem MessageType.isStored_of_called {type : MessageType} (called : type.called = true)
    : type.isStored = false := by
  cases type <;> first | rfl | cases called

theorem Message.Waiting.other {m : Message} (waiting : m.Waiting)
    : m.type ≠ .msgApp ∧ m.type ≠ .msgSnap ∧ m.type.isStored = false := by
  have type := waiting.type
  revert type
  cases m.type <;> intro type <;> first | exact ⟨by decide, by decide, rfl⟩ | cases type

variable [Codec]

namespace Host

variable {σ : Setup} {id : Nat} {arrives : Message → Prop} {h : Host}

/-- What an input does to the host. A node that is down stays down. -/
inductive Goes (σ : Setup) (id : Nat) (arrives : Message → Prop) (h : Host)
    : Output → Host → Prop where
  | once {out : Output} {h' : Host} (once : Once σ id 0 arrives h out h')
      (down : h.node = none → h'.node = none)
    : Goes σ id arrives h out h'
  | release (handled : h.outstanding = true ∧ h.writes = [] ∧ h.batches = [])
    : Goes σ id arrives h {} h.released
  | own {h' : Host} (handles : Handles Own h h') : Goes σ id arrives h {} h'
  | ownFails {p : Panic} (fails : StepFails Own h p)
    : Goes σ id arrives h { panic := some p } h.stop

theorem step_down {now : Nat} {e : HostEvent} (steady : e.steady = true)
    (down : h.node = none)
    : (h.step σ id now e).1.node = none := by
  have call : ∀ f, (h.call f).1.node = none := by
    intro f
    unfold Host.call
    rw [down]
    exact down
  cases e with
  | start c => cases steady
  | crash k => cases steady
  | advance => cases steady
  | proposeConfChange type data =>
      unfold Host.step
      dsimp only
      split
      · exact call _
      · exact down
  | ready =>
      show h.ready.1.node = none
      unfold Host.ready
      rw [down]
      exact down
  | persist =>
      show (h.persist σ).1.node = none
      unfold Host.persist
      rw [down]
      exact down
  | apply =>
      show h.apply.1.node = none
      unfold Host.apply
      rw [down]
      exact down
  | appendResp =>
      show h.appendResp.1.node = none
      unfold Host.appendResp Host.stepMessage Host.call
      split
      · rw [down]
      · exact down
  | applyResp =>
      show h.applyResp.1.node = none
      unfold Host.applyResp Host.stepMessage Host.call
      split
      · rw [down]
      · exact down
  | createSnapshot i =>
      show (h.createSnapshot i).1.node = none
      unfold Host.createSnapshot
      rw [down]
      exact down
  | compact i =>
      show (h.compact i).1.node = none
      unfold Host.compact
      rw [down]
      exact down
  | _ => exact call _

theorem goes_release : Goes σ id arrives h h.release.2 h.release.1 := by
  unfold release
  split
  · rename_i handled
    simp only [Bool.and_eq_true, List.isEmpty_iff] at handled
    exact .release ⟨handled.1.1, handled.1.2, handled.2⟩
  · exact .once .idle fun down => down

/-- The node steps the next message of its own, if there is one. -/
theorem own_cases (h : Host)
    : (h.ownMessages = [] ∧ h.own = (h, {})) ∨ ∃ rn m rest, h.node = some rn
      ∧ rn.stepsOnAdvance = m :: rest ∧ (h.outstanding = false ∧ h.writes = [] ∧ h.batches = [])
      ∧ h.ownMessages = m :: rest ∧ ((∃ p, rn.raft.step m = .error p
          ∧ h.own = (h.stop, { panic := some p })) ∨ ∃ r err, rn.raft.step m = .ok (r, err)
        ∧ h.own = ({ h with node := some { rn with raft := r, stepsOnAdvance := rest } }, {})) := by
  rcases Option.eq_none_or_eq_some h.node with down | ⟨rn, node⟩
  · unfold own ownMessages
    rw [down]
    exact .inl ⟨rfl, rfl⟩
  · cases queued : h.ownMessages with
    | nil =>
        unfold own
        rw [node, queued]
        exact .inl ⟨rfl, rfl⟩
    | cons m rest =>
        have all := queued
        unfold ownMessages at all
        rw [node] at all
        dsimp only at all
        split at all
        · rename_i released
          simp only [Bool.and_eq_true, Bool.not_eq_true', List.isEmpty_iff] at released
          refine .inr ⟨rn, m, rest, node, all, ⟨released.1.1, released.1.2, released.2⟩, rfl, ?_⟩
          unfold own Host.call RawNode.stepRaft
          rw [node, queued]
          dsimp only
          cases steps : rn.raft.step m with
          | ok res => exact .inr ⟨res.1, res.2, rfl, rfl⟩
          | error p =>
              refine .inl ⟨p, rfl, ?_⟩
              show (Host.stop _, _) = (h.stop, _)
              unfold stop storage
              rw [node]
        · cases all

theorem goes_own : Goes σ id arrives h h.own.2 h.own.1 := by
  rcases h.own_cases with ⟨_, same⟩ | ⟨rn, m, rest, node, queued, released, _, handled⟩
  · rw [same]
    exact .once .idle fun down => down
  · have source : Own h m { h with node := some { rn with stepsOnAdvance := rest } } :=
      .mk node queued released
    rcases handled with ⟨p, fails, eq⟩ | ⟨r, err, steps, eq⟩
    · rw [eq]
      exact .ownFails (.mk source rfl fails)
    · rw [eq]
      exact .own (.mk source rfl steps)

/-- Every input of a lifetime goes like this. -/
theorem goes {i : Input} (steady : ∀ e, i = .event e → e.steady = true)
    : Goes σ id (fun m => i = .receive m) h (h.input σ id i).2 (h.input σ id i).1 := by
  cases i with
  | receive m =>
      refine .once (once_receive rfl) fun down => ?_
      show (h.receive 0 m).1.node = none
      unfold Host.receive Host.stepMessage Host.call
      rw [down]
      exact down
  | event e =>
      have steady := steady e rfl
      refine .once (once ?_) (step_down steady)
      rintro rfl
      cases steady
  | release => exact goes_release
  | own => exact goes_own

/-- The messages of `Advance`, one by one. -/
theorem foldl_own {rn rn' : RawNode} {r : Raft} {steps : List Message}
    (released : h.outstanding = false ∧ h.writes = [] ∧ h.batches = [])
    (stepped : steps.foldlM RawNode.stepRaft { rn with raft := r } = .ok rn')
    : (List.replicate steps.length Input.own).foldl (fun h i => (h.input σ id i).1)
        { h with node := some { rn with raft := r, stepsOnAdvance := steps } }
      = { h with node := some { rn' with stepsOnAdvance := [] } } := by
  induction steps generalizing r with
  | nil =>
      cases stepped
      rfl
  | cons m rest ih =>
      rw [List.foldlM_cons] at stepped
      obtain ⟨rn₁, first, later⟩ := except_bind_eq_ok.mp stepped
      unfold RawNode.stepRaft at first
      obtain ⟨⟨r₁, err⟩, step, eq⟩ := except_bind_eq_ok.mp first
      cases eq
      have one : ({ h with node := some { rn with raft := r, stepsOnAdvance := m :: rest } }.own).1
          = { h with node := some { rn with raft := r₁, stepsOnAdvance := rest } } := by
        unfold own ownMessages
        simp only [released, Bool.not_false, List.isEmpty_nil, Bool.and_self, ↓reduceIte]
        unfold Host.call RawNode.stepRaft
        dsimp only
        rw [step]
        rfl
      rw [List.length_cons, List.replicate_succ, List.foldl_cons]
      show List.foldl _ (Host.own _).1 _ = _
      rw [one]
      exact ih later

/-- An `Advance` that does not fail is the end of the `Ready` and a number of messages
that the node steps.
-/
theorem advance_eq (sync : ∀ rn, h.node = some rn → rn.asyncStorageWrites = false)
    (quiet : h.advance.2.panic = none)
    : ∃ n, h.advance.1 = (List.replicate n Input.own).foldl (fun h i => (h.input σ id i).1)
        h.release.1 := by
  unfold advance release at *
  split
  · rename_i handled
    rw [if_pos handled] at quiet
    simp only [Bool.and_eq_true, List.isEmpty_iff] at handled
    unfold Host.call at *
    dsimp only at *
    cases node : h.node with
    | none => exact ⟨0, by simp⟩
    | some rn =>
        rw [node] at quiet
        unfold RawNode.advance at *
        dsimp only at *
        rw [sync rn node, if_neg Bool.false_ne_true] at quiet ⊢
        cases stepped : rn.stepsOnAdvance.foldlM RawNode.stepRaft rn with
        | error p =>
            rw [stepped] at quiet
            cases quiet
        | ok rn' =>
            have folded := @foldl_own _ σ id h.released rn rn' rn.raft rn.stepsOnAdvance
              ⟨rfl, handled.1.2, handled.2⟩ stepped
            exact ⟨rn.stepsOnAdvance.length, folded.symm⟩
  · exact ⟨0, rfl⟩

/-- Messages carry their terms all the time. -/
theorem Termed.goes {out : Output} {h' : Host} (ok : h.Termed)
    (network : ∀ m, arrives m → m.Public) (goes : Goes σ id arrives h out h')
    : h'.Termed := by
  cases goes with
  | once once down =>
      cases once with
      | idle => exact ok
      | one moves => exact (ok.moves network moves).1
  | release handled => exact { ok with }
  | own handles => exact handles.termed ok.takeOwn
  | ownFails fails => exact .stop h

-----------------------------------------------------------------------------------------
-- The two modes
-----------------------------------------------------------------------------------------

/-- The answers of the apply thread that are still to come. -/
def applyResps (h : Host) (rn : RawNode) : List Message :=
  h.applied ++ h.batches.flatMap Batch.response
    ++ rn.stepsOnAdvance.filter fun m => m.type == .msgStorageApplyResp

/-- The answers of the append thread, in the order in which the node gets them. -/
def appendResps (h : Host) (rn : RawNode) : List Message :=
  h.appended ++ h.writes.flatMap Write.response
    ++ rn.stepsOnAdvance.filter fun m => m.type == .msgStorageAppendResp

omit [Codec] in
/-- Applying a batch, or some of it, does not change the answers to come. -/
theorem applyResps_apply {h' : Host} {rn : RawNode} {entries entries' : List Entry}
    {response : List Message} {rest : List Batch}
    (queued : h.batches = ⟨entries, response⟩ :: rest)
    (left : (h'.applied = h.applied ∧ h'.batches = ⟨entries', response⟩ :: rest)
      ∨ (h'.applied = h.applied ++ response ∧ h'.batches = rest))
    : h'.applyResps rn = h.applyResps rn := by
  unfold applyResps
  rw [queued]
  rcases left with ⟨applied, batches⟩ | ⟨applied, batches⟩
  · rw [applied, batches]
    rfl
  · rw [applied, batches]
    simp only [List.append_assoc, List.flatMap_cons]

omit [Codec] in
theorem mem_applyResps {h' : Host} {rn : RawNode} {entries entries' : List Entry}
    {response : List Message} {rest : List Batch}
    (queued : h.batches = ⟨entries, response⟩ :: rest)
    (left : (h'.applied = h.applied ∧ h'.batches = ⟨entries', response⟩ :: rest)
      ∨ (h'.applied = h.applied ++ response ∧ h'.batches = rest))
    : ∀ m ∈ h'.applyResps rn, m ∈ h.applyResps rn :=
  fun _ member => applyResps_apply queued left ▸ member

/-- The local threads have no answers to give. -/
structure Quiet (h : Host) : Prop where
  appended : h.appended = []
  applied : h.applied = []
  writes : ∀ w ∈ h.writes, w.response = []
  batches : ∀ b ∈ h.batches, b.response = []

/-- With asynchronous writes the node has no messages of its own to step, otherwise the
local threads do not answer and a `Ready` is handled before the next one.
-/
structure Separate (async : Bool) (h : Host) : Prop where
  mode : ∀ rn, h.node = some rn → rn.asyncStorageWrites = async
  own : async = true → ∀ rn, h.node = some rn → rn.stepsOnAdvance = []
  quiet : async = false → h.Quiet
  free : async = false → h.outstanding = false → h.writes = [] ∧ h.batches = []

namespace Separate

variable {async : Bool} {h' : Host}

omit [Codec] in
theorem of_down (down : h.node = none) (quiet : h.Quiet) (writes : h.writes = [])
    (batches : h.batches = [])
    : h.Separate async where
  mode := fun _ node => absurd (down.symm.trans node) nofun
  own := fun _ _ node => absurd (down.symm.trans node) nofun
  quiet := fun _ => quiet
  free := fun _ _ => ⟨writes, batches⟩

omit [Codec] in
theorem stop (h : Host) : h.stop.Separate async :=
  of_down rfl ⟨rfl, rfl, List.forall_mem_nil _, List.forall_mem_nil _⟩ rfl rfl

omit [Codec] in
/-- The host with another state of its node. -/
theorem withRaft {rn : RawNode} (ok : h.Separate async) (node : h.node = some rn)
    (r : Raft)
    : { h with node := some { rn with raft := r } }.Separate async := by
  have mode := ok.mode rn node
  have own := fun isAsync => ok.own isAsync rn node
  exact { ok with
    mode := by rintro _ ⟨⟩; exact mode
    own := by rintro isAsync _ ⟨⟩; exact own isAsync
    quiet := fun isSync => { ok.quiet isSync with } }

omit [Codec] in
/-- The host without the message that its node handles. -/
theorem source {now : Nat} {m : Message} (ok : h.Separate async)
    (source : Source σ now arrives h m h')
    : h'.Separate async := by
  cases source with
  | network arrived => exact ok
  | call call => exact ok
  | appended queued =>
      exact { ok with
        quiet := fun isSync => absurd (queued.symm.trans (ok.quiet isSync).appended) nofun }
  | applied queued =>
      exact { ok with
        quiet := fun isSync => absurd (queued.symm.trans (ok.quiet isSync).applied) nofun }

omit [Codec] in
/-- A batch with fewer entries. -/
theorem withEntries {entries entries' : List Entry} {response : List Message}
    {rest : List Batch}
    {app : List Entry} {confs : List (Nat × ConfState)} (ok : h.Separate async)
    (queued : h.batches = ⟨entries, response⟩ :: rest)
    : { h with batches := ⟨entries', response⟩ :: rest, app := app, confs := confs }.Separate
        async :=
  { ok with
    quiet := by
      intro isSync
      have quiet := ok.quiet isSync
      have batches := quiet.batches
      rw [queued] at batches
      exact { quiet with batches := List.forall_mem_cons.mpr (List.forall_mem_cons.mp batches) }
    free := fun isSync free => by
      have none := (ok.free isSync free).2
      rw [queued] at none
      cases none }

omit [Codec] in
/-- The first batch is acknowledged. -/
theorem finish {entries : List Entry} {response : List Message} {rest : List Batch}
    (ok : h.Separate async) (queued : h.batches = ⟨entries, response⟩ :: rest)
    : { h with batches := rest, applied := h.applied ++ response }.Separate async :=
  { ok with
    quiet := by
      intro isSync
      have quiet := ok.quiet isSync
      have batches := quiet.batches
      rw [queued] at batches
      obtain ⟨first, rest⟩ := List.forall_mem_cons.mp batches
      exact { quiet with
        applied := by
          show h.applied ++ _ = []
          rw [quiet.applied]
          exact first
        batches := rest }
    free := by
      intro isSync free
      have none := (ok.free isSync free).2
      rw [queued] at none
      cases none }

/-- Every transition of a running node keeps the mode. -/
theorem moves {now : Nat} {out : Output} (ok : h.Separate async)
    (down : h.node = none → h'.node = none) (moves : Moves σ id now arrives h out h')
    : h'.Separate async := by
  cases moves with
  | handle handles =>
      obtain ⟨source, node, steps⟩ := handles
      exact (ok.source source).withRaft node _
  | refuse source refused => exact ok.source source
  | fail failure => exact .stop h
  | start off known starts => exact absurd (down off) nofun
  | crash k =>
      unfold Host.crash
      dsimp only
      split
      · exact of_down rfl ⟨rfl, rfl, List.forall_mem_nil _, List.forall_mem_nil _⟩ rfl rfl
      · exact of_down rfl ⟨rfl, rfl, List.forall_mem_nil _, List.forall_mem_nil _⟩ rfl rfl
  | tick node ticks => exact ok.withRaft node _
  | @readySync rn rn' rd node free sync taken =>
      have mode := ok.mode rn node
      cases rn.ends_ready.result taken with
      | async isAsync => exact absurd (isAsync.symm.trans sync) nofun
      | sync isSync =>
          have isSync : async = false := mode.symm.trans isSync
          have quiet := ok.quiet isSync
          exact {
            mode := by rintro _ ⟨⟩; exact mode
            own := fun isAsync => absurd (isAsync.symm.trans isSync) nofun
            quiet := fun _ => { quiet with
              writes := List.forall_mem_append.mpr
                ⟨quiet.writes, List.forall_mem_singleton.mpr rfl⟩
              batches := List.forall_mem_append.mpr
                ⟨quiet.batches, List.forall_mem_singleton.mpr rfl⟩ }
            free := fun _ => nofun }
  | @readyAsync rn rn' rd node free async' taken =>
      have mode := ok.mode rn node
      have own := fun isAsync => ok.own isAsync rn node
      cases rn.ends_ready.result taken with
      | sync isSync => exact absurd (isSync.symm.trans async') nofun
      | async isAsync =>
          have isAsync : async = true := mode.symm.trans isAsync
          exact {
            mode := by rintro _ ⟨⟩; exact mode
            own := by rintro isAsync _ ⟨⟩; exact own isAsync
            quiet := fun isSync => absurd (isAsync.symm.trans isSync) nofun
            free := fun isSync => absurd (isAsync.symm.trans isSync) nofun }
  | @persist rn w rest ms node queued stored =>
      have mode := ok.mode rn node
      have own := fun isAsync => ok.own isAsync rn node
      unfold Host.persisted
      obtain ⟨app, confs, same⟩ := Host.installed_eq _ w.snapshot
      rw [same]
      exact {
        mode := by rintro _ ⟨⟩; exact mode
        own := by rintro isAsync _ ⟨⟩; exact own isAsync
        quiet := by
          intro isSync
          have quiet := ok.quiet isSync
          have writes := quiet.writes
          rw [queued] at writes
          obtain ⟨first, rest⟩ := List.forall_mem_cons.mp writes
          exact { quiet with
            appended := by
              show h.appended ++ w.response = []
              rw [quiet.appended, first]
              rfl
            writes := rest }
        free := by
          intro isSync free
          have none := (ok.free isSync free).1
          rw [queued] at none
          cases none }
  | skip node queued old => exact ok.withEntries queued
  | apply node queued new normal => exact ok.withEntries queued
  | applyConfChange node queued new decoded applied =>
      exact (ok.withEntries queued).withRaft node _
  | finish node queued => exact ok.finish queued
  | createSnapshot node applied durable known created => exact ok.withRaft node _
  | compact node applied compacted => exact ok.withRaft node _

/-- A `Ready` adds the answer for the entries it hands out. -/
theorem applyResps_ready {rn rn' : RawNode} {rd : Ready} (ok : h.Separate async)
    (node : h.node = some rn) (core : rn.raft.core.Termed) (taken : rn.Taken rn' rd)
    (applied : h'.applied = h.applied)
    (batches : h'.batches = h.batches ++ if rn'.asyncStorageWrites then asyncBatches rd
      else [{ entries := rd.committedEntries, response := [] }])
    : h'.applyResps rn' = h.applyResps rn ++ rn.applyAnswers rd.committedEntries := by
  have inMode := ok.mode rn node
  unfold applyResps
  rw [applied, batches, List.flatMap_append]
  cases taken with
  | @sync committed resps raftLog mode fresh appliable answers accepts =>
      have mode' : (rn.accepted (rn.readyOf committed none) (rn.ownSteps committed resps)
        raftLog).asyncStorageWrites = false := mode
      show _ ++ (rn.ownSteps committed resps).filter _ = _
      rw [mode', fresh, (RawNode.filter_ownSteps core answers).2]
      simp only [Bool.false_eq_true, ↓reduceIte, List.flatMap_singleton, List.append_nil,
        List.filter_nil]
      rfl
  | @async committed resps append raftLog mode appliable request accepts =>
      have mode' : (rn.accepted (rn.readyOf committed append) rn.stepsOnAdvance
        raftLog).asyncStorageWrites = true := mode
      show _ ++ rn.stepsOnAdvance.filter _ = _
      rw [mode', if_pos rfl, ok.own (inMode.symm.trans mode) rn node, List.filter_nil,
        List.append_nil, List.append_nil, List.append_assoc]
      have new : (asyncBatches (rn.readyOf committed append)).flatMap Batch.response
          = rn.applyAnswers committed := by
        unfold asyncBatches RawNode.readyOf RawNode.applyAnswers
        by_cases some : committed.length > 0 <;> simp [mode, some, newStorageApplyMsg]
      rw [new]
      rfl

/-- The node steps a message of its own. -/
theorem handles (ok : h.Separate async) (handles : Handles Own h h')
    : h'.Separate async := by
  obtain ⟨@⟨rn, rest, node, queued, released⟩, ⟨⟩, steps⟩ := handles
  have mode := ok.mode rn node
  have own := fun isAsync => ok.own isAsync rn node
  exact { ok with
    mode := by rintro _ ⟨⟩; exact mode
    own := fun isAsync => absurd (queued.symm.trans (own isAsync)) nofun
    quiet := fun isSync => { ok.quiet isSync with } }

/-- Every input of a lifetime keeps the mode. -/
theorem goes {out : Output} (ok : h.Separate async) (goes : Goes σ id arrives h out h')
    : h'.Separate async := by
  cases goes with
  | once once down =>
      cases once with
      | idle => exact ok
      | one moves => exact ok.moves down moves
  | release handled =>
      exact { ok with
        quiet := fun isSync => { ok.quiet isSync with }
        free := fun _ _ => handled.2 }
  | own handles => exact ok.handles handles
  | ownFails fails => exact .stop h

end Separate

-----------------------------------------------------------------------------------------
-- Whole lifetimes
-----------------------------------------------------------------------------------------

/-- Every input is admitted by `ok` at the host it reaches. -/
def Along (σ : Setup) (id : Nat) (ok : Host → Input → Prop) : Host → List Input → Prop
  | _, [] => True
  | h, i :: rest => ok h i ∧ Along σ id ok (h.input σ id i).1 rest

instance decidableAlong (σ : Setup) (id : Nat) (ok : Host → Input → Prop)
    [∀ h i, Decidable (ok h i)] : ∀ h inputs, Decidable (Along σ id ok h inputs)
  | _, [] => inferInstanceAs (Decidable True)
  | h, i :: rest =>
      have := decidableAlong σ id ok (h.input σ id i).1 rest
      inferInstanceAs (Decidable (ok h i ∧ Along σ id ok (h.input σ id i).1 rest))

/-- What every admitted input preserves holds all the time. -/
theorem Along.preserves {ok : Host → Input → Prop} {p : Host → Prop} {inputs : List Input}
    (along : Along σ id ok h inputs) (start : p h)
    (step : ∀ {h i}, p h → ok h i → p (h.input σ id i).1)
    : p (inputs.foldl (fun h i => (h.input σ id i).1) h) := by
  induction inputs generalizing h with
  | nil => exact start
  | cons i rest ih => exact ih along.2 (step start along.1)

end Host

namespace Launch

/-- The configuration that the node starts with. -/
def fullConfig (x : Launch) : Config :=
  let h : Host := { disk := x.disk, app := x.app, confs := x.confs }
  { x.config with
    id := x.id
    storage := x.disk
    confState := some (h.confAt (h.restartIndex x.config.applied))
    asyncStorageWrites := x.setup.asyncStorageWrites }

/-- The host right after the start of the node `rn`. -/
structure Up (x : Launch) (rn : RawNode) (h : Host) : Prop where
  node : h.node = some rn
  started : Started x.fullConfig rn.raft
  mode : rn.asyncStorageWrites = x.setup.asyncStorageWrites
  prevHardSt : rn.prevHardSt = rn.raft.hardState
  prevSoftSt : rn.prevSoftSt = rn.raft.softState
  steps : rn.stepsOnAdvance = []
  outstanding : h.outstanding = false
  writes : h.writes = []
  batches : h.batches = []
  appended : h.appended = []
  applied : h.applied = []

/-- The node starts, or stays down. -/
theorem host_cases (x : Launch)
    : (x.host.node = none ∧ x.host.writes = [] ∧ x.host.batches = [] ∧ x.host.appended = []
        ∧ x.host.applied = [])
      ∨ ∃ rn, x.Up rn x.host := by
  unfold host Host.start
  dsimp only
  split
  · exact .inl ⟨rfl, rfl, rfl, rfl, rfl⟩
  · have starts := ends_newRawNode x.fullConfig
    unfold fullConfig at starts
    dsimp only at starts
    cases result : newRawNode _ with
    | error p => exact .inl ⟨rfl, rfl, rfl, rfl, rfl⟩
    | ok rn =>
        obtain ⟨started, mode, prevHardSt, prevSoftSt, steps⟩ := starts.result result
        exact .inr ⟨rn, rfl, started, mode, prevHardSt, prevSoftSt, steps, rfl, rfl, rfl, rfl, rfl⟩

/-- A node that runs right after the start has started. -/
theorem up_of_node {x : Launch} {rn : RawNode} (node : x.host.node = some rn)
    : x.Up rn x.host := by
  rcases x.host_cases with ⟨down, _⟩ | ⟨rn', up⟩
  · cases down.symm.trans node
  · cases up.node.symm.trans node
    exact up

omit [Codec] in
theorem Up.termed {x : Launch} {rn : RawNode} {h : Host} (up : x.Up rn h) : h.Termed where
  core := by
    intro rn' node
    rw [up.node] at node
    cases node
    exact up.started.termed
  own := by
    intro rn' node
    rw [up.node] at node
    cases node
    rw [up.steps]
    exact List.forall_mem_nil _
  messages := by simp [up.writes]
  response := by simp [up.writes]
  batches := by simp [up.batches]
  appended := by simp [up.appended]
  applied := by simp [up.applied]

omit [Codec] in
theorem Up.separate {x : Launch} {rn : RawNode} {h : Host} (up : x.Up rn h)
    : h.Separate x.setup.asyncStorageWrites where
  mode := by
    intro rn' node
    cases up.node.symm.trans node
    exact up.mode
  own := by
    intro _ rn' node
    cases up.node.symm.trans node
    exact up.steps
  quiet := fun _ => ⟨up.appended, up.applied, by simp [up.writes], by simp [up.batches]⟩
  free := fun _ _ => ⟨up.writes, up.batches⟩

/-- The host is in order at the start. -/
theorem host_ok (x : Launch)
    : x.host.Termed ∧ x.host.Separate x.setup.asyncStorageWrites := by
  rcases x.host_cases with ⟨down, writes, batches, appended, applied⟩ | ⟨rn, up⟩
  · refine ⟨.of_idle down writes batches appended applied, .of_down down ?_ writes batches⟩
    exact ⟨appended, applied, by simp [writes], by simp [batches]⟩
  · exact ⟨up.termed, up.separate⟩

end Launch

end EtcdRaft
