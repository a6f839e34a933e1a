import EtcdRaft.Runs.Lifetimes

/-! What an input does to a running node, with the queues of its host, and how it fails.
-/

namespace EtcdRaft

variable [Codec]

/-- A call of the node. A tick and a change of the configuration count as a `MsgHup`; only
where `changes` holds, the configuration may change.
-/
inductive Raft.Called (r : Raft) (changes : Prop) : Message → Raft → Prop where
  | step {m : Message} {r' : Raft} {err : Option StepError} (steps : r.step m = .ok (r', err))
    : Called r changes m r'
  | tick {r' : Raft} (ticks : r.tick = .ok r') : Called r changes { type := .msgHup } r'
  | applyConfChange {cc : ConfChangeV2} {cs : ConfState} {r' : Raft}
      (applied : r.applyConfChange cc = .ok (r', cs)) (may : changes)
    : Called r changes { type := .msgHup } r'

theorem Raft.called_step {r r' : Raft} {m : Message} {err : Option StepError}
    (steps : r.step m = .ok (r', err))
    : r.Called False m r' :=
  .step steps

/-- A call is a sequence of small actions, maybe with a new configuration. -/
theorem Raft.Called.exists_steps {r r' : Raft} {changes : Prop} {m : Message}
    (called : r.Called changes m r')
    (sound : m.type.termed = true → m.term ≠ 0)
    : ∃ now cfg progress, Steps now m { r.core with config := cfg, progress := progress }
      r'.core := by
  cases called with
  | step steps =>
      obtain ⟨now, steps⟩ := Raft.exists_steps sound steps
      exact ⟨now, r.core.config, r.core.progress, steps⟩
  | tick ticks =>
      exact ⟨0, r.core.config, r.core.progress, .of_acts (Raft.acts_tick ticks)⟩
  | applyConfChange applied may =>
      obtain ⟨cfg, progress, _, acts⟩ := Raft.acts_applyConfChange applied
      exact ⟨0, cfg, _, .of_acts acts⟩

omit [Codec] in
theorem Raft.benign_changedConfig (r : Raft) {cc : ConfChangeV2}
    : Ends (r.changedConfig cc) (fun _ => True) Benign := by
  have change : ∀ x, Ends (orPanic x) (fun _ => True) Benign :=
    fun x => (ends_orPanic x).mono (fun _ _ => trivial) fun _ benign => benign
  unfold Raft.changedConfig
  refine Ends.ite (fun _ => change _) fun _ => ?_
  split
  · exact rfl
  · exact change _
  · exact change _

/-- A call of the node that fails. -/
inductive Raft.CallFails (r : Raft) (p : Panic) : Message → Prop where
  | step {m : Message} (fails : r.step m = .error p) : CallFails r p m
  | tick (fails : r.tick = .error p) : CallFails r p { type := .msgHup }
  | applyConfChange {cc : ConfChangeV2} (fails : r.applyConfChange cc = .error p)
    : CallFails r p { type := .msgHup }

theorem Raft.CallFails.exists_fails {r : Raft} {m : Message} {p : Panic}
    (called : r.CallFails p m) (sound : m.type.termed = true → m.term ≠ 0)
    : ∃ now cfg progress, Fails now m { r.core with config := cfg, progress := progress } p := by
  cases called with
  | step fails =>
      obtain ⟨now, later, all⟩ := exists_later m.stamp r.pendingReadIndexMessages
      exact ⟨now, r.core.config, r.core.progress,
        (finishes_step ⟨sound, fun _ => later, all⟩).failure fails⟩
  | tick fails =>
      have reaches : Reaches 0 { type := .msgHup } r.core r.tick core fun _ => True :=
        reaches_tick rfl
      exact ⟨0, r.core.config, r.core.progress, reaches.failure fails⟩
  | @applyConfChange cc fails =>
      have ends : Ends (r.applyConfChange cc) (fun _ => True) fun p => ∃ cfg progress,
          Fails 0 { type := .msgHup } { r.core with config := cfg, progress := progress } p := by
        unfold Raft.applyConfChange
        refine Ends.bind (q := fun _ => True) ?_ fun res _ => ?_
        · exact r.benign_changedConfig.mono (fun _ _ => trivial)
            fun _ benign => ⟨r.core.config, r.core.progress, .of_benign benign⟩
        · exact (ends_switchToConfig rfl).mono (fun _ _ => trivial)
            fun _ fails => ⟨_, _, fails⟩
      obtain ⟨cfg, progress, fails⟩ := ends.failure fails
      exact ⟨0, cfg, progress, fails⟩

namespace Host

/-- The first of the answers of a queue is taken; without asynchronous writes it is the
first of the messages that the node steps on `Advance`.
-/
def Pops (async : Bool) (h : Host) (queue queue' : List Message) (steps steps' : List Message)
    (m : Message) : Prop :=
  if async then
    queue = m :: queue' ∧ steps' = steps
  else
    queue' = queue ∧ steps = m :: steps' ∧ h.writes = [] ∧ h.batches = []

/-- The application handles the next of the entries handed out, a change of the
configuration.
-/
def Calls (h h' : Host) : Prop :=
  ∃ e cc entries response rest, h.batches = ⟨e :: entries, response⟩ :: rest
    ∧ h'.batches = ⟨entries, response⟩ :: rest ∧ Raft.confChangeOf e = .ok (some cc)

/-- What an input does to the running node `rn` of the host `h`. Only where `takes` holds,
the application may take a `Ready`, and only where `changes` holds, it may call
`ApplyConfChange`.
-/
inductive Turns (takes changes : Prop) (async : Bool) (arrives : Message → Prop)
    (h : Host) (rn : RawNode)
    (h' : Host) : RawNode → Prop where
  | rest (writes : h'.writes = h.writes) (appended : h'.appended = h.appended)
      (applied : h'.applyResps rn = h.applyResps rn)
    : Turns takes changes async arrives h rn h' rn
  | call {m : Message} {r : Raft} {steps : List Message} (called : rn.raft.Called changes m r)
      (remote : m.type.isStored = false) (termed : m.type.termed = true → m.term ≠ 0)
      (source : m.type = .msgApp ∨ m.type = .msgSnap
        → ∃ m₀ stamp, arrives m₀ ∧ m = { m₀ with stamp := stamp })
      (writes : h'.writes = h.writes) (appended : h'.appended = h.appended)
      (applied : h'.applyResps { rn with stepsOnAdvance := steps } = h.applyResps rn)
      (own : steps.filter (fun m => m.type == .msgStorageAppendResp)
        = rn.stepsOnAdvance.filter fun m => m.type == .msgStorageAppendResp)
    : Turns takes changes async arrives h rn h' { rn with raft := r, stepsOnAdvance := steps }
  | answerAppend {m : Message} {r : Raft} {err : Option StepError} {steps : List Message}
      (answer : m.IsAppendResp) (handled : rn.raft.step m = .ok (r, err))
      (popped : Pops async h h.appended h'.appended rn.stepsOnAdvance steps m)
      (writes : h'.writes = h.writes)
      (applied : h'.applyResps { rn with stepsOnAdvance := steps } = h.applyResps rn)
    : Turns takes changes async arrives h rn h' { rn with raft := r, stepsOnAdvance := steps }
  | answerApply {m : Message} {r : Raft} {err : Option StepError} {steps : List Message}
      (answer : m.IsApplyResp) (handled : rn.raft.step m = .ok (r, err))
      (popped : Pops async h h.applied h'.applied rn.stepsOnAdvance steps m)
      (writes : h'.writes = h.writes) (appended : h'.appended = h.appended)
      (applied : h.applyResps rn = m :: h'.applyResps { rn with stepsOnAdvance := steps })
    : Turns takes changes async arrives h rn h' { rn with raft := r, stepsOnAdvance := steps }
  | ready {rn' : RawNode} {rd : Ready} (taken : rn.Taken rn' rd)
      (writes : h'.writes = h.writes
        ++ if async then asyncWrites rd else [writeOf rd rd.messages []])
      (appended : h'.appended = h.appended)
      (applied : h'.applyResps rn' = h.applyResps rn ++ rn.applyAnswers rd.committedEntries)
      (may : takes)
    : Turns takes changes async arrives h rn h' rn'
  | persist {w : Write} {ms : MemoryStorage} (queued : h.writes = w :: h'.writes)
      (stored : store rn.raft.raftLog.storage w = .ok ms)
      (appended : h'.appended = h.appended ++ w.response)
      (applied : h'.applyResps rn = h.applyResps rn)
    : Turns takes changes async arrives h rn h' (setStorage rn ms)
  | createSnapshot {i : Nat} {cs : ConfState} {data : List Entry} {ms : MemoryStorage}
      (below : i ≤ rn.raft.raftLog.applied)
      (created : rn.raft.raftLog.storage.createSnapshot i cs data = .ok (.ok ms))
      (writes : h'.writes = h.writes) (appended : h'.appended = h.appended)
      (applied : h'.applyResps rn = h.applyResps rn)
    : Turns takes changes async arrives h rn h' (setStorage rn ms)
  | compact {i : Nat} {ms : MemoryStorage} (below : i ≤ rn.raft.raftLog.applied)
      (compacted : rn.raft.raftLog.storage.compact i = .ok (.ok ms))
      (writes : h'.writes = h.writes) (appended : h'.appended = h.appended)
      (applied : h'.applyResps rn = h.applyResps rn)
    : Turns takes changes async arrives h rn h' (setStorage rn ms)

/-- How the running node `rn` of the host `h` fails. -/
inductive Trips (async : Bool) (arrives : Message → Prop) (h : Host) (rn : RawNode)
    (p : Panic)
    : Prop where
  | call {m : Message} (fails : rn.raft.CallFails p m) (remote : m.type.isStored = false)
      (termed : m.type.termed = true → m.term ≠ 0)
      (source : m.type = .msgApp ∨ m.type = .msgSnap
        → ∃ m₀ stamp, arrives m₀ ∧ m = { m₀ with stamp := stamp })
  | answerAppend {m : Message} {queue steps : List Message} (answer : m.IsAppendResp)
      (fails : rn.raft.step m = .error p)
      (popped : Pops async h h.appended queue rn.stepsOnAdvance steps m)
  | answerApply {m : Message} (answer : m.IsApplyResp) (fails : rn.raft.step m = .error p)
      (queued : m ∈ h.applyResps rn) (idle : async = false → h.writes = [])
  | ready (fails : rn.ready = .error p)
  | other (benign : Benign p)

-----------------------------------------------------------------------------------------
-- Every input turns a running node like this
-----------------------------------------------------------------------------------------

variable {σ : Setup} {id : Nat} {takes changes : Prop} {arrives : Message → Prop}
  {async : Bool}
  {h h' : Host} {rn rn' : RawNode}

omit [Codec] in
/-- An answer of the local threads is not refused. -/
theorem not_refuses {m : Message} (answer : isLocalMsgTarget m.fromId = true)
    : ¬rn.Refuses m := by
  unfold RawNode.Refuses
  rw [answer]
  simp

/-- The node handles a message. -/
theorem Handles.turns (termed : h.Termed) (separate : h.Separate async)
    (network : ∀ m, arrives m → m.Public) (node : h.node = some rn)
    (handles : Handles (Source σ 0 arrives) h h') (node' : h'.node = some rn')
    : Turns takes changes async arrives h rn h' rn' := by
  obtain @⟨m, h₁, _, r, err, source, up, steps⟩ := handles
  cases node'
  cases source with
  | @network m₀ arrived =>
      cases node.symm.trans up
      obtain ⟨remote, sound⟩ := network m₀ arrived
      obtain ⟨stamp, same⟩ := m₀.receivedAt_eq 0
      rw [same] at steps
      exact .call (.step steps) (MessageType.isStored_of_remote remote) sound
        (fun _ => ⟨m₀, stamp, arrived, rfl⟩) rfl rfl rfl rfl
  | call call =>
      cases node.symm.trans up
      have type := call.type
      refine .call (.step steps) (MessageType.isStored_of_called type) ?_ ?_ rfl rfl rfl rfl
      · rw [MessageType.termed_of_called type]
        nofun
      · rintro (app | snap)
        · rw [app] at type
          cases type
        · rw [snap] at type
          cases type
  | @appended _ rest queued =>
      cases node.symm.trans up
      cases async with
      | false => exact absurd (queued.symm.trans (separate.quiet rfl).appended) nofun
      | true =>
          have answer := termed.appended m (queued ▸ List.mem_cons_self)
          exact .answerAppend answer steps ⟨queued, rfl⟩ rfl rfl
  | @applied _ rest queued =>
      cases node.symm.trans up
      cases async with
      | false => exact absurd (queued.symm.trans (separate.quiet rfl).applied) nofun
      | true =>
          have answer := termed.applied m (queued ▸ List.mem_cons_self)
          refine .answerApply answer steps ⟨queued, rfl⟩ rfl rfl ?_
          unfold applyResps
          rw [queued]
          rfl

/-- The node steps a message of its own. -/
theorem Handles.turns_own (termed : h.Termed) (separate : h.Separate async)
    (node : h.node = some rn) (handles : Handles Own h h') (node' : h'.node = some rn')
    : Turns takes changes async arrives h rn h' rn' := by
  obtain @⟨m, _, _, r, err, @⟨rn₁, rest, up, queued, released⟩, ⟨⟩, steps⟩ := handles
  cases node'
  cases node.symm.trans up
  have member : m ∈ rn.stepsOnAdvance := queued ▸ List.mem_cons_self
  have isSync : async = false := by
    cases async with
    | false => rfl
    | true => exact absurd (queued.symm.trans (separate.own rfl rn node)) nofun
  subst isSync
  have quiet := separate.quiet rfl
  rcases termed.own rn node m member with waiting | append | apply
  · obtain ⟨notApp, notSnap, remote⟩ := waiting.other
    have append : m.type ≠ .msgStorageAppendResp := fun same => by
      rw [same] at remote
      cases remote
    have apply : m.type ≠ .msgStorageApplyResp := fun same => by
      rw [same] at remote
      cases remote
    refine .call (.step steps) remote waiting.termed ?_ rfl rfl ?_ ?_
    · rintro (app | snap)
      · exact absurd app notApp
      · exact absurd snap notSnap
    · unfold applyResps
      rw [queued, List.filter_cons_of_neg (by simpa using apply)]
    · rw [queued, List.filter_cons_of_neg (by simpa using append)]
  · refine .answerAppend append steps ⟨rfl, queued, released.2⟩ rfl ?_
    unfold applyResps
    rw [queued, List.filter_cons_of_neg (by simp [append.type])]
  · refine .answerApply apply steps ⟨rfl, queued, released.2⟩ rfl rfl ?_
    unfold applyResps
    rw [queued, List.filter_cons_of_pos (by simp [apply.type]), quiet.applied, released.2.2]
    rfl

/-- One transition of a running node. -/
theorem Moves.turns {out : Output} (moves : Moves σ id 0 arrives h out h')
    (termed : h.Termed)
    (separate : h.Separate async) (network : ∀ m, arrives m → m.Public)
    (node : h.node = some rn)
    (node' : h'.node = some rn') (may : h.outstanding = false → takes)
    (change : h.Calls h' → changes)
    : Turns takes changes async arrives h rn h' rn' := by
  cases moves with
  | handle handles => exact handles.turns termed separate network node node'
  | refuse source refused =>
      cases source with
      | network arrived =>
          cases node.symm.trans node'
          exact .rest rfl rfl rfl
      | call call =>
          cases node.symm.trans node'
          exact .rest rfl rfl rfl
      | appended queued =>
          have answer := termed.appended _ (queued ▸ List.mem_cons_self)
          exact absurd (refused rn' node') (not_refuses (by rw [answer.fromId]; rfl))
      | applied queued =>
          have answer := termed.applied _ (queued ▸ List.mem_cons_self)
          exact absurd (refused rn' node') (not_refuses (by rw [answer.fromId]; rfl))
  | fail failure => cases node'
  | start down known starts => exact absurd (down.symm.trans node) nofun
  | crash k =>
      have stopped : (h.crash k).1.node = none := by
        unfold Host.crash
        dsimp only
        split <;> rfl
      exact absurd (stopped.symm.trans node') nofun
  | tick up ticks =>
      cases node.symm.trans up
      cases node'
      exact .call (.tick ticks) rfl nofun (by rintro (app | snap) <;> contradiction) rfl rfl rfl rfl
  | @readySync _ _ rd up free sync taken =>
      cases node.symm.trans up
      cases node'
      have taken := rn.ends_ready.result taken
      have mode := taken.mode.symm.trans sync
      have isSync : async = false := (separate.mode rn node).symm.trans mode
      refine .ready taken (by rw [isSync]; rfl) rfl ?_ (may free)
      exact separate.applyResps_ready node (termed.core rn node) taken rfl (by rw [sync]; rfl)
  | @readyAsync _ _ rd up free isAsync taken =>
      cases node.symm.trans up
      cases node'
      have taken := rn.ends_ready.result taken
      have mode := taken.mode.symm.trans isAsync
      have inMode : async = true := (separate.mode rn node).symm.trans mode
      refine .ready taken (by rw [inMode]; rfl) rfl ?_ (may free)
      exact separate.applyResps_ready node (termed.core rn node) taken rfl (by rw [isAsync]; rfl)
  | @persist _ w rest ms up queued stored =>
      cases node.symm.trans up
      unfold Host.persisted at node' ⊢
      obtain ⟨app, confs, same⟩ := Host.installed_eq _ w.snapshot
      rw [same] at node' ⊢
      cases node'
      exact .persist queued stored rfl rfl
  | skip up queued old =>
      cases node.symm.trans node'
      exact .rest rfl rfl (applyResps_apply queued (.inl ⟨rfl, rfl⟩))
  | apply up queued new normal =>
      cases node.symm.trans node'
      exact .rest rfl rfl (applyResps_apply queued (.inl ⟨rfl, rfl⟩))
  | applyConfChange up queued new decoded applied =>
      cases node.symm.trans up
      cases node'
      refine .call (.applyConfChange applied (change ⟨_, _, _, _, _, queued, rfl, decoded⟩)) rfl
        nofun (by rintro (app | snap) <;> contradiction) rfl rfl
        (applyResps_apply queued (.inl ⟨rfl, rfl⟩)) rfl
  | finish up queued =>
      cases node.symm.trans node'
      exact .rest rfl rfl (@applyResps_apply _ _ _ _ [] _ _ queued (.inr ⟨rfl, rfl⟩))
  | createSnapshot up applied durable known created =>
      cases node.symm.trans up
      cases node'
      exact .createSnapshot applied created rfl rfl rfl
  | compact up applied compacted =>
      cases node.symm.trans up
      cases node'
      exact .compact applied compacted rfl rfl rfl

/-- Every input of a lifetime, as long as the node runs. -/
theorem Goes.turns {out : Output} (goes : Goes σ id arrives h out h') (termed : h.Termed)
    (separate : h.Separate async) (network : ∀ m, arrives m → m.Public)
    (node' : h'.node = some rn')
    (may : h.outstanding = false → takes) (change : h.Calls h' → changes)
    : ∃ rn, h.node = some rn ∧ Turns takes changes async arrives h rn h' rn' := by
  obtain ⟨rn, node⟩ : ∃ rn, h.node = some rn := by
    cases goes with
    | once once down =>
        rcases Option.eq_none_or_eq_some h.node with off | up
        · exact absurd ((down off).symm.trans node') nofun
        · exact up
    | release handled => exact ⟨rn', node'⟩
    | own handles =>
        obtain ⟨⟨node, _, _⟩, _, _⟩ := handles
        exact ⟨_, node⟩
    | ownFails fails => cases node'
  refine ⟨rn, node, ?_⟩
  cases goes with
  | once once down =>
      cases once with
      | idle =>
          cases node.symm.trans node'
          exact .rest rfl rfl rfl
      | one moves => exact moves.turns termed separate network node node' may change
  | release handled =>
      cases node.symm.trans node'
      exact .rest rfl rfl rfl
  | own handles => exact handles.turns_own termed separate node node'
  | ownFails fails => cases node'

/-- Entries are handed out only in a `Ready`, and the answer for them is the last to come.
-/
theorem Goes.handsOut {out : Output} (goes : Goes σ id arrives h out h')
    (termed : h.Termed) (separate : h.Separate async) (some_ : out.handedOut ≠ [])
    : ∃ rn rn' rd, h.node = some rn ∧ h'.node = some rn' ∧ rn.Taken rn' rd
      ∧ out.handedOut = rd.committedEntries
      ∧ h'.applyResps rn' = h.applyResps rn ++ rn.applyAnswers rd.committedEntries := by
  cases goes with
  | once once down =>
      cases once with
      | idle => exact absurd rfl some_
      | one moves =>
          cases moves with
          | @readySync rn rn' rd up free sync taken =>
              have taken := rn.ends_ready.result taken
              exact ⟨rn, rn', rd, up, rfl, taken, rfl,
                separate.applyResps_ready up (termed.core rn up) taken rfl (by rw [sync]; rfl)⟩
          | @readyAsync rn rn' rd up free isAsync taken =>
              have taken := rn.ends_ready.result taken
              exact ⟨rn, rn', rd, up, rfl, taken, rfl,
                separate.applyResps_ready up (termed.core rn up) taken rfl (by rw [isAsync]; rfl)⟩
          | _ => exact absurd rfl some_
  | release handled => exact absurd rfl some_
  | own handles => exact absurd rfl some_
  | ownFails fails => exact absurd rfl some_

-----------------------------------------------------------------------------------------
-- Every failure is one of these
-----------------------------------------------------------------------------------------

theorem StepFails.trips {p : Panic} (termed : h.Termed) (separate : h.Separate async)
    (network : ∀ m, arrives m → m.Public) (node : h.node = some rn)
    (fails : StepFails (Source σ 0 arrives) h p)
    : Trips async arrives h rn p := by
  obtain @⟨m, h₁, _, source, up, fails⟩ := fails
  cases source with
  | @network m₀ arrived =>
      cases node.symm.trans up
      obtain ⟨remote, sound⟩ := network m₀ arrived
      obtain ⟨stamp, same⟩ := m₀.receivedAt_eq 0
      rw [same] at fails
      exact .call (.step fails) (MessageType.isStored_of_remote remote) sound
        fun _ => ⟨m₀, stamp, arrived, rfl⟩
  | call call =>
      cases node.symm.trans up
      have type := call.type
      refine .call (.step fails) (MessageType.isStored_of_called type) ?_ ?_
      · rw [MessageType.termed_of_called type]
        nofun
      · rintro (app | snap)
        · rw [app] at type
          cases type
        · rw [snap] at type
          cases type
  | @appended _ rest queued =>
      cases node.symm.trans up
      cases async with
      | false => exact absurd (queued.symm.trans (separate.quiet rfl).appended) nofun
      | true =>
          have answer := termed.appended m (queued ▸ List.mem_cons_self)
          exact .answerAppend answer fails ⟨queued, rfl⟩
  | @applied _ rest queued =>
      cases node.symm.trans up
      have answer := termed.applied m (queued ▸ List.mem_cons_self)
      refine .answerApply answer fails ?_ fun isSync => ?_
      · unfold applyResps
        rw [queued]
        exact List.mem_append_left _ (List.mem_append_left _ List.mem_cons_self)
      · exact absurd (queued.symm.trans (separate.quiet isSync).applied) nofun

theorem StepFails.trips_own {p : Panic} (termed : h.Termed) (separate : h.Separate async)
    (node : h.node = some rn) (fails : StepFails Own h p)
    : Trips async arrives h rn p := by
  obtain @⟨m, _, _, @⟨rn₁, rest, up, queued, released⟩, ⟨⟩, fails⟩ := fails
  cases node.symm.trans up
  have member : m ∈ rn.stepsOnAdvance := queued ▸ List.mem_cons_self
  have isSync : async = false := by
    cases async with
    | false => rfl
    | true => exact absurd (queued.symm.trans (separate.own rfl rn node)) nofun
  subst isSync
  rcases termed.own rn node m member with waiting | append | apply
  · obtain ⟨notApp, notSnap, remote⟩ := waiting.other
    refine .call (.step fails) remote waiting.termed ?_
    rintro (app | snap)
    · exact absurd app notApp
    · exact absurd snap notSnap
  · exact .answerAppend append fails ⟨rfl, queued, released.2⟩
  · refine .answerApply apply fails (List.mem_append_right _ (List.mem_filter.mpr ⟨member, ?_⟩))
      fun _ => released.2.1
    simp [apply.type]

/-- Every input of a lifetime that makes the node fail. -/
theorem Goes.trips {out : Output} {p : Panic} (goes : Goes σ id arrives h out h')
    (termed : h.Termed) (separate : h.Separate async)
    (network : ∀ m, arrives m → m.Public)
    (node : h.node = some rn) (panics : out.panic = some p)
    : Trips async arrives h rn p := by
  cases goes with
  | once once down =>
      cases once with
      | idle => cases panics
      | one moves =>
          cases moves with
          | fail failure =>
              cases panics
              cases failure with
              | step fails => exact fails.trips termed separate network node
              | tick up fails =>
                  cases node.symm.trans up
                  exact .call (.tick fails) rfl nofun (by rintro (app | snap) <;> contradiction)
              | apply up queued decoded new fails =>
                  cases node.symm.trans up
                  exact .call (.applyConfChange fails) rfl nofun
                    (by rintro (app | snap) <;> contradiction)
              | ready up fails =>
                  cases node.symm.trans up
                  exact .ready fails
              | start down sane => exact absurd (down.symm.trans node) nofun
              | other benign => exact .other benign
          | _ => cases panics
  | release handled => cases panics
  | own handles => cases panics
  | ownFails fails =>
      cases panics
      exact fails.trips_own termed separate node

end Host

end EtcdRaft
