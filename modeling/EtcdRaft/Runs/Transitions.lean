import EtcdRaft.Cluster.Run
import EtcdRaft.Refinement.Steps
import EtcdRaft.Runs.Ready
import EtcdRaft.Runs.Start

/-! Everything that can happen to a host, as a relation. An event is one transition; only
`Advance` makes the node handle several messages.
-/

namespace EtcdRaft

variable [Codec]

/-- The messages that the application hands to its own node. -/
def MessageType.called : MessageType → Bool
  | .msgHup | .msgProp | .msgReadIndex | .msgTransferLeader | .msgForgetLeader | .msgUnreachable
  | .msgSnapStatus => true
  | _ => false

/-- A message that stands for a call of the application at time `now`. -/
structure Message.IsCall (σ : Setup) (now : Nat) (m : Message) : Prop where
  type : m.type.called = true
  term : m.term = 0
  stamp : m.type = .msgReadIndex → m.stamp = now
  entries : ∀ e ∈ m.entries, e.isConfChange = true → σ.confChanges = true

/-- A message of a peer as the host hands it to the node. -/
def Message.receivedAt (now : Nat) (m : Message) : Message :=
  if m.type = .msgReadIndex then { m with stamp := now } else m

omit [Codec] in
theorem Message.receivedAt_eq (m : Message) (now : Nat)
    : ∃ stamp, m.receivedAt now = { m with stamp := stamp } := by
  unfold receivedAt
  split
  · exact ⟨now, rfl⟩
  · exact ⟨m.stamp, rfl⟩

/-- The messages that `Step` refuses to handle. -/
def RawNode.Refuses (rn : RawNode) (m : Message) : Prop :=
  (isLocalMsg m.type && !isLocalMsgTarget m.fromId) = true
    ∨ (isResponseMsg m.type && !isLocalMsgTarget m.fromId
      && !rn.raft.trk.progress.contains m.fromId) = true

namespace Host

-----------------------------------------------------------------------------------------
-- Calls of the node
-----------------------------------------------------------------------------------------

/-- Where a message that the node handles comes from, and the host without it. -/
inductive Source (σ : Setup) (now : Nat) (arrives : Message → Prop) (h : Host)
    : Message → Host → Prop where
  | network {m : Message} (arrived : arrives m) : Source σ now arrives h (m.receivedAt now) h
  | call {m : Message} (call : m.IsCall σ now) : Source σ now arrives h m h
  | appended {m : Message} {rest : List Message} (queued : h.appended = m :: rest)
    : Source σ now arrives h m { h with appended := rest }
  | applied {m : Message} {rest : List Message} (queued : h.applied = m :: rest)
    : Source σ now arrives h m { h with applied := rest }

/-- The next message that the node steps itself on `Advance`. -/
inductive Own (h : Host) : Message → Host → Prop where
  | mk {m : Message} {rn : RawNode} {rest : List Message} (node : h.node = some rn)
      (queued : rn.stepsOnAdvance = m :: rest)
      (released : h.outstanding = false ∧ h.writes = [] ∧ h.batches = [])
    : Own h m { h with node := some { rn with stepsOnAdvance := rest } }

/-- The node handles a message from the source. -/
inductive Handles (takes : Host → Message → Host → Prop) (h : Host) : Host → Prop where
  | mk {m : Message} {h' : Host} {rn : RawNode} {r : Raft} {err : Option StepError}
      (source : takes h m h') (node : h'.node = some rn)
      (steps : rn.raft.step m = .ok (r, err))
    : Handles takes h { h' with node := some { rn with raft := r } }

/-- The node fails to handle a message from the source. -/
inductive StepFails (takes : Host → Message → Host → Prop) (h : Host)
    (p : Panic) : Prop where
  | mk {m : Message} {h' : Host} {rn : RawNode} (source : takes h m h')
      (node : h'.node = some rn) (fails : rn.raft.step m = .error p)

/-- A call of the node that fails. -/
inductive Failure (σ : Setup) (now : Nat) (arrives : Message → Prop) (h : Host)
    (p : Panic)
    : Prop where
  | step (fails : StepFails (Source σ now arrives) h p)
  | tick {rn : RawNode} (node : h.node = some rn) (fails : rn.raft.tick = .error p)
  | apply {rn : RawNode} {e : Entry} {entries : List Entry} {response : List Message}
      {rest : List Batch} {cc : ConfChangeV2} (node : h.node = some rn)
      (queued : h.batches = ⟨e :: entries, response⟩ :: rest)
      (decoded : Raft.confChangeOf e = .ok (some cc)) (new : h.app.length < e.index)
      (fails : rn.raft.applyConfChange cc = .error p)
  | ready {rn : RawNode} (node : h.node = some rn) (fails : rn.ready = .error p)
  | start (down : h.node = none) (sane : Sane p)
  | other (benign : Benign p)

-----------------------------------------------------------------------------------------
-- Transitions
-----------------------------------------------------------------------------------------

/-- The writes that an asynchronous `Ready` asks for. -/
def asyncWrites (rd : Ready) : List Write :=
  match rd.storageAppend with
  | none => []
  | some m =>
      [writeOf rd (m.responses.filter fun m => !(m.type == .msgStorageAppendResp))
        (m.responses.filter fun m => m.type == .msgStorageAppendResp)]

/-- The entries that an asynchronous `Ready` hands out. -/
def asyncBatches (rd : Ready) : List Batch :=
  match rd.storageApply with
  | none => []
  | some m => [{ entries := m.message.entries, response := m.responses }]

/-- The application after a snapshot has been stored. -/
def installed (h : Host) : Option Snapshot → Host
  | none => h
  | some s =>
      if h.app.length < s.data.length then
        { h with
          app := s.data
          confs := (s.metadata.index, s.metadata.confState) :: h.confs }
      else
        h

omit [Codec] in
theorem installed_eq (h : Host) (snapshot : Option Snapshot)
    : ∃ app confs, h.installed snapshot = { h with app := app, confs := confs } := by
  unfold installed
  split
  · exact ⟨h.app, h.confs, rfl⟩
  · split
    · exact ⟨_, _, rfl⟩
    · exact ⟨h.app, h.confs, rfl⟩

/-- The host after its oldest write has become durable. -/
def persisted (σ : Setup) (h : Host) (rn : RawNode) (w : Write) (rest : List Write)
    (ms : MemoryStorage) : Host :=
  { h with
    node := some (setStorage rn ms)
    writes := rest
    appended := h.appended ++ w.response
    revert := if flushes σ.loss rn.raft.raftLog.storage.hardState w then []
      else if isEmptyHardState w.hardState then h.revert
      else rn.raft.raftLog.storage.hardState :: h.revert }.installed w.snapshot

/-- One transition of the host `id`, with its output. -/
inductive Moves (σ : Setup) (id now : Nat) (arrives : Message → Prop) (h : Host)
    : Output → Host → Prop where
  | handle {h' : Host} (handles : Handles (Source σ now arrives) h h')
    : Moves σ id now arrives h {} h'
  | refuse {h' : Host} {m : Message} (source : Source σ now arrives h m h')
      (refused : ∀ rn, h'.node = some rn → rn.Refuses m)
    : Moves σ id now arrives h {} h'
  | fail {p : Panic} (failure : Failure σ now arrives h p)
    : Moves σ id now arrives h { panic := some p } h.stop
  | start {c : Config} {rn : RawNode} (down : h.node = none)
      (known : h.restartIndex c.applied ≤ h.app.length)
      (starts : newRawNode { c with
        id := id
        storage := h.disk
        confState := some (h.confAt (h.restartIndex c.applied))
        asyncStorageWrites := σ.asyncStorageWrites } = .ok rn)
    : Moves σ id now arrives h {} { h with
        node := some rn
        app := h.app.take (h.restartIndex c.applied)
        confs := h.confs.filter fun conf => decide (conf.1 ≤ h.restartIndex c.applied) }
  | crash (k : Nat) : Moves σ id now arrives h {} (h.crash k).1
  | tick {rn : RawNode} {r : Raft} (node : h.node = some rn) (ticks : rn.raft.tick = .ok r)
    : Moves σ id now arrives h {} { h with node := some { rn with raft := r } }
  | readySync {rn rn' : RawNode} {rd : Ready} (node : h.node = some rn)
      (free : h.outstanding = false) (sync : rn'.asyncStorageWrites = false)
      (taken : rn.ready = .ok (rn', rd))
    : Moves σ id now arrives h { handedOut := rd.committedEntries } { h with
        node := some rn'
        outstanding := true
        writes := h.writes ++ [writeOf rd rd.messages []]
        batches := h.batches ++ [{ entries := rd.committedEntries, response := [] }] }
  | readyAsync {rn rn' : RawNode} {rd : Ready} (node : h.node = some rn)
      (free : h.outstanding = false) (async : rn'.asyncStorageWrites = true)
      (taken : rn.ready = .ok (rn', rd))
    : Moves σ id now arrives h { sent := rd.messages, handedOut := rd.committedEntries } { h with
        node := some rn'
        writes := h.writes ++ asyncWrites rd
        batches := h.batches ++ asyncBatches rd }
  | persist {rn : RawNode} {w : Write} {rest : List Write} {ms : MemoryStorage}
      (node : h.node = some rn) (queued : h.writes = w :: rest)
      (stored : store rn.raft.raftLog.storage w = .ok ms)
    : Moves σ id now arrives h { sent := w.messages } (h.persisted σ rn w rest ms)
  | skip {rn : RawNode} {e : Entry} {entries : List Entry} {response : List Message}
      {rest : List Batch} (node : h.node = some rn)
      (queued : h.batches = ⟨e :: entries, response⟩ :: rest)
      (old : e.index ≤ h.app.length)
    : Moves σ id now arrives h {} { h with batches := ⟨entries, response⟩ :: rest }
  | apply {rn : RawNode} {e : Entry} {entries : List Entry} {response : List Message}
      {rest : List Batch} (node : h.node = some rn)
      (queued : h.batches = ⟨e :: entries, response⟩ :: rest)
      (new : h.app.length < e.index) (normal : Raft.confChangeOf e = .ok none)
    : Moves σ id now arrives h {} { h with
        batches := ⟨entries, response⟩ :: rest
        app := h.app ++ [e] }
  | applyConfChange {rn : RawNode} {r : Raft} {cs : ConfState} {e : Entry} {entries : List Entry}
      {response : List Message} {rest : List Batch} {cc : ConfChangeV2}
      (node : h.node = some rn) (queued : h.batches = ⟨e :: entries, response⟩ :: rest)
      (new : h.app.length < e.index) (decoded : Raft.confChangeOf e = .ok (some cc))
      (applied : rn.raft.applyConfChange cc = .ok (r, cs))
    : Moves σ id now arrives h {} { h with
        node := some { rn with raft := r }
        batches := ⟨entries, response⟩ :: rest
        app := h.app ++ [e]
        confs := (e.index, cs) :: h.confs }
  | finish {rn : RawNode} {response : List Message} {rest : List Batch} (node : h.node = some rn)
      (queued : h.batches = ⟨[], response⟩ :: rest)
    : Moves σ id now arrives h {} { h with batches := rest, applied := h.applied ++ response }
  | createSnapshot {rn : RawNode} {i : Nat} {ms : MemoryStorage} (node : h.node = some rn)
      (applied : i ≤ rn.raft.raftLog.applied)
      (durable : i ≤ rn.raft.raftLog.storage.hardState.commit) (known : i ≤ h.app.length)
      (created : rn.raft.raftLog.storage.createSnapshot i (h.confAt i) (h.app.take i)
        = .ok (.ok ms))
    : Moves σ id now arrives h {} { h with node := some (setStorage rn ms) }
  | compact {rn : RawNode} {i : Nat} {ms : MemoryStorage} (node : h.node = some rn)
      (applied : i ≤ rn.raft.raftLog.applied)
      (compacted : rn.raft.raftLog.storage.compact i = .ok (.ok ms))
    : Moves σ id now arrives h {} { h with node := some (setStorage rn ms) }

/-- The host once its `Ready` has been handled. -/
def released (h : Host) : Host := { h with outstanding := false }

/-- One transition at most. -/
inductive Once (σ : Setup) (id now : Nat) (arrives : Message → Prop) (h : Host)
    : Output → Host → Prop where
  | idle : Once σ id now arrives h {} h
  | one {out : Output} {h' : Host} (moves : Moves σ id now arrives h out h')
    : Once σ id now arrives h out h'

/-- What an event does to the host: one transition at most, or all the steps of `Advance`,
the last of which may fail.
-/
inductive Proceeds (σ : Setup) (id now : Nat) (arrives : Message → Prop) (h : Host)
    : Output → Host → Prop where
  | once {out : Output} {h' : Host} (once : Once σ id now arrives h out h')
    : Proceeds σ id now arrives h out h'
  | advance {h' : Host} (steps : Relation.ReflTransGen (Handles Own) h.released h')
    : Proceeds σ id now arrives h {} h'
  | advanceFails {h' : Host} {p : Panic}
      (steps : Relation.ReflTransGen (Handles Own) h.released h')
      (fails : StepFails Own h' p)
    : Proceeds σ id now arrives h { panic := some p } h.stop

variable {σ : Setup} {id now : Nat} {arrives : Message → Prop} {h : Host}

/-- What every transition preserves, every event preserves. -/
theorem Proceeds.preserves {p : Host → Prop} {q : Message → Prop} {out : Output}
    {h' : Host} (proceeds : Proceeds σ id now arrives h out h') (before : p h)
    (one : ∀ {out h'}, Moves σ id now arrives h out h' → p h' ∧ ∀ m ∈ out.sent, q m)
    (released : p h.released) (own : ∀ {a b}, p a → Handles Own a b → p b)
    (stopped : p h.stop)
    : p h' ∧ ∀ m ∈ out.sent, q m := by
  cases proceeds with
  | once once =>
      cases once with
      | idle => exact ⟨before, List.forall_mem_nil _⟩
      | one moves => exact one moves
  | advance steps =>
      refine ⟨?_, List.forall_mem_nil _⟩
      induction steps with
      | refl => exact released
      | tail _ handles ih => exact own ih handles
  | advanceFails steps fails => exact ⟨stopped, List.forall_mem_nil _⟩

-----------------------------------------------------------------------------------------
-- Every event proceeds in this way
-----------------------------------------------------------------------------------------

/-- The outcome of a call at `h'`, a host that stops like `h`. -/
theorem Once.outcome {h' : Host} (stops : h'.stop = h.stop) {x : Result (Host × Output)}
    (hx : Ends x (fun res => Once σ id now arrives h res.2 res.1) (Failure σ now arrives h))
    : Once σ id now arrives h (h'.outcome x).2 (h'.outcome x).1 := by
  cases x with
  | ok res => exact hx
  | error p =>
      unfold Host.outcome
      dsimp only
      rw [stops]
      exact .one (.fail hx)

/-- A message that the application steps. -/
theorem once_stepMessage {h' : Host} {m : Message} (source : Source σ now arrives h m h')
    (stops : h'.stop = h.stop)
    : Once σ id now arrives h (h'.stepMessage m).2 (h'.stepMessage m).1 := by
  unfold stepMessage call
  cases node : h'.node with
  | none => exact .one (.refuse source fun rn up => by rw [node] at up; cases up)
  | some rn =>
      refine .outcome stops ?_
      have same : { h' with node := some rn } = h' := by rw [← node]
      unfold RawNode.step
      refine Ends.bind (q := fun rn' => Once σ id now arrives h {} { h' with node := some rn' })
        ?_ fun _ moved => moved
      refine Ends.bind
        (q := fun res => Once σ id now arrives h {} { h' with node := some res.1 })
        ?_ fun res moved => by obtain ⟨rn', err⟩ := res; exact moved
      have refuse : rn.Refuses m → Once σ id now arrives h {} { h' with node := some rn } := by
        intro refused
        rw [same]
        refine .one (.refuse source fun rn' up => ?_)
        rw [node] at up
        cases up
        exact refused
      refine Ends.ite (fun foreign => refuse (.inl foreign)) fun _ => ?_
      refine Ends.ite (fun unknown => refuse (.inr unknown)) fun _ => ?_
      exact Ends.bind (Ends.of_eq (fun _ eq => eq) fun p fails => .step (.mk source node fails))
        fun res steps => .one (.handle (.mk source node steps))

/-- A call of the application. -/
theorem once_call {m : RawNode → Message} (call : ∀ rn, (m rn).IsCall σ now)
    : Once σ id now arrives h (h.call fun rn => rn.stepRaft (m rn)).2
        (h.call fun rn => rn.stepRaft (m rn)).1 := by
  unfold Host.call
  cases node : h.node with
  | none => exact .idle
  | some rn =>
      refine .outcome rfl ?_
      refine Ends.bind (q := fun rn' => Once σ id now arrives h {} { h with node := some rn' })
        ?_ fun _ moved => moved
      exact Ends.bind
        (Ends.of_eq (fun _ eq => eq) fun p fails =>
          .step (.mk (.call (call rn)) node fails))
        fun res steps => .one (.handle (.mk (.call (call rn)) node steps))

theorem once_tick
    : Once σ id now arrives h (h.call RawNode.tick).2 (h.call RawNode.tick).1 := by
  unfold Host.call
  cases node : h.node with
  | none => exact .idle
  | some rn =>
      refine .outcome rfl ?_
      refine Ends.bind (q := fun rn' => Once σ id now arrives h {} { h with node := some rn' })
        ?_ fun _ moved => moved
      exact Ends.bind (Ends.of_eq (fun _ eq => eq) fun p fails => .tick node fails)
        fun r ticks => .one (.tick node ticks)

-----------------------------------------------------------------------------------------
-- Ready and Advance
-----------------------------------------------------------------------------------------

theorem once_ready : Once σ id now arrives h h.ready.2 h.ready.1 := by
  unfold ready
  cases node : h.node with
  | none => exact .idle
  | some rn =>
      dsimp only
      split
      · exact .idle
      · rename_i free
        have free : h.outstanding = false := by simpa using free
        refine .outcome rfl (Ends.bind (Ends.of_eq (fun _ eq => eq) fun p fails =>
          .ready node fails) ?_)
        rintro ⟨rn', rd⟩ taken
        refine Ends.ite (fun async => ?_) fun sync => ?_
        · exact .one (.readyAsync node free async taken)
        · exact .one (.readySync node free (Bool.eq_false_iff.mpr sync) taken)

/-- The messages that `Advance` steps, one by one. -/
theorem ends_advance {rn : RawNode}
    (released : h.outstanding = false ∧ h.writes = [] ∧ h.batches = [])
    (steps : List Message) (r : Raft)
    : Ends (steps.foldlM RawNode.stepRaft { rn with raft := r })
        (fun rn' => Relation.ReflTransGen (Handles Own)
          { h with node := some { rn with raft := r, stepsOnAdvance := steps } }
          { h with node := some { rn' with stepsOnAdvance := [] } })
        (fun p => ∃ h', Relation.ReflTransGen (Handles Own)
          { h with node := some { rn with raft := r, stepsOnAdvance := steps } } h'
          ∧ StepFails Own h' p) := by
  induction steps generalizing r with
  | nil => exact .refl
  | cons m rest ih =>
      have source : Own { h with node := some { rn with raft := r, stepsOnAdvance := m :: rest } } m
          { h with node := some { rn with raft := r, stepsOnAdvance := rest } } :=
        Own.mk (h := { h with node := some { rn with raft := r, stepsOnAdvance := m :: rest } })
          rfl rfl released
      rw [List.foldlM_cons]
      refine Ends.bind (q := fun rn' => ∃ r' err, r.step m = .ok (r', err)
        ∧ rn' = { rn with raft := r' }) ?_ ?_
      · exact Ends.bind
          (Ends.of_eq (fun _ eq => eq) fun p fails => ⟨_, .refl, .mk source rfl fails⟩)
          fun res steps => ⟨res.1, res.2, steps, rfl⟩
      · rintro _ ⟨r', err, steps, rfl⟩
        have handles := Handles.mk source rfl steps
        refine (ih r').mono (fun rn' rest => .head handles rest) fun p fails => ?_
        obtain ⟨h', before, fails⟩ := fails
        exact ⟨h', .head handles before, fails⟩

/-- `Advance` of a node whose `Ready` has been handled. -/
theorem call_advance (released : h.outstanding = false ∧ h.writes = [] ∧ h.batches = [])
    : (∃ h', h.call RawNode.advance = (h', {}) ∧ Relation.ReflTransGen (Handles Own) h h')
      ∨ ∃ p, h.call RawNode.advance = (h.stop, { panic := some p })
        ∧ (Benign p ∨ ∃ h', Relation.ReflTransGen (Handles Own) h h' ∧ StepFails Own h' p) := by
  unfold Host.call
  cases node : h.node with
  | none => exact .inl ⟨h, rfl, .refl⟩
  | some rn =>
      have same : { h with node := some { rn with
          raft := rn.raft, stepsOnAdvance := rn.stepsOnAdvance } } = h := by
        rw [← node]
      have folded := @ends_advance _ h rn released rn.stepsOnAdvance rn.raft
      rw [same] at folded
      unfold RawNode.advance
      dsimp only
      split
      · exact .inr ⟨_, rfl, .inl rfl⟩
      · cases steps : rn.stepsOnAdvance.foldlM RawNode.stepRaft rn with
        | ok rn' => exact .inl ⟨_, rfl, folded.result steps⟩
        | error p => exact .inr ⟨p, rfl, .inr (folded.failure steps)⟩

theorem proceeds_advance : Proceeds σ id now arrives h h.advance.2 h.advance.1 := by
  unfold advance
  split
  · rename_i handled
    simp only [Bool.and_eq_true, List.isEmpty_iff] at handled
    obtain ⟨⟨_, stored⟩, applied⟩ := handled
    rcases call_advance (h := h.released) ⟨rfl, stored, applied⟩ with
      ⟨h', result, steps⟩ | ⟨p, result, failure⟩
    · show Proceeds σ id now arrives h (h.released.call RawNode.advance).2
        (h.released.call RawNode.advance).1
      rw [result]
      exact .advance steps
    · show Proceeds σ id now arrives h (h.released.call RawNode.advance).2
        (h.released.call RawNode.advance).1
      rw [result]
      rcases failure with benign | ⟨h', steps, fails⟩
      · exact .once (.one (.fail (.other benign)))
      · exact .advanceFails steps fails
  · exact .once .idle

-----------------------------------------------------------------------------------------
-- Start, storage and application
-----------------------------------------------------------------------------------------

theorem once_start (c : Config)
    : Once σ id now arrives h (h.start σ id c).2 (h.start σ id c).1 := by
  unfold start
  cases node : h.node with
  | some rn => exact .idle
  | none =>
      dsimp only
      split
      · exact .idle
      · rename_i known
        refine .outcome rfl (Ends.bind (Ends.of_eq (fun _ eq => eq) fun p fails =>
          .start node ((ends_newRawNode _).failure fails)) fun rn starts => ?_)
        exact .one (.start node (Nat.le_of_not_lt known) starts)

omit [Codec] in
theorem benign_store (ms : MemoryStorage) (w : Write)
    : Ends (store ms w) (fun _ => True) Benign := by
  unfold store
  refine Ends.bind (q := fun _ => True) ?_ fun _ _ => Ends.pure trivial
  unfold MemoryStorage.append
  split
  · exact trivial
  · refine Ends.ite (fun _ => trivial) fun _ => ?_
    exact Ends.ite (fun _ => trivial) fun _ => rfl

theorem once_persist : Once σ id now arrives h (h.persist σ).2 (h.persist σ).1 := by
  unfold persist
  split
  · rename_i rn w rest node queued
    refine .outcome rfl (Ends.bind (Ends.of_eq (fun _ eq => eq) fun p fails =>
      .other ((benign_store _ _).failure fails)) fun ms stored => ?_)
    exact .one (.persist node queued stored)
  · exact .idle

theorem once_apply : Once σ id now arrives h h.apply.2 h.apply.1 := by
  unfold Host.apply
  split
  · rename_i rn e entries response rest node queued
    refine .outcome rfl ?_
    refine Ends.ite (fun old => .one (.skip node queued old)) fun new => ?_
    have new : h.app.length < e.index := Nat.lt_of_not_le new
    refine Ends.bind ((Raft.benign_confChangeOf e).mono (fun _ h => h) fun _ => .other)
      fun cc decoded => ?_
    cases cc with
    | none => exact .one (.apply node queued new decoded)
    | some cc =>
        refine Ends.bind (q := fun res => ∃ r, rn.raft.applyConfChange cc = .ok (r, res.2)
          ∧ res.1 = { rn with raft := r }) ?_ ?_
        · exact Ends.bind (Ends.of_eq (fun _ eq => eq) fun p fails =>
            .apply node queued decoded new fails) fun res applied => ⟨res.1, applied, rfl⟩
        · rintro ⟨_, cs⟩ ⟨r, applied, rfl⟩
          exact .one (.applyConfChange node queued new decoded applied)
  · rename_i rn response rest node queued
    exact .one (.finish node queued)
  · exact .idle

omit [Codec] in
theorem benign_createSnapshot (ms : MemoryStorage) (i : Nat) (cs : ConfState)
    (data : List Entry)
    : Ends (ms.createSnapshot i cs data) (fun _ => True) Benign := by
  unfold MemoryStorage.createSnapshot
  refine Ends.ite (fun _ => trivial) fun _ => ?_
  refine Ends.ite (fun _ => rfl) fun _ => ?_
  refine Ends.ite (fun _ => rfl) fun _ => ?_
  split
  · exact rfl
  · exact trivial

omit [Codec] in
theorem benign_compact (ms : MemoryStorage) (i : Nat)
    : Ends (ms.compact i) (fun _ => True) Benign := by
  unfold MemoryStorage.compact
  refine Ends.ite (fun _ => trivial) fun _ => ?_
  refine Ends.ite (fun _ => rfl) fun _ => ?_
  split
  · exact rfl
  · exact trivial

theorem once_createSnapshot (i : Nat)
    : Once σ id now arrives h (h.createSnapshot i).2 (h.createSnapshot i).1 := by
  unfold createSnapshot
  cases node : h.node with
  | none => exact .idle
  | some rn =>
      dsimp only
      split
      · exact .idle
      · rename_i allowed
        simp only [not_or, Nat.not_lt] at allowed
        obtain ⟨applied, durable, known⟩ := allowed
        refine .outcome rfl (Ends.bind (Ends.of_eq (fun _ eq => eq) fun p fails => .other ?_) ?_)
        · exact (benign_createSnapshot _ _ _ _).failure fails
        · intro res created
          cases res with
          | error err => exact .idle
          | ok ms => exact .one (.createSnapshot node applied durable known created)

theorem once_compact (i : Nat)
    : Once σ id now arrives h (h.compact i).2 (h.compact i).1 := by
  unfold compact
  cases node : h.node with
  | none => exact .idle
  | some rn =>
      dsimp only
      split
      · exact .idle
      · rename_i applied
        refine .outcome rfl (Ends.bind (Ends.of_eq (fun _ eq => eq) fun p fails => .other ?_) ?_)
        · exact (benign_compact _ _).failure fails
        · intro res compacted
          cases res with
          | error err => exact .idle
          | ok ms => exact .one (.compact node (Nat.le_of_not_lt applied) compacted)

/-- Every event of a host but `Advance` is one transition at most. -/
theorem once {e : HostEvent} (other : e ≠ .advance)
    : Once σ id now arrives h (h.step σ id now e).2 (h.step σ id now e).1 := by
  cases e with
  | start c => exact once_start c
  | crash k =>
      have quiet : (h.crash k).2 = {} := by
        unfold Host.crash
        dsimp only
        split <;> rfl
      show Once σ id now arrives h (h.crash k).2 (h.crash k).1
      rw [quiet]
      exact .one (.crash k)
  | tick => exact once_tick
  | campaign => exact once_call fun _ => ⟨rfl, rfl, nofun, nofun⟩
  | propose data =>
      refine once_call fun _ => ⟨rfl, rfl, nofun, fun e member conf => ?_⟩
      rw [List.mem_singleton.mp member] at conf
      cases conf
  | proposeConfChange type data =>
      unfold Host.step
      dsimp only
      split
      · rename_i allowed
        exact once_call fun _ => ⟨rfl, rfl, nofun, fun _ _ _ => allowed⟩
      · exact .idle
  | readIndex rctx =>
      refine once_call fun _ => ⟨rfl, rfl, fun _ => rfl, fun e member conf => ?_⟩
      rw [List.mem_singleton.mp member] at conf
      cases conf
  | transferLeader transferee => exact once_call fun _ => ⟨rfl, rfl, nofun, nofun⟩
  | forgetLeader => exact once_call fun _ => ⟨rfl, rfl, nofun, nofun⟩
  | reportUnreachable peer => exact once_call fun _ => ⟨rfl, rfl, nofun, nofun⟩
  | reportSnapshot peer failure => exact once_call fun _ => ⟨rfl, rfl, nofun, nofun⟩
  | ready => exact once_ready
  | persist => exact once_persist
  | apply => exact once_apply
  | advance => contradiction
  | appendResp =>
      show Once σ id now arrives h h.appendResp.2 h.appendResp.1
      unfold appendResp
      split
      · rename_i m rest queued
        exact once_stepMessage (.appended queued) rfl
      · exact .idle
  | applyResp =>
      show Once σ id now arrives h h.applyResp.2 h.applyResp.1
      unfold applyResp
      split
      · rename_i m rest queued
        exact once_stepMessage (.applied queued) rfl
      · exact .idle
  | createSnapshot i => exact once_createSnapshot i
  | compact i => exact once_compact i

theorem proceeds (e : HostEvent)
    : Proceeds σ id now arrives h (h.step σ id now e).2 (h.step σ id now e).1 := by
  by_cases advance : e = .advance
  · rw [advance]
    exact proceeds_advance
  · exact .once (once advance)

/-- So is the delivery of a message. -/
theorem once_receive {m : Message} (arrived : arrives m)
    : Once σ id now arrives h (h.receive now m).2 (h.receive now m).1 :=
  once_stepMessage (.network arrived) rfl

end Host

end EtcdRaft
