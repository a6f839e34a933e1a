import EtcdRaft.Runs.Promotable
import EtcdRaft.Tracking.Duties
import EtcdRaft.Tracking.Ledger

/-! What a service makes the node do, and what this does to the books of a leader. -/

namespace EtcdRaft

-----------------------------------------------------------------------------------------
-- Messages that are handled
-----------------------------------------------------------------------------------------

/-- The message that a call of the application makes the node handle. -/
def HostEvent.message (rn : RawNode) : HostEvent → Option Message
  | .campaign => some { type := .msgHup }
  | .propose data => some { type := .msgProp, fromId := rn.raft.id, entries := [{ data }] }
  | .proposeConfChange type data => some { type := .msgProp, entries := [{ type, data }] }
  | .readIndex rctx => some { type := .msgReadIndex, entries := [{ data := rctx }] }
  | .transferLeader transferee => some { type := .msgTransferLeader, fromId := transferee }
  | .forgetLeader => some { type := .msgForgetLeader }
  | .reportUnreachable peer => some { type := .msgUnreachable, fromId := peer }
  | .reportSnapshot peer failure =>
      some { type := .msgSnapStatus, fromId := peer, reject := failure }
  | _ => none

/-- The message that a service makes the node `rn` handle, other than the answers of the
local threads.
-/
def Host.handled (h : Host) (rn : RawNode) : Service → Option Message
  | .input (.receive m) => some (m.receivedAt 0)
  | .input (.event e) => e.message rn
  | .input .own => h.ownMessages.head?
  | _ => none

def Service.ticks : Service → Bool
  | .input (.event .tick) => true
  | _ => false

section

variable [Codec]

namespace Host

variable {σ : Setup} {id : Nat} {async : Bool} {h h' : Host} {rn rn' : RawNode}
  {m : Message}

/-- The service `s` calls `ApplyConfChange` for the change `cc`. -/
structure Applies (h : Host) (s : Service) (h' : Host) (cc : ConfChangeV2) : Prop where
  may : s.calls = true
  calls : h.Calls h'
  next : ∃ e, h.nextEntry = some e ∧ Raft.confChangeOf e = .ok (some cc)

theorem Applies.of_queued {s : Service} {cc : ConfChangeV2} {e : Entry}
    {entries : List Entry}
    {response : List Message} {rest : List Batch} (may : s.calls = true)
    (queued : h.batches = ⟨e :: entries, response⟩ :: rest)
    (handled : h'.batches = ⟨entries, response⟩ :: rest)
    (decoded : Raft.confChangeOf e = .ok (some cc))
    : h.Applies s h' cc :=
  ⟨may, ⟨e, cc, entries, response, rest, queued, handled, decoded⟩, e, nextEntry_eq queued, decoded⟩

/-- What the service `s` makes the node do. -/
inductive Driven (async : Bool) (h : Host) (s : Service) (h' : Host)
    (rn rn' : RawNode) : Prop where
  | quiet (books : rn'.raft.books = { rn.raft.books with raftLog := rn'.raft.raftLog })
      (reads : rn'.raft.readOnly = rn.raft.readOnly)
      (advances : rn.raft.raftLog.Advances rn'.raft.raftLog)
  | step {m : Message} {err : Option StepError} (handled : h.handled rn s = some m)
      (remote : m.type.isStored = false) (termed : m.type.termed = true → m.term ≠ 0)
      (steps : rn.raft.step m = .ok (rn'.raft, err))
  | tick (clock : s.ticks = true) (ticks : rn.raft.tick = .ok rn'.raft)
  | change {cc : ConfChangeV2} {cs : ConfState} (calls : h.Applies s h' cc)
      (applied : rn.raft.applyConfChange cc = .ok (rn'.raft, cs))
  | answerAppend {m : Message} {err : Option StepError} {queue steps : List Message}
      (answer : m.IsAppendResp)
      (popped : Pops async h h.appended queue rn.stepsOnAdvance steps m)
      (handled : rn.raft.step m = .ok (rn'.raft, err))
  | answerApply {m : Message} {err : Option StepError} (answer : m.IsApplyResp)
      (queued : m ∈ h.applyResps rn) (idle : async = false → h.writes = [])
      (handled : rn.raft.step m = .ok (rn'.raft, err))

omit [Codec] in
theorem call_node {f : RawNode → Result RawNode} (node : h.node = some rn)
    (node' : (h.call f).1.node = some rn')
    : f rn = .ok rn' := by
  unfold Host.call outcome at node'
  rw [node] at node'
  dsimp only at node'
  cases result : f rn with
  | error p =>
      rw [result] at node'
      cases node'
  | ok rn₁ =>
      rw [result] at node'
      cases node'
      rfl

theorem stepRaft_ok (steps : rn.stepRaft m = .ok rn')
    : ∃ err, rn.raft.step m = .ok (rn'.raft, err) := by
  unfold RawNode.stepRaft at steps
  obtain ⟨⟨r, err⟩, handled, eq⟩ := except_bind_eq_ok.mp steps
  cases eq
  exact ⟨err, handled⟩

/-- The node handles a message, or refuses it. -/
theorem stepMessage_node (node : h.node = some rn)
    (node' : (h.stepMessage m).1.node = some rn')
    : rn' = rn ∨ ∃ err, rn.raft.step m = .ok (rn'.raft, err) := by
  have steps := call_node node node'
  obtain ⟨⟨rn₁, err⟩, handled, eq⟩ := except_bind_eq_ok.mp steps
  cases eq
  unfold RawNode.step at handled
  split at handled
  · cases handled
    exact .inl rfl
  split at handled
  · cases handled
    exact .inl rfl
  · obtain ⟨⟨r, err⟩, steps, eq⟩ := except_bind_eq_ok.mp handled
    cases eq
    exact .inr ⟨err, steps⟩

/-- Nothing happens to the node. -/
theorem Driven.refl (async : Bool) (h h' : Host) (s : Service) (rn : RawNode)
    : Driven async h s h' rn rn :=
  .quiet rfl rfl (.refl _)

/-- Only the storage changes. -/
theorem Driven.setStorage (async : Bool) (h h' : Host) (s : Service) (rn : RawNode)
    (ms : MemoryStorage)
    : Driven async h s h' rn (Host.setStorage rn ms) :=
  .quiet rfl rfl ⟨fun none => none, Nat.le_refl _, rfl, rfl,
    fun _ handed => ⟨handed.committed, handed.found⟩⟩

omit [Codec] in
/-- A node that still runs after a call has not failed. -/
theorem of_outcome {x : Result (Host × Output)} {q : Host → RawNode → Prop}
    (ends : Ends x (fun res => ∀ rn', res.1.node = some rn' → q res.1 rn') fun _ => True)
    (node' : (h.outcome x).1.node = some rn')
    : q (h.outcome x).1 rn' := by
  cases x with
  | error p => cases node'
  | ok res => exact ends rn' node'

omit [Codec] in
theorem ends_eq {α : Type} (x : Result α) : Ends x (fun a => x = .ok a) fun _ => True :=
  Ends.of_eq (fun _ eq => eq) fun _ _ => trivial

theorem driven_ready {s : Service} {h₀ : Host} (node : h.node = some rn)
    (node' : h.ready.1.node = some rn')
    : Driven async h s h₀ rn rn' := by
  unfold ready at node'
  rw [node] at node'
  dsimp only at node'
  split at node'
  · cases node.symm.trans node'
    exact .refl ..
  · refine of_outcome (q := fun _ => Driven async h s h₀ rn) (Ends.bind (ends_eq _) ?_) node'
    rintro ⟨rn₁, rd⟩ taken
    have driven : Driven async h s h₀ rn rn₁ := by
      have taken := rn.ends_ready.result taken
      obtain ⟨l, same, snapshot, _, committed, applied, logical⟩ := taken.handsOut
      have log : rn₁.raft.raftLog = l := congrArg Core.raftLog same
      refine .quiet (by cases taken <;> rfl) (by cases taken <;> rfl)
        (log ▸ ⟨snapshot.trans, applied.ge, committed, logical, ?_⟩)
      intro e handed
      refine ⟨committed ▸ handed.committed, ?_⟩
      rw [snapshot, applied, logical]
      exact handed.found
    refine Ends.ite (fun _ rn' node' => ?_) fun _ rn' node' => ?_ <;>
    · cases node'
      exact driven

theorem driven_persist {s : Service} {h₀ : Host} (node : h.node = some rn)
    (node' : (h.persist σ).1.node = some rn')
    : Driven async h s h₀ rn rn' := by
  unfold persist at node'
  rw [node] at node'
  dsimp only at node'
  split at node'
  · rename_i _ rn₁ w rest up _
    cases up
    refine of_outcome (q := fun _ => Driven async h s h₀ rn) (Ends.bind (ends_eq _) ?_) node'
    intro ms stored rn' node'
    have node' : (h.persisted σ rn w rest ms).node = some rn' := node'
    unfold Host.persisted at node'
    obtain ⟨app, confs, same⟩ := Host.installed_eq _ w.snapshot
    rw [same] at node'
    cases node'
    exact .setStorage ..
  · cases node.symm.trans node'
    exact .refl ..

/-- The application changes the storage, unless this is refused. -/
theorem driven_stores {s : Service} {h₀ : Host}
    {x : Result (Except StorageError MemoryStorage)}
    (node : h.node = some rn) (node' : (h.outcome (do
        match ← x with
        | .error _ => return (h, {})
        | .ok ms => return ({ h with node := some (setStorage rn ms) }, {}))).1.node = some rn')
    : Driven async h s h₀ rn rn' := by
  refine of_outcome (q := fun _ => Driven async h s h₀ rn) (Ends.bind (ends_eq _) ?_) node'
  intro res _
  cases res with
  | error err =>
      intro rn' node'
      cases node.symm.trans node'
      exact .refl ..
  | ok ms =>
      intro rn' node'
      cases node'
      exact .setStorage ..

theorem driven_createSnapshot {s : Service} {h₀ : Host} {i : Nat}
    (node : h.node = some rn) (node' : (h.createSnapshot i).1.node = some rn')
    : Driven async h s h₀ rn rn' := by
  unfold createSnapshot at node'
  rw [node] at node'
  dsimp only at node'
  split at node'
  · cases node.symm.trans node'
    exact .refl ..
  · exact driven_stores node node'

theorem driven_compact {s : Service} {h₀ : Host} {i : Nat} (node : h.node = some rn)
    (node' : (h.compact i).1.node = some rn')
    : Driven async h s h₀ rn rn' := by
  unfold compact at node'
  rw [node] at node'
  dsimp only at node'
  split at node'
  · cases node.symm.trans node'
    exact .refl ..
  · exact driven_stores node node'

/-- The application handles an entry, if it is one that it has not handled before. -/
theorem driven_apply (node : h.node = some rn) (node' : h.apply.1.node = some rn')
    : Driven async h (.input (.event .apply)) h.apply.1 rn rn' := by
  unfold apply at node' ⊢
  split at node'
  · rename_i rn₁ e entries response rest up queued
    cases node.symm.trans up
    refine of_outcome (q := fun h' => Driven async h (.input (.event .apply)) h' rn) ?_ node'
    refine Ends.ite (fun _ rn' node' => ?_) fun _ => ?_
    · cases node.symm.trans node'
      exact .refl ..
    refine Ends.bind (ends_eq _) fun change decoded => ?_
    cases change with
    | none =>
        intro rn' node'
        cases node.symm.trans node'
        exact .refl ..
    | some cc =>
        refine Ends.bind (ends_eq _) ?_
        rintro ⟨rn₁, cs⟩ applied rn' ⟨⟩
        obtain ⟨⟨r, cs⟩, applied, eq⟩ := except_bind_eq_ok.mp applied
        cases eq
        exact .change (.of_queued rfl queued rfl decoded) applied
  · cases node.symm.trans node'
    exact .refl ..
  · cases node.symm.trans node'
    exact .refl ..

theorem driven_process {calls : Bool} (node : h.node = some rn)
    (node' : (h.process calls).1.node = some rn')
    : Driven async h (.process calls) (h.process calls).1 rn rn' := by
  have processes := h.processes calls
  generalize (h.process calls).1 = h₁ at *
  cases processes with
  | fail => cases node'
  | call up queued decoded may applied app =>
      cases node.symm.trans up
      cases node'
      exact .change (.of_queued may queued rfl decoded) applied
  | _ =>
      cases node.symm.trans node'
      exact .refl ..

/-- The node handles a message that is no answer of the local threads. -/
theorem driven_stepMessage {s : Service} {h₀ h₁ : Host} (node : h.node = some rn)
    (node' : (h.stepMessage m).1.node = some rn') (handled : h₁.handled rn s = some m)
    (remote : m.type.isStored = false) (termed : m.type.termed = true → m.term ≠ 0)
    : Driven async h₁ s h₀ rn rn' := by
  rcases stepMessage_node node node' with same | ⟨err, steps⟩
  · exact same ▸ .refl ..
  · exact .step handled remote termed steps

theorem driven_call {e : HostEvent} {f : RawNode → Message} {h₀ : Host}
    (node : h.node = some rn)
    (message : e.message rn = some (f rn)) (remote : (f rn).type.isStored = false)
    (termed : (f rn).type.termed = false)
    (node' : (h.call fun rn => rn.stepRaft (f rn)).1.node = some rn')
    : Driven async h (.input (.event e)) h₀ rn rn' := by
  obtain ⟨err, steps⟩ := stepRaft_ok (call_node node node')
  exact .step message remote (by rw [termed]; nofun) steps

/-- The node steps a message of its own. -/
theorem driven_own {h₀ : Host} (termed : h.Termed) (separate : h.Separate async)
    (node : h.node = some rn) (node' : h.own.1.node = some rn')
    : Driven async h (.input .own) h₀ rn rn' := by
  rcases h.own_cases with ⟨_, same⟩ | ⟨rn₁, m, rest, up, queued, released, all, outcome⟩
  · rw [same] at node'
    cases node.symm.trans node'
    exact .refl ..
  cases node.symm.trans up
  have isSync : async = false := by
    cases async with
    | false => rfl
    | true => exact absurd (queued.symm.trans (separate.own rfl rn node)) nofun
  rcases outcome with ⟨p, _, fails⟩ | ⟨r, err, steps, eq⟩
  · rw [fails] at node'
    cases node'
  rw [eq] at node'
  cases node'
  rcases termed.own rn node m (queued ▸ List.mem_cons_self) with waiting | append | apply
  · refine .step (m := m) ?_ waiting.other.2.2 waiting.termed steps
    show h.ownMessages.head? = some m
    rw [all]
    rfl
  · exact .answerAppend append (by rw [isSync]; exact ⟨rfl, queued, released.2⟩) steps
  · refine .answerApply apply ?_ (fun _ => released.2.1) steps
    unfold applyResps
    rw [queued, List.filter_cons_of_pos (by simp [apply.type])]
    exact List.mem_append_right _ List.mem_cons_self

/-- The append thread answers. -/
theorem driven_appendResp {s : Service} {h₀ : Host} (termed : h.Termed)
    (separate : h.Separate async) (node : h.node = some rn)
    (node' : h.appendResp.1.node = some rn')
    : Driven async h s h₀ rn rn' := by
  unfold appendResp at node'
  split at node'
  · rename_i m rest queued
    have isAsync : async = true := by
      cases async with
      | true => rfl
      | false => exact absurd (queued.symm.trans (separate.quiet rfl).appended) nofun
    rcases stepMessage_node (h := { h with appended := rest }) node node' with same | ⟨err, steps⟩
    · exact same ▸ .refl ..
    · have popped : Pops async h h.appended rest rn.stepsOnAdvance rn.stepsOnAdvance m := by
        rw [isAsync]
        exact ⟨queued, rfl⟩
      exact .answerAppend (termed.appended m (queued ▸ List.mem_cons_self)) popped steps
  · cases node.symm.trans node'
    exact .refl ..

/-- The apply thread answers. -/
theorem driven_applyResp {s : Service} {h₀ : Host} (termed : h.Termed)
    (separate : h.Separate async) (node : h.node = some rn)
    (node' : h.applyResp.1.node = some rn')
    : Driven async h s h₀ rn rn' := by
  unfold applyResp at node'
  split at node'
  · rename_i m rest queued
    have isAsync : async = true := by
      cases async with
      | true => rfl
      | false => exact absurd (queued.symm.trans (separate.quiet rfl).applied) nofun
    rcases stepMessage_node (h := { h with applied := rest }) node node' with same | ⟨err, steps⟩
    · exact same ▸ .refl ..
    · refine .answerApply (termed.applied m (queued ▸ List.mem_cons_self)) ?_ ?_ steps
      · unfold applyResps
        rw [queued]
        exact List.mem_append_left _ (List.mem_append_left _ List.mem_cons_self)
      · rw [isAsync]
        nofun
  · cases node.symm.trans node'
    exact .refl ..

variable {L : Nat → List Entry} {d : Version}

/-- Every service drives the node. -/
theorem Accepts.driven {s : Service} (accepts : h.Accepts L σ id s)
    (ordered : h.Ordered L d async)
    (node : h.node = some rn) (node' : (h.serve σ id s).1.node = some rn')
    : Driven async h s (h.serve σ id s).1 rn rn' := by
  cases s with
  | process calls => exact driven_process node node'
  | input i =>
      have steady := accepts.1.steady
      cases i with
      | receive m =>
          obtain ⟨remote, termed⟩ := (accepts.1.network m rfl).1
          have node' : (h.stepMessage (m.receivedAt 0)).1.node = some rn' := node'
          obtain ⟨stamp, same⟩ := m.receivedAt_eq 0
          refine driven_stepMessage node node' rfl ?_ ?_
          · rw [same]
            exact MessageType.isStored_of_remote remote
          · rw [same]
            exact termed
      | release =>
          have node' : h.release.1.node = some rn' := node'
          unfold release at node'
          split at node' <;>
          · cases node.symm.trans node'
            exact .refl ..
      | own => exact driven_own ordered.termed ordered.separate node node'
      | event e =>
          cases e with
          | start c => cases steady _ rfl
          | crash k => cases steady _ rfl
          | advance => cases steady _ rfl
          | tick =>
              obtain ⟨r, ticks, eq⟩ := except_bind_eq_ok.mp (call_node node node')
              cases eq
              exact .tick rfl ticks
          | campaign => exact driven_call node rfl rfl rfl node'
          | propose data => exact driven_call node rfl rfl rfl node'
          | proposeConfChange type data =>
              have node' : (if σ.confChanges then h.call fun rn => rn.proposeConfChange type data
                else (h, {})).1.node = some rn' := node'
              split at node'
              · exact driven_call node rfl rfl rfl node'
              · cases node.symm.trans node'
                exact .refl ..
          | readIndex rctx => exact driven_call node rfl rfl rfl node'
          | transferLeader transferee => exact driven_call node rfl rfl rfl node'
          | forgetLeader => exact driven_call node rfl rfl rfl node'
          | reportUnreachable peer => exact driven_call node rfl rfl rfl node'
          | reportSnapshot peer failure => exact driven_call node rfl rfl rfl node'
          | ready => exact driven_ready node node'
          | persist => exact driven_persist node node'
          | apply => exact driven_apply node node'
          | appendResp =>
              exact driven_appendResp ordered.termed ordered.separate node node'
          | applyResp => exact driven_applyResp ordered.termed ordered.separate node node'
          | createSnapshot i => exact driven_createSnapshot node node'
          | compact i => exact driven_compact node node'

end Host

-----------------------------------------------------------------------------------------
-- Books
-----------------------------------------------------------------------------------------

variable {L : Nat → List Entry} {d : Version} {async : Bool} {p p' : Pipeline}
  {m : Message}
  {h h' : Host} {rn rn' : RawNode} {heard : Message → Prop} {beats : ProgressState → Prop}
  {changes : Prop}

theorem Books.leads_of_duties {b b' : Books}
    (duties : Relation.ReflTransGen (Duty heard beats changes) b b')
    (leads : b'.state = .stateLeader)
    : b.state = .stateLeader := by
  induction duties with
  | refl => exact leads
  | tail _ duty ih => exact ih (duty.modest leads)

theorem Books.term_of_duties {b b' : Books}
    (duties : Relation.ReflTransGen (Duty heard beats changes) b b')
    (leads : b'.state = .stateLeader)
    : b'.term = b.term := by
  induction duties with
  | refl => rfl
  | tail _ duty ih =>
      have before := ih (duty.modest leads)
      cases duty with
      | stepDown follows => exact absurd leads follows
      | _ => exact before

/-- A `Ready` changes nothing in the books but the log. -/
theorem RawNode.Taken.books {rd : Ready} (taken : rn.Taken rn' rd)
    : rn'.raft.books = { rn.raft.books with raftLog := rn'.raft.raftLog } := by
  cases taken <;> rfl

omit [Codec] in
/-- The log of a leader. -/
theorem Piped.grounded {b : Books} {term : Nat} (piped : Piped L async p term b.raftLog)
    (free : b.raftLog.unstable.snapshot = none)
    : b.Grounded p.log :=
  ⟨piped.pipe.shows, free, piped.logical, piped.pipe.line.current.indexed⟩

/-- After an answer of the append thread. -/
theorem Sound.duties_stored {r : Raft} {err : Option StepError} {rest : List Message}
    (sound : Sound L d async p h rn) (first : p.done = m :: rest)
    (handled : rn.raft.step m = .ok (r, err))
    : ∃ l, Stores m rn.raft.raftLog l ∧ Piped L async (p.answered rest) rn.raft.term l
      ∧ Relation.ReflTransGen (Books.Duty heard beats changes) { rn.raft.books with raftLog := l }
        r.books := by
  have answer := sound.piped.pipe.resps.done m (first ▸ List.mem_cons_self)
  have older := answer.term.1
  rw [sound.piped.term] at older
  obtain ⟨current, now, adjusts⟩ := @Raft.adjusts_stored _ heard beats changes rn.raft m
    answer.type answer.term.2 older
  obtain ⟨l, stores, duties⟩ := adjusts.result handled
  exact ⟨l, RaftLog.stored_ok stores, sound.piped.stored first now stores, duties⟩

/-- After an answer of the apply thread, which also reduces the quota. -/
theorem Sound.duties_applied {r : Raft} {err : Option StepError}
    (sound : Sound L d async p h rn) (answer : m.IsApplyResp)
    (handedOut : ∀ e, m.entries.getLast? = some e → e.index ≤ rn.raft.raftLog.applying)
    (idle : async = false → h.writes = []) (handled : rn.raft.step m = .ok (r, err))
    : (m.entries = [] ∧ r = rn.raft) ∨ ∃ (e : Entry) (l : RaftLog) (r' : Raft) (floor : Nat),
      m.entries.getLast? = some e
      ∧ rn.raft.raftLog.appliedTo (max e.index rn.raft.raftLog.applied) (entsSize m.entries) = .ok l
      ∧ Piped L async { p with floor := floor } rn.raft.term l
      ∧ Relation.ReflTransGen (Books.Duty heard beats changes) { rn.raft.books with raftLog := l }
        r'.books
      ∧ r = r'.reduceUncommittedSize (payloadsSize m.entries) := by
  have adjusts :=
    @Raft.adjusts_applied _ heard beats changes rn.raft m answer.type answer.term
  rcases adjusts.result handled with nothing | ⟨e, l, r', last, applies, duties, reduced⟩
  · exact .inl nothing
  · have inside := Nat.max_le.mpr ⟨handedOut e last, sound.piped.pipe.index.applied⟩
    have piped :=
      sound.piped.applied inside (fun isSync => sound.slots_eq (idle isSync)) applies
    exact .inr ⟨e, l, r', _, last, applies, piped, duties, reduced⟩

/-- How a node comes to have the books `b'` of a leader: it leads already, and does its
duties after its log may have advanced or its configuration has changed, or it has just
been elected.
-/
inductive Raft.Accounts (L : Nat → List Entry) (async : Bool) (heard : Message → Prop)
    (beats : ProgressState → Prop) (changes : ConfChangeV2 → Prop) (r : Raft) (b' : Books)
    : Prop where
  | leads {p : Pipeline} {l : RaftLog} {b : Books} {size : Nat} (leads : r.state = .stateLeader)
      (advances : r.raftLog.Advances l) (piped : Piped L async p r.term l)
      (duties : Relation.ReflTransGen (Books.Duty heard beats False)
        { r.books with raftLog := l } b)
      (books : b' = { b with uncommittedSize := size })
      (kept : l.storage = r.raftLog.storage ∨ b = { r.books with raftLog := l })
  | reconfigures {cc : ConfChangeV2} {config : TrackerConfig} {progress : ProgressMap}
      (leads : r.state = .stateLeader) (may : changes cc)
      (changed : r.changedConfig cc = .ok (config, progress))
      (duties : Relation.ReflTransGen (Books.Duty heard beats True)
        { r.books with config := config, progress := progress } b')
  | risen {own : Progress} (candidate : r.state = .stateCandidate)
      (found : r.trk.progress.get? r.id = some own)
      (duties : Relation.ReflTransGen (Books.Duty (fun _ => False) (fun _ => False) False)
        (r.books.takenOver own) b')

namespace Host

/-- Heartbeats may be sent. -/
def Beats (h : Host) (rn : RawNode) (s : Service) : Prop :=
  (s.ticks = true ∧ rn.raft.heartbeatTimeout ≤ rn.raft.heartbeatElapsed + 1)
    ∨ ∃ m ∈ h.handled rn s, rn.raft.Beats m

/-- The states of the peers that heartbeats are sent to. An acknowledgement may have been
handled before.
-/
def Beaten (h : Host) (rn : RawNode) (s : Service) (state : ProgressState) : Prop :=
  h.Beats rn s ∧ (state = .stateReplicate
    ∨ ∃ id pr, rn.raft.trk.progress.get? id = some pr ∧ pr.state = state)

omit [Codec] in
theorem Beats.within {s : Service} (beats : h.Beats rn s)
    : rn.raft.books.Within (h.Beaten rn s) :=
  ⟨fun id pr found => ⟨beats, .inr ⟨id, pr, found, rfl⟩⟩, beats, .inl rfl⟩

/-- The books of a node that leads after a service. -/
theorem Driven.accounts {s : Service} (driven : Driven async h s h' rn rn')
    (sound : EtcdRaft.Sound L d async p h rn)
    (sound' : EtcdRaft.Sound L d async p' h' rn') (leads' : rn'.raft.state = .stateLeader)
    : rn.raft.Accounts L async (fun m => h.handled rn s = some m) (h.Beaten rn s)
        (h.Applies s h') rn'.raft.books := by
  have conducted (conducts : rn.raft.Conducts (fun m => h.handled rn s = some m) (h.Beaten rn s)
      False rn'.raft)
      : rn.raft.Accounts L async (fun m => h.handled rn s = some m) (h.Beaten rn s)
        (h.Applies s h') rn'.raft.books := by
    cases conducts with
    | leads leads duties =>
        exact .leads leads (.refl _) sound.piped duties rfl (.inl rfl)
    | risen candidate found duties => exact .risen candidate found duties
    | other state => exact absurd leads' state
  cases driven with
  | quiet books reads advances =>
      have state : rn'.raft.state = rn.raft.state := congrArg Books.state books
      have term : rn'.raft.term = rn.raft.term := congrArg Books.term books
      exact .leads (state.symm.trans leads') advances (term ▸ sound'.piped) .refl books (.inr rfl)
  | step handled remote termed steps =>
      exact conducted ((rn.raft.conducts_step remote handled
        fun beats => Beats.within (.inr ⟨_, handled, beats⟩)).result steps)
  | tick clock ticks =>
      exact conducted ((rn.raft.conducts_tick fun due => Beats.within (.inl ⟨clock, due⟩)).result
        ticks)
  | change calls applied =>
      obtain ⟨leads, _, _, changed, duties⟩ :=
        (rn.raft.duties_applyConfChange _).result applied leads'
      exact .reconfigures leads calls changed duties
  | answerAppend answer popped handled =>
      obtain ⟨rest, done, _⟩ := sound.done_of_pops answer popped
      obtain ⟨l, stores, piped, duties⟩ := sound.duties_stored done handled
      exact .leads (Books.leads_of_duties duties leads') stores.advances piped duties rfl
        (.inl stores.storage)
  | answerApply answer queued idle handled =>
      rcases sound.duties_applied answer (sound.applyResps _ queued) idle handled with
        ⟨_, same⟩ | ⟨e, l, r', floor, last, applies, piped, duties, reduced⟩
      · rw [same] at leads' ⊢
        exact .leads leads' (.refl _) sound.piped .refl rfl (.inl rfl)
      · rw [reduced] at leads' ⊢
        exact .leads (Books.leads_of_duties duties leads') (.of_appliedTo applies) piped duties rfl
          (.inl (appliedTo_ok applies).2.2.2.1)

end Host

end

end EtcdRaft
