import EtcdRaft.Runs.Transitions

/-! The terms and types of the messages in a run. Whatever makes sense in one term only
carries it, and the network never sees a local message.
-/

namespace EtcdRaft

/-- A message that may be on the network. -/
structure Message.Public (m : Message) : Prop where
  remote : isLocalMsg m.type = false
  termed : m.type.termed = true → m.term ≠ 0

/-- A message that waits for a write. -/
structure Message.Waiting (m : Message) : Prop where
  type : Raft.isAfterAppend m.type = true
  termed : m.type.termed = true → m.term ≠ 0

theorem Message.Waiting.isPublic {m : Message} (waiting : m.Waiting) : m.Public where
  remote := by
    have type := waiting.type
    unfold Raft.isAfterAppend at type
    split at type
    · rename_i same; rw [same]; rfl
    · rename_i same; rw [same]; rfl
    · rename_i same; rw [same]; rfl
    · cases type
  termed := waiting.termed

-----------------------------------------------------------------------------------------
-- Nodes
-----------------------------------------------------------------------------------------

/-- The node's messages carry their terms, and its own term is positive as soon as it
campaigns or has anything to store.
-/
structure Core.Termed (c : Core) : Prop where
  msgs : ∀ m ∈ c.msgs, m.Public
  waiting : ∀ m ∈ c.msgsAfterAppend, m.Waiting
  campaigns : c.state = .stateCandidate ∨ c.state = .stateLeader → c.term ≠ 0
  unstable : c.raftLog.unstable.entries ≠ [] ∨ c.raftLog.unstable.snapshot ≠ none → c.term ≠ 0

variable {now : Nat} {m : Message} {c c' : Core}

namespace Core.Termed

theorem send (ok : c.Termed) {new : List Message} (sends : ∀ sent ∈ new, sent.Public)
    : { c with msgs := c.msgs ++ new }.Termed :=
  { ok with msgs := fun m member => (List.mem_append.mp member).elim (ok.msgs m) (sends m) }

theorem answer (ok : c.Termed) {sent : Message} (waiting : sent.Waiting) : (c.answer sent).Termed :=
  { ok with
    waiting := by
      intro m member
      rcases List.mem_append.mp member with old | new
      · exact ok.waiting m old
      · rw [List.mem_singleton.mp new]
        exact waiting }

theorem answered (ok : c.Termed) {states : List ReadState} {msgs : List Message}
    {p : Message → Prop} (answers : ∀ m ∈ msgs, m.type = .msgReadIndexResp ∧ p m)
    : (c.answered states msgs).Termed := by
  have sends : ∀ m ∈ msgs, m.Public := by
    intro m member
    obtain ⟨type, _⟩ := answers m member
    exact ⟨by rw [type]; rfl, by rw [type]; nofun⟩
  exact { ok.send sends with }

/-- In a positive term the log and the role do not matter. -/
theorem withLog (ok : c.Termed) (positive : c.term ≠ 0) (l : RaftLog)
    : { c with raftLog := l }.Termed :=
  { ok with unstable := fun _ => positive, campaigns := fun _ => positive }

end Core.Termed

theorem MayAnswer.waiting {sent : Message} (may : MayAnswer c sent) (ok : c.Termed)
    : sent.Waiting := by
  cases may with
  | reject type reject term =>
      rcases type with same | same
      · exact ⟨by rw [same]; rfl, fun _ => term⟩
      · exact ⟨by rw [same]; rfl, fun _ => term⟩
  | preVote type fromId term => exact ⟨by rw [type]; rfl, fun _ => term⟩
  | empty type index term => exact ⟨by rw [type]; rfl, fun _ => term⟩
  | selfVote candidate own =>
      rw [own]
      exact ⟨rfl, fun _ => ok.campaigns (.inl candidate)⟩

variable [Codec]

theorem MaySend.isPublic {sent : Message} (may : MaySend m c sent) (ok : c.Termed)
    : sent.Public := by
  cases may with
  | app type leads term prev entries commit =>
      exact ⟨by rw [type]; rfl, fun _ => term ▸ ok.campaigns (.inr leads)⟩
  | snap type leads term snapshot nonempty =>
      exact ⟨by rw [type]; rfl, fun _ => term ▸ ok.campaigns (.inr leads)⟩
  | heartbeat type leads term toId acked learner progress commit context =>
      exact ⟨by rw [type]; rfl, fun _ => term ▸ ok.campaigns (.inr leads)⟩
  | vote type candidate term fromId last =>
      exact ⟨by rw [type]; rfl, fun _ => term ▸ ok.campaigns (.inl candidate)⟩
  | forward type forwarded entries =>
      rw [← type] at forwarded
      unfold MessageType.forwarded at forwarded
      split at forwarded
      · rename_i same; exact ⟨by rw [same]; rfl, by rw [same]; nofun⟩
      · rename_i same; exact ⟨by rw [same]; rfl, by rw [same]; nofun⟩
      · rename_i same; exact ⟨by rw [same]; rfl, by rw [same]; nofun⟩
      · cases forwarded
  | other type =>
      rcases type with same | same
      · exact ⟨by rw [same]; rfl, by rw [same]; nofun⟩
      · exact ⟨by rw [same]; rfl, by rw [same]; nofun⟩

/-- A small action keeps the terms. -/
theorem Act.termed (act : Act now m c c') (sound : m.type.termed = true → m.term ≠ 0)
    (ok : c.Termed)
    : c'.Termed := by
  cases act with
  | becomeFollower term newer later =>
      exact { ok with
        campaigns := by rintro (candidate | leads) <;> contradiction
        unstable := fun pending => by have := ok.unstable pending; show term ≠ 0; omega }
  | becomePreCandidate type enabled notLeader may =>
      exact { ok with campaigns := by rintro (candidate | leads) <;> contradiction }
  | becomeCandidate notLeader may =>
      exact { ok with
        campaigns := fun _ => Nat.succ_ne_zero _
        unstable := fun _ => Nat.succ_ne_zero _ }
  | send sent may => exact ok.send (List.forall_mem_singleton.mpr (may.isPublic ok))
  | answer sent may => exact ok.answer (may.waiting ok)
  | grant type term free upToDate =>
      have positive : c.term ≠ 0 := term ▸ sound (by rw [type]; rfl)
      exact { ok.answer ⟨rfl, fun _ => positive⟩ with }
  | poll type candidate term votes recorded => exact { ok with }
  | pollPre type preCandidate term votes recorded => exact { ok with }
  | win candidate won =>
      have positive := ok.campaigns (.inl candidate)
      exact { ok with campaigns := fun _ => positive, unstable := fun _ => positive }
  | acknowledged type leads term reject => exact { ok with }
  | commit leads raftLog commits => exact ok.withLog (ok.campaigns (.inr leads)) raftLog
  | accept type follower term above raftLog last appended =>
      have positive : c.term ≠ 0 := term ▸ sound (by rw [type]; rfl)
      exact (ok.withLog positive raftLog).answer ⟨rfl, fun _ => positive⟩
  | ackCommitted type follower term =>
      have positive : c.term ≠ 0 := by
        refine term ▸ sound ?_
        rcases type with same | same <;> rw [same] <;> rfl
      exact ok.answer ⟨rfl, fun _ => positive⟩
  | heartbeat type follower term raftLog committed =>
      have positive : c.term ≠ 0 := term ▸ sound (by rw [type]; rfl)
      exact (ok.withLog positive raftLog).send
        (List.forall_mem_singleton.mpr ⟨rfl, fun _ => positive⟩)
  | fastForward type follower term newer holds raftLog committed =>
      exact ok.withLog (term ▸ sound (by rw [type]; rfl)) raftLog
  | restore type follower term newer lacks chg blank cfg progress config same =>
      have positive : c.term ≠ 0 := term ▸ sound (by rw [type]; rfl)
      exact { (ok.withLog positive _).answer ⟨rfl, fun _ => positive⟩ with }
  | stored type current term raftLog stores =>
      have positive := sound (by rw [type]; rfl)
      refine ok.withLog ?_ raftLog
      split at term
      · exact term ▸ positive
      · omega
  | applied type e last size raftLog applies =>
      have unstable : raftLog.unstable = c.raftLog.unstable :=
        (appliedTo_ok applies).2.2.1
      exact { ok with unstable := by rw [unstable]; exact ok.unstable }
  | setPending index beyond => exact { ok with }
  | park type leads => exact { ok with }
  | unpark => exact { ok with }
  | register leads current safe request received readOnly own => exact { ok with }
  | confirm type leads term safe acked acks readOnly reads advances states msgs answers =>
      have answered : (c.answered states msgs).Termed := ok.answered answers.2
      exact { answered with }
  | answerAtOnce leads allowed states msgs answers => exact ok.answered answers.2
  | received type rs index stamp => exact { ok with }

theorem Acts.termed (acts : Acts now m c c') (sound : m.type.termed = true → m.term ≠ 0)
    (ok : c.Termed)
    : c'.Termed := by
  induction acts with
  | refl => exact ok
  | tail _ act ih => exact act.termed sound ih

theorem Steps.termed (steps : Steps now m c c')
    (sound : m.type.termed = true → m.term ≠ 0) (ok : c.Termed)
    : c'.Termed := by
  obtain ⟨c1, acts, rfl | ⟨c2, appends, new, rfl, sends⟩⟩ := steps
  · exact Acts.termed acts sound ok
  · have ok1 := Acts.termed acts sound ok
    have ok2 : c2.Termed := by
      cases appends with
      | mk leads es nonempty index proposal source raftLog appends =>
          have positive := ok1.campaigns (.inr leads)
          exact { (ok1.withLog positive raftLog).answer ⟨rfl, fun _ => positive⟩ with }
    exact ok2.send fun sent member => (sends sent member).isPublic ok2

omit [Codec] in
theorem exists_later (start : Nat) (reads : List Message)
    : ∃ now, start ≤ now ∧ ∀ q ∈ reads, q.stamp ≤ now := by
  induction reads with
  | nil => exact ⟨start, Nat.le_refl _, nofun⟩
  | cons q rest ih =>
      obtain ⟨now, later, all⟩ := ih
      have right := Nat.le_max_right q.stamp now
      refine ⟨max q.stamp now, later.trans right, List.forall_mem_cons.mpr ⟨?_, ?_⟩⟩
      · exact Nat.le_max_left _ _
      · exact fun q member => (all q member).trans right

/-- A step is a sequence of small actions, at a time after all the requests that wait. -/
theorem Raft.exists_steps {r r' : Raft} {err : Option StepError}
    (sound : m.type.termed = true → m.term ≠ 0) (steps : r.step m = .ok (r', err))
    : ∃ now, Steps now m r.core r'.core := by
  obtain ⟨now, later, all⟩ := exists_later m.stamp r.pendingReadIndexMessages
  exact ⟨now, (finishes_step ⟨sound, fun _ => later, all⟩).result steps⟩

-----------------------------------------------------------------------------------------
-- Hosts
-----------------------------------------------------------------------------------------

/-- The answer of the append thread. -/
structure Message.IsAppendResp (m : Message) : Prop where
  type : m.type = .msgStorageAppendResp
  fromId : m.fromId = localAppendThread
  term : m.term ≠ 0

/-- The answer of the apply thread. -/
structure Message.IsApplyResp (m : Message) : Prop where
  type : m.type = .msgStorageApplyResp
  fromId : m.fromId = localApplyThread
  term : m.term = 0

/-- What a node may have to step on `Advance`. -/
def Message.IsOwn (m : Message) : Prop := m.Waiting ∨ m.IsAppendResp ∨ m.IsApplyResp

omit [Codec] in
theorem MessageType.termed_of_called {type : MessageType} (called : type.called = true)
    : type.termed = false := by
  cases type <;> first | rfl | cases called

omit [Codec] in
theorem Message.IsOwn.termed {m : Message} (own : m.IsOwn) (termed : m.type.termed = true)
    : m.term ≠ 0 := by
  rcases own with waiting | append | apply
  · exact waiting.termed termed
  · exact append.term
  · rw [apply.type] at termed
    cases termed

/-- The messages of a host, wherever they wait. -/
structure Host.Termed (h : Host) : Prop where
  core : ∀ rn, h.node = some rn → rn.raft.core.Termed
  own : ∀ rn, h.node = some rn → ∀ m ∈ rn.stepsOnAdvance, m.IsOwn
  messages : ∀ w ∈ h.writes, ∀ m ∈ w.messages, m.Public
  response : ∀ w ∈ h.writes, ∀ m ∈ w.response, m.IsAppendResp
  batches : ∀ b ∈ h.batches, ∀ m ∈ b.response, m.IsApplyResp
  appended : ∀ m ∈ h.appended, m.IsAppendResp
  applied : ∀ m ∈ h.applied, m.IsApplyResp

namespace Host.Termed

variable {σ : Setup} {id : Nat} {arrives : Message → Prop} {h h' : Host}

omit [Codec] in
/-- A host without a node, whose queues are empty. -/
theorem of_idle {h : Host} (down : h.node = none) (writes : h.writes = [])
    (batches : h.batches = [])
    (appended : h.appended = []) (applied : h.applied = [])
    : h.Termed where
  core := by simp [down]
  own := by simp [down]
  messages := by simp [writes]
  response := by simp [writes]
  batches := by simp [batches]
  appended := by simp [appended]
  applied := by simp [applied]

omit [Codec] in
theorem stop (h : Host) : h.stop.Termed := of_idle rfl rfl rfl rfl rfl

omit [Codec] in
/-- The host without the message that its node handles. -/
theorem source (ok : h.Termed) (source : Source σ now arrives h m h')
    (network : ∀ m, arrives m → m.Public)
    : h'.Termed ∧ (m.type.termed = true → m.term ≠ 0) := by
  cases source with
  | @network sent arrived =>
      refine ⟨ok, ?_⟩
      have termed := (network sent arrived).termed
      obtain ⟨stamp, same⟩ := sent.receivedAt_eq now
      rw [same]
      exact termed
  | call call =>
      refine ⟨ok, fun termed => ?_⟩
      rw [MessageType.termed_of_called call.type] at termed
      cases termed
  | appended queued =>
      have all := ok.appended
      rw [queued] at all
      obtain ⟨first, rest⟩ := List.forall_mem_cons.mp all
      exact ⟨{ ok with appended := rest }, fun _ => first.term⟩
  | applied queued =>
      have all := ok.applied
      rw [queued] at all
      obtain ⟨first, rest⟩ := List.forall_mem_cons.mp all
      refine ⟨{ ok with applied := rest }, fun termed => ?_⟩
      rw [first.type] at termed
      cases termed

omit [Codec] in
/-- The same for a message that the node steps on `Advance`. -/
theorem takeOwn (ok : h.Termed) (source : Own h m h')
    : h'.Termed ∧ (m.type.termed = true → m.term ≠ 0) := by
  obtain @⟨rn, rest, node, queued, released⟩ := source
  have all := ok.own rn node
  rw [queued] at all
  obtain ⟨first, rest⟩ := List.forall_mem_cons.mp all
  refine ⟨{ ok with core := ?_, own := ?_ }, first.termed⟩
  · rintro _ ⟨⟩
    exact ok.core rn node
  · rintro _ ⟨⟩
    exact rest

omit [Codec] in
/-- Another node in the same host. -/
theorem withNode (ok : h.Termed) {rn : RawNode} (core : rn.raft.core.Termed)
    (own : ∀ m ∈ rn.stepsOnAdvance, m.IsOwn)
    : { h with node := some rn }.Termed :=
  { ok with
    core := by rintro _ ⟨⟩; exact core
    own := by rintro _ ⟨⟩; exact own }

end Host.Termed

theorem Host.Handles.termed {h h' : Host} {takes : Host → Message → Host → Prop}
    (handles : Handles takes h h')
    (sound : ∀ {m h'}, takes h m h' → h'.Termed ∧ (m.type.termed = true → m.term ≠ 0))
    : h'.Termed := by
  obtain ⟨source, node, steps⟩ := handles
  obtain ⟨ok', sound⟩ := sound source
  obtain ⟨now', steps⟩ := Raft.exists_steps sound steps
  have own := ok'.own _ node
  exact ok'.withNode (Steps.termed steps sound (ok'.core _ node)) own

omit [Codec] in
theorem Started.termed {c : Config} {r : Raft} (started : Started c r) : r.core.Termed where
  msgs := by
    show ∀ m ∈ r.msgs, m.Public
    simp [started.msgs]
  waiting := by
    show ∀ m ∈ r.msgsAfterAppend, m.Waiting
    simp [started.msgsAfterAppend]
  campaigns := by
    show r.state = _ ∨ r.state = _ → _
    simp [started.state]
  unstable := by
    show r.raftLog.unstable.entries ≠ [] ∨ r.raftLog.unstable.snapshot ≠ none → _
    simp [started.log.unstable]

/-- A tick is a sequence of small actions, those of a node that wants to campaign. -/
theorem Raft.acts_tick {r r' : Raft} (ticks : r.tick = .ok r')
    : Acts 0 { type := .msgHup } r.core r'.core := by
  have reaches : Reaches 0 { type := .msgHup } r.core r.tick core fun _ => True :=
    reaches_tick rfl
  exact (reaches.result ticks).1

/-- So is the reaction to a new configuration. -/
theorem Raft.acts_applyConfChange {r r' : Raft} {cc : ConfChangeV2} {cs : ConfState}
    (applied : r.applyConfChange cc = .ok (r', cs))
    : ∃ cfg progress, r.changedConfig cc = .ok (cfg, progress) ∧ Acts 0 { type := .msgHup }
        { r.core with config := cfg, progress := progressOf progress } r'.core := by
  unfold applyConfChange at applied
  obtain ⟨⟨cfg, progress⟩, changed, switched⟩ := except_bind_eq_ok.mp applied
  exact ⟨cfg, progress, changed, ((ends_switchToConfig rfl).result switched).2⟩

namespace RawNode

variable {rn rn' : RawNode}

omit [Codec] in
theorem appendResps {resps : List Message} (ok : rn.raft.core.Termed)
    (answers : storageAppendResp rn.raft rn.raft.raftLog.unstable.nextSnapshot = .ok resps)
    : ∀ m ∈ resps, m.IsAppendResp := by
  rcases storageAppendResp_ok answers with ⟨rfl, _⟩ | ⟨m, rfl, answer⟩
  · exact List.forall_mem_nil _
  · refine List.forall_mem_singleton.mpr ⟨answer.type, answer.fromId, ?_⟩
    rw [answer.term]
    refine ok.unstable (answer.needed.imp_right fun snapshot missing => ?_)
    have missing : rn.raft.raftLog.unstable.snapshot = none := missing
    simp [Unstable.nextSnapshot, missing, isEmptySnap] at snapshot

omit [Codec] in
theorem mem_messages {committed : List Entry} {append : Option StorageMessage}
    {m : Message} (member : m ∈ (rn.readyOf committed append).messages)
    : m ∈ rn.raft.msgs ∨ m ∈ rn.raft.msgsAfterAppend := by
  simp only [readyOf] at member
  split at member
  · exact .inl member
  · exact (List.mem_append.mp member).imp_right List.mem_of_mem_filter

omit [Codec] in
/-- What a node has to step on `Advance`. -/
theorem mem_ownSteps {committed : List Entry} {resps : List Message}
    (ok : rn.raft.core.Termed)
    (answers : storageAppendResp rn.raft rn.raft.raftLog.unstable.nextSnapshot = .ok resps)
    {m : Message} (member : m ∈ rn.ownSteps committed resps)
    : (m ∈ rn.raft.msgsAfterAppend ∧ m.toId = rn.raft.id) ∨ m.IsAppendResp
      ∨ m.IsApplyResp := by
  simp only [ownSteps, applyAnswers, List.mem_append] at member
  rcases member with (waiting | appended) | applied
  · obtain ⟨waiting, toSelf⟩ := List.mem_filter.mp waiting
    exact .inl ⟨waiting, by simpa using toSelf⟩
  · exact .inr (.inl (appendResps ok answers m appended))
  · split at applied
    · rw [List.mem_singleton.mp applied]
      exact .inr (.inr ⟨rfl, rfl, rfl⟩)
    · cases applied

omit [Codec] in
/-- The answers among them. -/
theorem filter_ownSteps {committed : List Entry} {resps : List Message}
    (ok : rn.raft.core.Termed)
    (answers : storageAppendResp rn.raft rn.raft.raftLog.unstable.nextSnapshot = .ok resps)
    : (rn.ownSteps committed resps).filter (fun m => m.type == .msgStorageAppendResp) = resps
      ∧ (rn.ownSteps committed resps).filter (fun m => m.type == .msgStorageApplyResp)
        = rn.applyAnswers committed := by
  have appended := appendResps ok answers
  have waiting : ∀ m ∈ rn.raft.msgsAfterAppend.filter fun m => m.toId == rn.raft.id,
      m.type ≠ .msgStorageAppendResp ∧ m.type ≠ .msgStorageApplyResp := by
    intro m member
    have type := (ok.waiting m (List.mem_of_mem_filter member)).type
    refine ⟨fun same => ?_, fun same => ?_⟩
    · rw [same] at type
      cases type
    · rw [same] at type
      cases type
  unfold ownSteps applyAnswers
  simp only [List.filter_append]
  refine ⟨?_, ?_⟩
  · rw [List.filter_eq_nil_iff.mpr fun m member => by simpa using (waiting m member).1,
      List.filter_eq_self.mpr fun m member => by simp [(appended m member).type], List.nil_append]
    split
    · exact List.append_nil _
    · exact List.append_nil _
  · rw [List.filter_eq_nil_iff.mpr fun m member => by simpa using (waiting m member).2,
      List.filter_eq_nil_iff.mpr fun m member => by simp [(appended m member).type],
      List.nil_append, List.nil_append]
    split <;> rfl

theorem termed_accepted (ok : rn.raft.core.Termed) {rd : Ready} {steps : List Message}
    {committed : List Entry} {l : RaftLog} (accepts : rn.handedOutLog committed = .ok l)
    : (rn.accepted rd steps l).raft.core.Termed where
  msgs := List.forall_mem_nil _
  waiting := List.forall_mem_nil _
  campaigns := ok.campaigns
  unstable := by
    show l.unstable.entries ≠ [] ∨ l.unstable.snapshot ≠ none → _
    rw [(handedOutLog_ok accepts).1]
    exact ok.unstable

end RawNode

namespace Host.Termed

variable {σ : Setup} {id : Nat} {arrives : Message → Prop} {h h' : Host}

/-- What a synchronous `Ready` leaves to be done. -/
theorem readySync {rn rn' : RawNode} {rd : Ready} (ok : h.Termed)
    (node : h.node = some rn)
    (sync : rn'.asyncStorageWrites = false) (taken : rn.Taken rn' rd)
    : { h with
        node := some rn'
        outstanding := true
        writes := h.writes ++ [writeOf rd rd.messages []]
        batches := h.batches ++ [{ entries := rd.committedEntries, response := [] : Batch }]
      }.Termed := by
  have core := ok.core rn node
  cases taken with
  | async mode => exact absurd (mode.symm.trans sync) nofun
  | @sync committed resps raftLog mode fresh appliable answers accepts =>
      have messages : ∀ m ∈ (rn.readyOf committed none).messages, m.Public := by
        intro m member
        rcases RawNode.mem_messages member with atOnce | waiting
        · exact core.msgs m atOnce
        · exact (core.waiting m waiting).isPublic
      have own : ∀ m ∈ rn.ownSteps committed resps, m.IsOwn := by
        intro m member
        exact (RawNode.mem_ownSteps core answers member).imp_left
          fun waits => core.waiting m waits.1
      exact {
        core := by rintro _ ⟨⟩; exact RawNode.termed_accepted core accepts
        own := by rintro _ ⟨⟩; exact own
        messages := List.forall_mem_append.mpr
          ⟨ok.messages, List.forall_mem_singleton.mpr messages⟩
        response := List.forall_mem_append.mpr ⟨ok.response, by simp [writeOf]⟩
        batches := List.forall_mem_append.mpr ⟨ok.batches, by simp⟩
        appended := ok.appended
        applied := ok.applied }

omit [Codec] in
/-- An asynchronous write sends the messages that wait for it, and is answered by the
append thread.
-/
theorem mem_asyncWrites {rd : Ready} {waiting resps : List Message}
    (request : rd.storageAppend = none
      ∨ ∃ message, rd.storageAppend = some { message := message, responses := waiting ++ resps })
    (waits : ∀ m ∈ waiting, m.Waiting) (answers : ∀ m ∈ resps, m.IsAppendResp)
    : ∀ w ∈ asyncWrites rd, (∀ m ∈ w.messages, m ∈ waiting)
      ∧ ∀ m ∈ w.response, m ∈ resps := by
  have other : ∀ m ∈ waiting, m.type ≠ .msgStorageAppendResp := by
    intro m member same
    have type := (waits m member).type
    rw [same] at type
    cases type
  rcases request with none | ⟨message, some⟩
  · simp [asyncWrites, none]
  · simp only [asyncWrites, some, List.mem_singleton, forall_eq, writeOf, List.mem_filter,
      List.mem_append, Bool.not_eq_true', beq_eq_false_iff_ne, beq_iff_eq]
    refine ⟨?_, ?_⟩
    · rintro m ⟨waiting | answer, kept⟩
      · exact waiting
      · exact absurd (answers m answer).type kept
    · rintro m ⟨waiting | answer, kept⟩
      · exact absurd kept (other m waiting)
      · exact answer

omit [Codec] in
/-- The writes of an asynchronous `Ready`. -/
theorem asyncWrites_taken {rn : RawNode} {committed : List Entry} {resps : List Message}
    {append : Option StorageMessage} (core : rn.raft.core.Termed)
    (request : rn.AppendRequest resps append)
    : ∀ w ∈ asyncWrites (rn.readyOf committed append),
        (∀ m ∈ w.messages, m ∈ rn.raft.msgsAfterAppend) ∧ ∀ m ∈ w.response, m.IsAppendResp := by
  have answers : ∀ m ∈ resps, m.IsAppendResp := by
    cases request with
    | none => exact List.forall_mem_nil _
    | some answers => exact RawNode.appendResps core answers
  have asked : (rn.readyOf committed append).storageAppend = none ∨ ∃ message,
      (rn.readyOf committed append).storageAppend
        = some { message := message, responses := rn.raft.msgsAfterAppend ++ resps } := by
    cases request with
    | none => exact .inl rfl
    | some => exact .inr ⟨_, rfl⟩
  intro w member
  obtain ⟨messages, response⟩ := mem_asyncWrites asked core.waiting answers w member
  exact ⟨messages, fun m resp => answers m (response m resp)⟩

omit [Codec] in
/-- The answers to the writes of an asynchronous `Ready`. -/
theorem flatMap_asyncWrites {rn : RawNode} {committed : List Entry} {resps : List Message}
    {append : Option StorageMessage} (core : rn.raft.core.Termed)
    (request : rn.AppendRequest resps append)
    : (asyncWrites (rn.readyOf committed append)).flatMap Write.response = resps := by
  cases request with
  | none => rfl
  | some answers =>
      have appended := RawNode.appendResps core answers
      have other : ∀ m ∈ rn.raft.msgsAfterAppend, m.type ≠ .msgStorageAppendResp := by
        intro m member same
        have type := (core.waiting m member).type
        rw [same] at type
        cases type
      simp only [asyncWrites, RawNode.readyOf, List.flatMap_singleton, writeOf, List.filter_append]
      rw [List.filter_eq_nil_iff.mpr fun m member => by simpa using other m member,
        List.filter_eq_self.mpr fun m member => by simp [(appended m member).type],
        List.nil_append]

/-- What an asynchronous `Ready` leaves to be done, and what it sends at once. -/
theorem readyAsync {rn rn' : RawNode} {rd : Ready} (ok : h.Termed)
    (node : h.node = some rn)
    (async : rn'.asyncStorageWrites = true) (taken : rn.Taken rn' rd)
    : { h with
        node := some rn'
        writes := h.writes ++ asyncWrites rd
        batches := h.batches ++ asyncBatches rd }.Termed
      ∧ ∀ m ∈ rd.messages, m.Public := by
  have core := ok.core rn node
  cases taken with
  | sync mode => exact absurd (mode.symm.trans async) nofun
  | @async committed resps append raftLog mode appliable request accepts =>
      have writes := @asyncWrites_taken rn committed resps append core request
      refine ⟨{
        core := by rintro _ ⟨⟩; exact RawNode.termed_accepted core accepts
        own := by rintro _ ⟨⟩; exact ok.own rn node
        messages := List.forall_mem_append.mpr ⟨ok.messages, fun w member m waits =>
          (core.waiting m ((writes w member).1 m waits)).isPublic⟩
        response := List.forall_mem_append.mpr ⟨ok.response, fun w member => (writes w member).2⟩
        batches := List.forall_mem_append.mpr ⟨ok.batches, ?_⟩
        appended := ok.appended
        applied := ok.applied }, ?_⟩
      · intro b member m answer
        simp only [Host.asyncBatches, RawNode.readyOf] at member
        split at member
        · cases member
        · rename_i request
          split at request
          · cases request
            rw [List.mem_singleton.mp member] at answer
            rw [List.mem_singleton.mp answer]
            exact ⟨rfl, rfl, rfl⟩
          · cases request
      · intro m member
        simp only [RawNode.readyOf, mode, ↓reduceIte] at member
        exact core.msgs m member

omit [Codec] in
theorem installed (ok : h.Termed) (snapshot : Option Snapshot)
    : (h.installed snapshot).Termed := by
  unfold Host.installed
  split
  · exact ok
  · split
    · exact { ok with }
    · exact ok

omit [Codec] in
/-- A batch with fewer entries. -/
theorem withEntries (ok : h.Termed) {entries entries' : List Entry}
    {response : List Message}
    {rest : List Batch} (queued : h.batches = ⟨entries, response⟩ :: rest)
    : { h with batches := ⟨entries', response⟩ :: rest }.Termed := by
  have batches := ok.batches
  rw [queued] at batches
  obtain ⟨first, rest⟩ := List.forall_mem_cons.mp batches
  exact { ok with batches := List.forall_mem_cons.mpr ⟨first, rest⟩ }

omit [Codec] in
/-- The first batch is acknowledged. -/
theorem finish (ok : h.Termed) {entries : List Entry} {response : List Message}
    {rest : List Batch} (queued : h.batches = ⟨entries, response⟩ :: rest)
    : { h with batches := rest, applied := h.applied ++ response }.Termed := by
  have batches := ok.batches
  rw [queued] at batches
  obtain ⟨first, rest⟩ := List.forall_mem_cons.mp batches
  exact { ok with
    batches := rest
    applied := List.forall_mem_append.mpr ⟨ok.applied, first⟩ }

/-- The configuration changes. -/
theorem applyConfChange {rn : RawNode} {r : Raft} {cc : ConfChangeV2} {cs : ConfState}
    (ok : h.Termed) (node : h.node = some rn)
    (applied : rn.raft.applyConfChange cc = .ok (r, cs))
    : { h with node := some { rn with raft := r } }.Termed := by
  have own := ok.own _ node
  obtain ⟨cfg, progress, _, acts⟩ := Raft.acts_applyConfChange applied
  have core := Acts.termed acts nofun { ok.core _ node with }
  exact ok.withNode core own

/-- Every transition keeps the terms and sends public messages only. -/
theorem moves {out : Output} (ok : h.Termed) (network : ∀ m, arrives m → m.Public)
    (moves : Moves σ id now arrives h out h')
    : h'.Termed ∧ ∀ m ∈ out.sent, m.Public := by
  cases moves with
  | handle handles =>
      exact ⟨handles.termed fun source => ok.source source network, List.forall_mem_nil _⟩
  | refuse source refused => exact ⟨(ok.source source network).1, List.forall_mem_nil _⟩
  | fail failure => exact ⟨stop h, List.forall_mem_nil _⟩
  | start down known starts =>
      obtain ⟨started, _, _, _, steps⟩ := (ends_newRawNode _).result starts
      refine ⟨{ ok.withNode started.termed (by simp [steps]) with }, List.forall_mem_nil _⟩
  | crash k =>
      refine ⟨?_, List.forall_mem_nil _⟩
      unfold Host.crash
      dsimp only
      split
      · exact of_idle rfl rfl rfl rfl rfl
      · exact of_idle rfl rfl rfl rfl rfl
  | tick node ticks =>
      have own := ok.own _ node
      have core := Acts.termed (Raft.acts_tick ticks) nofun (ok.core _ node)
      exact ⟨ok.withNode core own, List.forall_mem_nil _⟩
  | @readySync rn rn' rd node free sync taken =>
      exact ⟨ok.readySync node sync (rn.ends_ready.result taken), List.forall_mem_nil _⟩
  | @readyAsync rn rn' rd node free async taken =>
      exact ok.readyAsync node async (rn.ends_ready.result taken)
  | @persist rn w rest ms node queued stored =>
      have messages := ok.messages
      have response := ok.response
      rw [queued] at messages response
      obtain ⟨sent, messages⟩ := List.forall_mem_cons.mp messages
      obtain ⟨answers, response⟩ := List.forall_mem_cons.mp response
      have own := ok.own _ node
      refine ⟨installed ?_ _, sent⟩
      exact {
        core := by rintro _ ⟨⟩; exact { ok.core rn node with }
        own := by rintro _ ⟨⟩; exact own
        messages := messages
        response := response
        batches := ok.batches
        appended := List.forall_mem_append.mpr ⟨ok.appended, answers⟩
        applied := ok.applied }
  | skip node queued old => exact ⟨ok.withEntries queued, List.forall_mem_nil _⟩
  | apply node queued new normal =>
      exact ⟨{ ok.withEntries queued with }, List.forall_mem_nil _⟩
  | applyConfChange node queued new decoded applied =>
      exact ⟨{ (ok.withEntries queued).applyConfChange node applied with }, List.forall_mem_nil _⟩
  | finish node queued => exact ⟨ok.finish queued, List.forall_mem_nil _⟩
  | @createSnapshot rn i ms node applied durable known created =>
      have own := ok.own _ node
      exact ⟨ok.withNode { ok.core _ node with } own, List.forall_mem_nil _⟩
  | @compact rn i ms node applied compacted =>
      have own := ok.own _ node
      exact ⟨ok.withNode { ok.core _ node with } own, List.forall_mem_nil _⟩

/-- A whole event keeps the terms. -/
theorem proceeds {out : Output} (ok : h.Termed) (network : ∀ m, arrives m → m.Public)
    (proceeds : Proceeds σ id now arrives h out h')
    : h'.Termed ∧ ∀ m ∈ out.sent, m.Public := by
  exact proceeds.preserves ok (ok.moves network) { ok with }
    (fun ok handles => handles.termed ok.takeOwn) (stop h)

end Host.Termed

end EtcdRaft
