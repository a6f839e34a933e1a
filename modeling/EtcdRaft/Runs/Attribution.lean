import EtcdRaft.Runs.Clusters

/-! Who answers a request for a pre-vote: the messages on the network, and those that wait
for a write, come from the node they name.
-/

namespace EtcdRaft

/-- An answer to a request for a pre-vote is the node's own and carries a term. -/
def Message.PreVoteOf (m : Message) (id : Nat) : Prop :=
  m.type = .msgPreVoteResp → m.fromId = id ∧ m.term ≠ 0

theorem Message.PreVoteOf.of_type {m : Message} {id : Nat}
    (other : m.type ≠ .msgPreVoteResp)
    : m.PreVoteOf id :=
  fun type => absurd type other

/-- The node's answers to requests for a pre-vote are its own, and wait for its writes. -/
structure Core.Attributed (c : Core) : Prop where
  msgs : ∀ m ∈ c.msgs, m.type ≠ .msgPreVoteResp
  waiting : ∀ m ∈ c.msgsAfterAppend, m.PreVoteOf c.id

namespace Core.Attributed

variable {c : Core}

theorem send (ok : c.Attributed) {new : List Message}
    (other : ∀ sent ∈ new, sent.type ≠ .msgPreVoteResp)
    : { c with msgs := c.msgs ++ new }.Attributed :=
  { ok with msgs := List.forall_mem_append.mpr ⟨ok.msgs, other⟩ }

theorem answer (ok : c.Attributed) {sent : Message} (own : sent.PreVoteOf c.id)
    : (c.answer sent).Attributed :=
  { ok with
    waiting := List.forall_mem_append.mpr ⟨ok.waiting, List.forall_mem_singleton.mpr own⟩ }

theorem answered (ok : c.Attributed) {states : List ReadState} {msgs : List Message}
    {p : Message → Prop} (answers : ∀ m ∈ msgs, m.type = .msgReadIndexResp ∧ p m)
    : (c.answered states msgs).Attributed := by
  have other : ∀ m ∈ msgs, m.type ≠ .msgPreVoteResp := by
    intro m member
    rw [(answers m member).1]
    nofun
  exact { ok.send other with }

end Core.Attributed

theorem Core.preVoteOf_ack (c : Core) (toId index id : Nat) : (c.ack toId index).PreVoteOf id :=
  .of_type nofun

theorem Core.preVoteOf_grant (c : Core) (toId id : Nat) : (c.grant toId).PreVoteOf id :=
  .of_type nofun

theorem MayAnswer.preVoteOf {c : Core} {sent : Message} (may : MayAnswer c sent)
    : sent.PreVoteOf c.id := by
  cases may with
  | reject type =>
      exact .of_type (by rcases type with same | same <;> rw [same] <;> nofun)
  | preVote type fromId term => exact fun _ => ⟨fromId, term⟩
  | empty type => exact .of_type (by rw [type]; nofun)
  | selfVote candidate own => exact .of_type (by rw [own]; nofun)

variable [Codec] {now : Nat} {m : Message} {c c' : Core}

theorem MaySend.notPreVote {sent : Message} (may : MaySend m c sent)
    : sent.type ≠ .msgPreVoteResp := by
  cases may with
  | app type => rw [type]; nofun
  | snap type => rw [type]; nofun
  | heartbeat type => rw [type]; nofun
  | vote type => rw [type]; nofun
  | forward type forwarded =>
      rintro same
      rw [← type, same] at forwarded
      cases forwarded
  | other type => rcases type with same | same <;> rw [same] <;> nofun

theorem Act.id (act : Act now m c c') : c'.id = c.id := by
  cases act <;> rfl

theorem Act.attributed (act : Act now m c c') (ok : c.Attributed) : c'.Attributed := by
  cases act with
  | send sent may => exact ok.send (List.forall_mem_singleton.mpr may.notPreVote)
  | answer sent may => exact ok.answer may.preVoteOf
  | grant => exact { ok.answer (c.preVoteOf_grant m.fromId c.id) with }
  | accept type follower term above raftLog last =>
      exact { ok.answer ({ c with raftLog := raftLog }.preVoteOf_ack m.fromId last c.id) with }
  | ackCommitted => exact ok.answer (c.preVoteOf_ack _ _ _)
  | heartbeat =>
      have other : (c.heartbeatResp m).type ≠ .msgPreVoteResp := nofun
      exact { ok.send (List.forall_mem_singleton.mpr other) with }
  | restore type follower term newer lacks chg blank cfg progress =>
      exact { ok.answer ((c.restored m.snap cfg progress).preVoteOf_ack _ _ c.id) with }
  | confirm type leads term safe acked acks readOnly reads advances states msgs answers =>
      have answered : (c.answered states msgs).Attributed := ok.answered answers.2
      exact { answered with }
  | answerAtOnce leads allowed states msgs answers => exact ok.answered answers.2
  | _ => exact { ok with }

theorem Acts.attributed (acts : Acts now m c c') (ok : c.Attributed)
    : c'.Attributed ∧ c'.id = c.id := by
  induction acts with
  | refl => exact ⟨ok, rfl⟩
  | tail _ act ih => exact ⟨act.attributed ih.1, act.id.trans ih.2⟩

theorem Steps.attributed (steps : Steps now m c c') (ok : c.Attributed)
    : c'.Attributed ∧ c'.id = c.id := by
  obtain ⟨c1, acts, rfl | ⟨c2, appends, new, rfl, sends⟩⟩ := steps
  · exact Acts.attributed acts ok
  · obtain ⟨ok1, same⟩ := Acts.attributed acts ok
    cases appends with
    | mk leads es nonempty index proposal source raftLog appends =>
        have ok2 : ({ c1 with pendingConfIndex := index }.appended raftLog).Attributed :=
          { ok1.answer ({ c1 with raftLog := raftLog }.preVoteOf_ack _ _ c1.id) with }
        exact ⟨ok2.send fun sent member => (sends sent member).notPreVote, same⟩

omit [Codec] in
theorem Started.attributed {c : Config} {r : Raft} (started : Started c r) : r.core.Attributed where
  msgs := by
    show ∀ m ∈ r.msgs, m.type ≠ .msgPreVoteResp
    simp [started.msgs]
  waiting := by
    show ∀ m ∈ r.msgsAfterAppend, m.PreVoteOf r.id
    simp [started.msgsAfterAppend]

/-- The answers of the host `id`, wherever they wait. -/
structure Host.Attributed (id : Nat) (h : Host) : Prop where
  core : ∀ rn, h.node = some rn → rn.raft.core.Attributed ∧ rn.raft.id = id
  own : ∀ rn, h.node = some rn → ∀ m ∈ rn.stepsOnAdvance,
    m.PreVoteOf id ∧ (m.type = .msgPreVoteResp → m.toId = id)
  messages : ∀ w ∈ h.writes, ∀ m ∈ w.messages, m.PreVoteOf id

omit [Codec] in
theorem Core.Attributed.preVoteOf {c : Core} (ok : c.Attributed) {m : Message}
    (member : m ∈ c.msgs ∨ m ∈ c.msgsAfterAppend)
    : m.PreVoteOf c.id :=
  member.elim (fun atOnce => .of_type (ok.msgs m atOnce)) (ok.waiting m)

namespace Host.Attributed

variable {σ : Setup} {id : Nat} {arrives : Message → Prop} {h h' : Host}

omit [Codec] in
theorem of_idle (down : h.node = none) (writes : h.writes = []) : h.Attributed id where
  core := by simp [down]
  own := by simp [down]
  messages := by simp [writes]

omit [Codec] in
theorem withNode (ok : h.Attributed id) {rn : RawNode}
    (core : rn.raft.core.Attributed ∧ rn.raft.id = id)
    (own : ∀ m ∈ rn.stepsOnAdvance, m.PreVoteOf id ∧ (m.type = .msgPreVoteResp → m.toId = id))
    : { h with node := some rn }.Attributed id :=
  { ok with
    core := by rintro _ ⟨⟩; exact core
    own := by rintro _ ⟨⟩; exact own }

omit [Codec] in
theorem source (ok : h.Attributed id) (source : Source σ now arrives h m h')
    : h'.Attributed id := by
  cases source with
  | network arrived => exact ok
  | call call => exact ok
  | appended queued => exact { ok with }
  | applied queued => exact { ok with }

omit [Codec] in
theorem takeOwn (ok : h.Attributed id) (source : Own h m h') : h'.Attributed id := by
  obtain @⟨rn, rest, node, queued, released⟩ := source
  have own := ok.own rn node
  rw [queued] at own
  exact ok.withNode (ok.core rn node) (List.forall_mem_cons.mp own).2

end Host.Attributed

theorem Host.Handles.attributed {h h' : Host} {id : Nat}
    {takes : Host → Message → Host → Prop} (handles : Handles takes h h')
    (sound : ∀ {m h'}, takes h m h' → h'.Attributed id ∧ (m.type.termed = true → m.term ≠ 0))
    : h'.Attributed id := by
  obtain ⟨source, node, steps⟩ := handles
  obtain ⟨ok, sound⟩ := sound source
  obtain ⟨now, steps⟩ := Raft.exists_steps sound steps
  obtain ⟨core, sameId⟩ := ok.core _ node
  obtain ⟨core', same⟩ := Steps.attributed steps core
  have own := ok.own _ node
  exact ok.withNode ⟨core', same.trans sameId⟩ own

namespace Host.Attributed

variable {σ : Setup} {id : Nat} {arrives : Message → Prop} {h h' : Host}

/-- What a `Ready` leaves to be sent is the node's own. -/
theorem ready {rn rn' : RawNode} {rd : Ready} (ok : h.Attributed id) (termed : h.Termed)
    (node : h.node = some rn) (taken : rn.Taken rn' rd)
    : (rn'.raft.core.Attributed ∧ rn'.raft.id = id)
      ∧ (∀ m ∈ rn'.stepsOnAdvance, m.PreVoteOf id ∧ (m.type = .msgPreVoteResp → m.toId = id))
      ∧ (∀ m ∈ rd.messages, m.PreVoteOf id)
      ∧ ∀ w ∈ asyncWrites rd, ∀ m ∈ w.messages, m.PreVoteOf id := by
  obtain ⟨core, sameId⟩ := ok.core rn node
  have termed := termed.core rn node
  have empty : ∀ {rd steps raftLog}, (rn.accepted rd steps raftLog).raft.core.Attributed :=
    ⟨List.forall_mem_nil _, List.forall_mem_nil _⟩
  have preVoteOf : ∀ m, m ∈ rn.raft.msgs ∨ m ∈ rn.raft.msgsAfterAppend → m.PreVoteOf id :=
    fun m member => sameId ▸ core.preVoteOf member
  have local_ : ∀ {m : Message}, m.IsAppendResp ∨ m.IsApplyResp → m.type ≠ .msgPreVoteResp := by
    rintro m (append | apply)
    · rw [append.type]; nofun
    · rw [apply.type]; nofun
  cases taken with
  | sync mode fresh appliable answers accepts =>
      refine ⟨⟨empty, sameId⟩, fun m member => ?_, ?_, ?_⟩
      · rcases RawNode.mem_ownSteps termed answers member with ⟨waits, toSelf⟩ | resp
        · exact ⟨preVoteOf m (.inr waits), fun _ => toSelf.trans sameId⟩
        · exact ⟨.of_type (local_ resp), fun type => absurd type (local_ resp)⟩
      · exact fun m member => preVoteOf m (RawNode.mem_messages member)
      · exact List.forall_mem_nil _
  | async mode appliable request accepts =>
      refine ⟨⟨empty, sameId⟩, ok.own rn node, ?_, ?_⟩
      · exact fun m member => preVoteOf m (RawNode.mem_messages member)
      · intro w member m waits
        exact preVoteOf m (.inr ((Host.Termed.asyncWrites_taken termed request w member).1 m waits))

omit [Codec] in
theorem installed (ok : h.Attributed id) (snapshot : Option Snapshot)
    : (h.installed snapshot).Attributed id := by
  unfold Host.installed
  split
  · exact ok
  · split
    · exact { ok with }
    · exact ok

/-- Every transition keeps the answers apart, and what is sent is the host's own. -/
theorem moves {out : Output} (ok : h.Attributed id) (termed : h.Termed)
    (network : ∀ m, arrives m → m.Public) (moves : Moves σ id now arrives h out h')
    : h'.Attributed id ∧ ∀ m ∈ out.sent, m.PreVoteOf id := by
  cases moves with
  | handle handles =>
      refine ⟨handles.attributed fun source => ?_, List.forall_mem_nil _⟩
      exact ⟨ok.source source, (termed.source source network).2⟩
  | refuse source refused => exact ⟨ok.source source, List.forall_mem_nil _⟩
  | fail failure => exact ⟨of_idle rfl rfl, List.forall_mem_nil _⟩
  | start down known starts =>
      obtain ⟨started, _, _, _, steps⟩ := (ends_newRawNode _).result starts
      exact ⟨{ ok.withNode ⟨started.attributed, started.id⟩ (by simp [steps]) with },
        List.forall_mem_nil _⟩
  | crash k =>
      refine ⟨?_, List.forall_mem_nil _⟩
      unfold Host.crash
      dsimp only
      split <;> exact of_idle rfl rfl
  | tick node ticks =>
      obtain ⟨core, sameId⟩ := ok.core _ node
      obtain ⟨core', same⟩ := Acts.attributed (Raft.acts_tick ticks) core
      have own := ok.own _ node
      exact ⟨ok.withNode ⟨core', same.trans sameId⟩ own, List.forall_mem_nil _⟩
  | @readySync rn rn' rd node free sync taken =>
      obtain ⟨core, own, messages, _⟩ := ok.ready termed node (rn.ends_ready.result taken)
      exact ⟨{ ok.withNode core own with
        messages := List.forall_mem_append.mpr
          ⟨ok.messages, List.forall_mem_singleton.mpr messages⟩ }, List.forall_mem_nil _⟩
  | @readyAsync rn rn' rd node free async taken =>
      obtain ⟨core, own, messages, writes⟩ :=
        ok.ready termed node (rn.ends_ready.result taken)
      exact ⟨{ ok.withNode core own with
        messages := List.forall_mem_append.mpr ⟨ok.messages, writes⟩ }, messages⟩
  | @persist rn w rest ms node queued stored =>
      have messages := ok.messages
      rw [queued] at messages
      obtain ⟨sent, messages⟩ := List.forall_mem_cons.mp messages
      obtain ⟨core, sameId⟩ := ok.core _ node
      have own := ok.own _ node
      refine ⟨installed ?_ _, sent⟩
      exact {
        core := by rintro _ ⟨⟩; exact ⟨{ core with }, sameId⟩
        own := by rintro _ ⟨⟩; exact own
        messages := messages }
  | skip node queued old => exact ⟨{ ok with }, List.forall_mem_nil _⟩
  | apply node queued new normal => exact ⟨{ ok with }, List.forall_mem_nil _⟩
  | applyConfChange node queued new decoded applied =>
      obtain ⟨core, sameId⟩ := ok.core _ node
      have own := ok.own _ node
      obtain ⟨cfg, progress, _, acts⟩ := Raft.acts_applyConfChange applied
      obtain ⟨core', same⟩ := Acts.attributed acts { core with }
      refine ⟨{ core := ?_, own := ?_, messages := ok.messages }, List.forall_mem_nil _⟩
      · rintro _ ⟨⟩
        exact ⟨core', same.trans sameId⟩
      · rintro _ ⟨⟩
        exact own
  | finish node queued => exact ⟨{ ok with }, List.forall_mem_nil _⟩
  | @createSnapshot rn i ms node applied durable known created =>
      obtain ⟨core, sameId⟩ := ok.core _ node
      have own := ok.own _ node
      exact ⟨ok.withNode ⟨{ core with }, sameId⟩ own, List.forall_mem_nil _⟩
  | @compact rn i ms node applied compacted =>
      obtain ⟨core, sameId⟩ := ok.core _ node
      have own := ok.own _ node
      exact ⟨ok.withNode ⟨{ core with }, sameId⟩ own, List.forall_mem_nil _⟩

theorem proceeds {out : Output} (ok : h.Attributed id) (termed : h.Termed)
    (network : ∀ m, arrives m → m.Public) (proceeds : Proceeds σ id now arrives h out h')
    : h'.Attributed id ∧ ∀ m ∈ out.sent, m.PreVoteOf id := by
  have both : (h'.Attributed id ∧ h'.Termed) ∧ ∀ m ∈ out.sent, m.PreVoteOf id := by
    refine proceeds.preserves (p := fun h => h.Attributed id ∧ h.Termed) ⟨ok, termed⟩ ?_
      ⟨{ ok with }, { termed with }⟩ ?_ ?_
    · intro out h' moves
      obtain ⟨ok', sent⟩ := ok.moves termed network moves
      exact ⟨⟨ok', (termed.moves network moves).1⟩, sent⟩
    · rintro a b ⟨ok, termed⟩ handles
      refine ⟨handles.attributed fun source => ?_, handles.termed termed.takeOwn⟩
      exact ⟨ok.takeOwn source, (termed.takeOwn source).2⟩
    · exact ⟨of_idle rfl rfl, .stop h⟩
  exact ⟨both.1.1, both.2⟩

end Host.Attributed

namespace Cluster

/-- An event of the host `id` has put the message on the network. -/
def SentBy (σ : Setup) (events : List Event) (id : Nat) (m : Message) : Prop :=
  ∃ before e, before ++ [e] <+: events ∧ e.target (run σ before) = some id
    ∧ m ∈ (run σ (before ++ [e])).net.drop (run σ before).net.length

variable {σ : Setup} {events more : List Event}

theorem SentBy.mono {id : Nat} (sent : SentBy σ events id m) (longer : events <+: more)
    : SentBy σ more id m := by
  obtain ⟨before, e, inside, target, sent⟩ := sent
  exact ⟨before, e, inside.trans longer, target, sent⟩

theorem net_step (c : Cluster) (e : Event) : c.net <+: (c.step σ e).net := by
  rcases c.step_cases (σ := σ) e with same | ⟨id, out, h', _, same, _⟩
  · exact same ▸ List.prefix_rfl
  · rw [same]
    exact List.prefix_append _ _

theorem net_run_append (events more : List Event)
    : (run σ events).net <+: (run σ (events ++ more)).net := by
  induction more using List.reverseRecOn with
  | nil => exact (List.append_nil events).symm ▸ List.prefix_rfl
  | append_singleton more e ih =>
      rw [← List.append_assoc, run_append]
      exact ih.trans (net_step _ e)

theorem SentBy.mem_net {id : Nat} (sent : SentBy σ events id m)
    : m ∈ (run σ events).net := by
  obtain ⟨before, e, ⟨more, rfl⟩, _, sent⟩ := sent
  exact (net_run_append (before ++ [e]) more).subset (List.mem_of_mem_drop sent)

/-- The answers to requests for a pre-vote in a run. -/
structure Attributed (σ : Setup) (events : List Event) : Prop where
  net : ∀ m ∈ (run σ events).net, m.type = .msgPreVoteResp
    → m.term ≠ 0 ∧ SentBy σ events m.fromId m
  hosts : ∀ n, ((run σ events).hosts n).Attributed n

/-- In every run, answers to requests for a pre-vote come from those they name. -/
theorem attributed_run (σ : Setup) (events : List Event) : Attributed σ events := by
  induction events using List.reverseRecOn with
  | nil => exact ⟨List.forall_mem_nil _, fun _ => Host.Attributed.of_idle rfl rfl⟩
  | append_singleton events e ok =>
      have longer : events <+: events ++ [e] := List.prefix_append events [e]
      have termed := termed_run σ events
      have old : ∀ m ∈ (run σ events).net, m.type = .msgPreVoteResp
          → m.term ≠ 0 ∧ SentBy σ (events ++ [e]) m.fromId m := by
        intro m member type
        obtain ⟨term, sent⟩ := ok.net m member type
        exact ⟨term, sent.mono longer⟩
      rcases (run σ events).step_cases (σ := σ) e with same | ⟨id, out, h', target, same, proceeds⟩
      · refine ⟨?_, ?_⟩
        · rw [run_append, same]
          exact old
        · rw [run_append, same]
          exact ok.hosts
      · obtain ⟨host, sent⟩ := (ok.hosts id).proceeds (termed.hosts id)
          (fun m arrived => termed.net m arrived.1) proceeds
        have after : run σ (events ++ [e]) = (run σ events).after id (h', out) := by
          rw [run_append, same]
        refine ⟨?_, fun n => ?_⟩
        · rw [after]
          refine List.forall_mem_append.mpr ⟨old, fun m member type => ?_⟩
          obtain ⟨fromId, term⟩ := sent m member type
          refine ⟨term, events, e, List.prefix_refl _, fromId ▸ target, ?_⟩
          rw [after]
          show m ∈ ((run σ events).net ++ out.sent).drop _
          rw [List.drop_left]
          exact member
        · rw [after]
          by_cases here : n = id
          · rw [here, after_hosts_self]
            exact host
          · rw [after_hosts_other _ here]
            exact ok.hosts n

end Cluster

end EtcdRaft
