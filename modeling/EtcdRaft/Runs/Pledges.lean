import EtcdRaft.Foundation.WriteBehind
import EtcdRaft.Refinement.Durable
import EtcdRaft.Runs.Attribution
import EtcdRaft.Runs.HardState

/-! The promises of a host: its votes and its acknowledgements. They wait until the term
and the vote that they rest on are durable, so that no crash takes one of them back.
-/

namespace EtcdRaft

-----------------------------------------------------------------------------------------
-- Ballots
-----------------------------------------------------------------------------------------

/-- The message is a promise: a vote for a candidate or the acknowledgement of entries. -/
def Message.IsPledge (m : Message) : Prop :=
  m.reject = false
    ∧ (m.type = .msgVoteResp ∧ m.toId ≠ none64 ∨ m.type = .msgAppResp ∧ m.index ≠ 0)

theorem Message.Grants.isPledge {m : Message} {t a : Nat} (grants : m.Grants t a) : m.IsPledge :=
  ⟨grants.reject, .inl ⟨grants.type, grants.toId ▸ grants.named⟩⟩

/-- The part of a hard state that a crash cannot take back. -/
structure Ballot where
  term : Nat
  vote : Nat

def HardState.ballot (st : HardState) : Ballot := ⟨st.term, st.vote⟩

namespace Ballot

/-- What may become of a ballot. -/
structure Follows (b b' : Ballot) : Prop where
  term : b.term ≤ b'.term
  vote : b'.term = b.term → b'.vote = b.vote ∨ b.vote = none64

theorem Follows.refl (b : Ballot) : b.Follows b := ⟨Nat.le_refl _, fun _ => .inl rfl⟩

theorem Follows.trans {b₁ b₂ b₃ : Ballot} (first : b₁.Follows b₂) (second : b₂.Follows b₃)
    : b₁.Follows b₃ where
  term := first.term.trans second.term
  vote := by
    intro same
    have earlier := first.term
    have later := second.term
    rcases first.vote (by omega) with kept | free
    · rw [← kept]
      exact second.vote (by omega)
    · exact .inr free

/-- The ballot is in keeping with a promise. -/
structure Honours (b : Ballot) (m : Message) : Prop where
  term : m.term ≤ b.term
  vote : m.type = .msgVoteResp → m.term = b.term → b.vote = m.toId

/-- A promise that is kept once is kept ever after. -/
theorem Honours.follows {b b' : Ballot} {m : Message} (ok : b.Honours m)
    (pledge : m.IsPledge) (follows : b.Follows b')
    : b'.Honours m where
  term := ok.term.trans follows.term
  vote := by
    intro type now
    have before := ok.term
    have later := follows.term
    have vote := ok.vote type (by omega)
    rcases follows.vote (by omega) with kept | free
    · exact kept.trans vote
    · rcases pledge.2 with ⟨_, named⟩ | ⟨other, _⟩
      · exact absurd (vote.symm.trans free) named
      · exact absurd (type.symm.trans other) nofun

/-- The vote that stands in the ballot of the host `id`, as a message. -/
def message (b : Ballot) (id : Nat) : Message where
  type := .msgVoteResp
  fromId := id
  toId := b.vote
  term := b.term

theorem honours_message (b : Ballot) (id : Nat) : b.Honours (b.message id) :=
  ⟨Nat.le_refl _, fun _ _ => rfl⟩

end Ballot

theorem HardState.Advances.follows {st st' : HardState} (advances : st.Advances st')
    : st.ballot.Follows st'.ballot :=
  ⟨advances.term, fun same => (advances.vote same).imp_right And.left⟩

/-- The vote of the node's hard state is as good as one that it has sent. -/
theorem Core.Ballots.cast {sent : Message → Prop} {c : Core} (ok : c.Ballots sent)
    (id : Nat)
    : c.Ballots fun m => sent m ∨ m = c.hardState.ballot.message id := by
  have past : ∀ {m t a}, sent m ∨ m = c.hardState.ballot.message id → m.Grants t a
      → t ≤ c.term ∧ (t = c.term → c.vote = a) := by
    rintro m t a (before | rfl) grants
    · exact ok.past before grants
    · exact ⟨grants.term.ge, fun _ => grants.toId⟩
  exact {
    named := ok.named
    candidate := ok.candidate
    queued := fun m member => .inl (ok.queued m member)
    past := past
    once := by
      rintro m m' t a b (before | rfl) (before' | rfl) grants grants'
      · exact ok.once before before' grants grants'
      · exact ((past (.inl before) grants).2 grants'.term.symm).symm.trans grants'.toId
      · exact grants.toId.symm.trans ((past (.inl before') grants').2 grants.term.symm)
      · exact grants.toId.symm.trans grants'.toId }

-----------------------------------------------------------------------------------------
-- The node
-----------------------------------------------------------------------------------------

/-- The promises of the node wait for a write. They have been made since the ballot `prev`
was handed over.
-/
structure Core.Pledges (prev : Ballot) (c : Core) : Prop where
  follows : prev.Follows c.hardState.ballot
  msgs : ∀ m ∈ c.msgs, ¬m.IsPledge
  waiting : ∀ m ∈ c.msgsAfterAppend, m.IsPledge
    → m.fromId = c.id ∧ prev.term ≤ m.term ∧ m.term ≤ c.term

namespace Core.Pledges

variable {prev : Ballot} {c c' : Core}

/-- The hard state moves on, and a new promise is one of the present term. -/
theorem move (ok : c.Pledges prev) (advances : c.hardState.Advances c'.hardState)
    (id : c'.id = c.id) (msgs : ∀ m ∈ c'.msgs, m ∈ c.msgs ∨ ¬m.IsPledge)
    (waiting : ∀ m ∈ c'.msgsAfterAppend, m ∈ c.msgsAfterAppend
      ∨ (m.IsPledge → m.fromId = c'.id ∧ m.term = c'.term))
    : c'.Pledges prev where
  follows := ok.follows.trans advances.follows
  msgs := fun m member => (msgs m member).elim (ok.msgs m) fun other => other
  waiting := by
    intro m member pledge
    rcases waiting m member with old | new
    · obtain ⟨fromId, later, before⟩ := ok.waiting m old pledge
      exact ⟨fromId.trans id.symm, later, before.trans advances.term⟩
    · obtain ⟨fromId, now⟩ := new pledge
      exact ⟨fromId, now ▸ ok.follows.term.trans advances.term, now.le⟩

theorem send (ok : c.Pledges prev) {new : List Message} (other : ∀ m ∈ new, ¬m.IsPledge)
    : { c with msgs := c.msgs ++ new }.Pledges prev :=
  { ok with msgs := List.forall_mem_append.mpr ⟨ok.msgs, other⟩ }

end Core.Pledges

theorem Message.not_isPledge {m : Message} (vote : m.type ≠ .msgVoteResp)
    (ack : m.type ≠ .msgAppResp)
    : ¬m.IsPledge :=
  fun pledge => pledge.2.elim (fun type => vote type.1) fun type => ack type.1

section

variable [Codec] {now : Nat} {m : Message} {c c' : Core} {prev : Ballot}

theorem MaySend.not_isPledge {sent : Message} (may : MaySend m c sent)
    : ¬sent.IsPledge := by
  refine Message.not_isPledge may.noVote ?_
  cases may with
  | app type => rw [type]; nofun
  | snap type => rw [type]; nofun
  | heartbeat type => rw [type]; nofun
  | vote type => rw [type]; nofun
  | forward type forwarded =>
      intro ack
      rw [← type, ack] at forwarded
      cases forwarded
  | other type => rcases type with type | type <;> rw [type] <;> nofun

omit [Codec] in
theorem MayAnswer.pledge {sent : Message} (may : MayAnswer c sent)
    (pledge : sent.IsPledge)
    : sent.fromId = c.id ∧ sent.term = c.term := by
  cases may with
  | reject type reject => exact absurd (pledge.1.symm.trans reject) nofun
  | preVote type =>
      exact absurd pledge (Message.not_isPledge (by rw [type]; nofun) (by rw [type]; nofun))
  | empty type index =>
      rcases pledge.2 with ⟨vote, _⟩ | ⟨_, some⟩
      · exact absurd (vote.symm.trans type) nofun
      · exact absurd index some
  | selfVote candidate own =>
      rw [own]
      exact ⟨rfl, rfl⟩

omit [Codec] in
theorem Answers.not_isPledge {states : List ReadState} {msgs : List Message}
    {p : Nat → Nat → Prop} (answers : Answers states msgs p)
    : ∀ m ∈ msgs, ¬m.IsPledge := by
  intro m member
  have type := (answers.2 m member).1
  exact Message.not_isPledge (by rw [type]; nofun) (by rw [type]; nofun)

/-- A small action lets the promises wait. -/
theorem Act.pledges (act : Act now m c c') (ok : c.Pledges prev) : c'.Pledges prev := by
  have advances := act.advances
  have answer : ∀ {c' : Core} {sent : Message} {msgs : List Message},
      msgs = c.msgsAfterAppend ++ [sent]
      → (sent.IsPledge → sent.fromId = c'.id ∧ sent.term = c'.term)
      → ∀ m ∈ msgs, m ∈ c.msgsAfterAppend ∨ (m.IsPledge → m.fromId = c'.id ∧ m.term = c'.term) := by
    rintro c' sent _ rfl new m member
    refine (List.mem_append.mp member).imp_right fun last => ?_
    rw [List.mem_singleton.mp last]
    exact new
  cases act with
  | send sent may => exact ok.send (List.forall_mem_singleton.mpr may.not_isPledge)
  | answer sent may => exact ok.move advances rfl (fun _ => .inl) (answer rfl may.pledge)
  | grant => exact ok.move advances rfl (fun _ => .inl) (answer rfl fun _ => ⟨rfl, rfl⟩)
  | accept => exact ok.move advances rfl (fun _ => .inl) (answer rfl fun _ => ⟨rfl, rfl⟩)
  | ackCommitted =>
      exact ok.move advances rfl (fun _ => .inl) (answer rfl fun _ => ⟨rfl, rfl⟩)
  | restore => exact ok.move advances rfl (fun _ => .inl) (answer rfl fun _ => ⟨rfl, rfl⟩)
  | heartbeat =>
      have other : ¬(c.heartbeatResp m).IsPledge := Message.not_isPledge nofun nofun
      exact { ok.send (List.forall_mem_singleton.mpr other) with }
  | confirm type leads term safe acked acks readOnly reads advances states msgs answers =>
      have sent : { c with msgs := c.msgs ++ msgs }.Pledges prev :=
        ok.send answers.not_isPledge
      exact { sent with }
  | answerAtOnce leads allowed states msgs answers =>
      have sent : { c with msgs := c.msgs ++ msgs }.Pledges prev :=
        ok.send answers.not_isPledge
      exact { sent with }
  | _ => exact ok.move advances rfl (fun _ => .inl) fun _ => .inl

/-- A small action leaves the storage alone. -/
theorem Act.storage (act : Act now m c c') : c'.raftLog.storage = c.raftLog.storage := by
  cases act with
  | commit leads raftLog commits => exact (Keeps.maybeCommit commits).storage
  | accept type follower term above raftLog last appended =>
      exact (Keeps.maybeAppend appended).storage
  | heartbeat type follower term raftLog committed =>
      exact (Keeps.commitTo committed).storage
  | fastForward type follower term newer holds raftLog committed =>
      exact (Keeps.commitTo committed).storage
  | restore type follower term newer => exact (Keeps.restore newer).storage
  | stored type current term raftLog stores => exact (RaftLog.stored_ok stores).storage
  | applied type e last size raftLog applies => exact (appliedTo_ok applies).2.2.2.1
  | _ => rfl

/-- What a node makes of its state without the disk: it has `sent` votes for one candidate
in each term, and promises wait.
-/
structure Core.Bound (sent : Message → Prop) (prev : Ballot) (c : Core) : Prop where
  ballots : c.Ballots sent
  pledges : c.Pledges prev

/-- The node moves on without the disk. -/
structure Core.Goes (sent : Message → Prop) (prev : Ballot) (c c' : Core) : Prop where
  bound : c'.Bound (fun m => sent m ∨ m ∈ c'.queued) prev
  id : c'.id = c.id
  storage : c'.raftLog.storage = c.raftLog.storage

variable {sent : Message → Prop}

theorem Core.Bound.acts (ok : c.Bound sent prev) (acts : Acts now m c c')
    : c.Goes sent prev c' := by
  refine ⟨⟨(Acts.ballots acts ok.ballots).2, ?_⟩, ?_, ?_⟩
  · induction acts with
    | refl => exact ok.pledges
    | tail _ act ih => exact act.pledges ih
  · induction acts with
    | refl => rfl
    | tail _ act ih => exact act.id.trans ih
  · induction acts with
    | refl => rfl
    | tail _ act ih => exact act.storage.trans ih

theorem Core.Bound.steps (ok : c.Bound sent prev) (steps : Steps now m c c')
    : c.Goes sent prev c' := by
  have ballots := (Steps.ballots steps ok.ballots).2
  obtain ⟨c₁, acts, rfl | ⟨c₂, appends, new, rfl, sends⟩⟩ := steps
  · exact ok.acts acts
  · obtain ⟨bound, id, storage⟩ := ok.acts acts
    obtain ⟨leads, es, nonempty, index, proposal, source, raftLog, appends⟩ := appends
    have kept := Keeps.append appends
    refine ⟨⟨ballots, ?_⟩, id, kept.storage.trans storage⟩
    refine Core.Pledges.send ?_ fun m member => (sends m member).not_isPledge
    refine bound.pledges.move ⟨Nat.le_refl _, kept.committed, fun _ => .inl rfl⟩ rfl
      (fun _ => .inl) fun m member => ?_
    refine (List.mem_append.mp member).imp_right fun last _ => ?_
    rw [List.mem_singleton.mp last]
    exact ⟨rfl, rfl⟩

end

-----------------------------------------------------------------------------------------
-- The host
-----------------------------------------------------------------------------------------

/-- The ballot that a write leads to. -/
def Write.ballotOver (w : Write) (b : Ballot) : Ballot :=
  if isEmptyHardState w.hardState then b else w.hardState.ballot

/-- The write takes the ballot `b` of the host `id` to `b'`, which the messages of the
write rest on. A write that need not be synchronous changes nothing.
-/
structure Write.Carries (id : Nat) (sent : Message → Prop) (b : Ballot) (w : Write)
    (b' : Ballot)
    : Prop where
  follows : b.Follows b'
  cast : sent (b'.message id)
  lazy : w.mustSync = false → b' = b
  messages : ∀ m ∈ w.messages, m.IsPledge
    → sent m ∧ m.fromId = id ∧ b.term ≤ m.term ∧ b'.Honours m

/-- The node of the host `id`, which has `given` promises and `sent` votes, with its
writes.
-/
structure RawNode.Bound (id : Nat) (given sent : Message → Prop) (writes : List Write)
    (rn : RawNode) : Prop where
  core : rn.raft.core.Bound sent rn.prevHardSt.ballot
  self : rn.raft.id = id
  given : ∀ m, given m → sent m
  writes : Pending Write.ballotOver (Write.Carries id sent)
    rn.raft.raftLog.storage.hardState.ballot writes rn.prevHardSt.ballot
  own : ∀ m ∈ rn.stepsOnAdvance, (m.type = .msgVoteResp → m.toId = id)
    ∧ (m.IsPledge → m.fromId = id ∧ rn.prevHardSt.ballot.Honours m)

/-- The host `id` keeps the promises that it has `given`, whatever happens to its process.
-/
structure Host.Bound (id : Nat) (given : Message → Prop) (h : Host) : Prop where
  honoured : ∀ m, given m → m.IsPledge → h.storage.hardState.ballot.Honours m
  cast : given (h.storage.hardState.ballot.message id)
  once : ∀ {m m' t a b}, given m → given m' → m.Grants t a → m'.Grants t b → a = b
  revert : ∀ st ∈ h.revert, st.ballot = h.storage.hardState.ballot
  down : h.node = none → h.writes = []
  up : ∀ rn, h.node = some rn → ∃ sent, rn.Bound id given sent h.writes

theorem Write.Carries.mono {id : Nat} {sent sent' : Message → Prop} {b b' : Ballot}
    {w : Write} (ok : w.Carries id sent b b') (more : ∀ m, sent m → sent' m)
    : w.Carries id sent' b b' :=
  { ok with
    cast := more _ ok.cast
    messages := fun m member pledge => (ok.messages m member pledge).imp_left (more m) }

theorem Message.IsOwn.noPromise {m : Message} (own : m.IsAppendResp ∨ m.IsApplyResp)
    : m.type ≠ .msgVoteResp ∧ m.type ≠ .msgAppResp := by
  rcases own with append | apply
  · rw [append.type]
    exact ⟨nofun, nofun⟩
  · rw [apply.type]
    exact ⟨nofun, nofun⟩

namespace RawNode.Bound

variable {id : Nat} {given sent : Message → Prop} {writes : List Write} {rn rn' : RawNode}
  {r : Raft}

/-- The node moves on without the disk. -/
theorem goes (ok : rn.Bound id given sent writes)
    (goes : rn.raft.core.Goes sent rn.prevHardSt.ballot r.core)
    : { rn with raft := r }.Bound id given (fun m => sent m ∨ m ∈ r.core.queued) writes where
  core := goes.bound
  self := goes.id.trans ok.self
  given := fun m before => .inl (ok.given m before)
  writes := by
    have same : r.raftLog.storage = rn.raft.raftLog.storage := goes.storage
    show Pending _ _ r.raftLog.storage.hardState.ballot writes rn.prevHardSt.ballot
    rw [same]
    exact ok.writes.mono fun carries => carries.mono fun _ => .inl
  own := ok.own

/-- The promises that wait rest on the present ballot. -/
theorem honours (ok : rn.Bound id given sent writes) {m : Message} (pledge : m.IsPledge)
    (member : m ∈ rn.raft.msgsAfterAppend)
    : rn.raft.hardState.ballot.Honours m where
  term := (ok.core.pledges.waiting m member pledge).2.2
  vote := by
    intro type now
    rcases pledge.2 with ⟨_, named⟩ | ⟨other, _⟩
    · have queued : m ∈ rn.raft.core.queued := List.mem_append_right _ member
      exact (ok.core.ballots.past (ok.core.ballots.queued m queued)
        ⟨type, pledge.1, rfl, rfl, named⟩).2 now
    · exact absurd (type.symm.trans other) nofun

/-- What a `Ready` says about the hard state leads to the present ballot. -/
theorem written (ok : rn.Bound id given sent writes) {st : HardState}
    (reported : st = if rn.raft.hardState = rn.prevHardSt then {} else rn.raft.hardState)
    : (if isEmptyHardState st then rn.prevHardSt.ballot else st.ballot)
        = rn.raft.hardState.ballot := by
  have follows : rn.prevHardSt.ballot.Follows rn.raft.hardState.ballot :=
    ok.core.pledges.follows
  by_cases same : rn.raft.hardState = rn.prevHardSt
  · rw [if_pos same] at reported
    rw [reported, same]
    rfl
  · rw [if_neg same] at reported
    rw [reported]
    split
    · rename_i empty
      have empty : rn.raft.hardState = {} := by simpa [isEmptyHardState] using empty
      rw [empty] at follows ⊢
      have first : rn.prevHardSt.ballot.term = 0 := Nat.le_zero.mp follows.term
      have vote : rn.prevHardSt.ballot.vote = 0 :=
        (follows.vote first.symm).elim (fun kept => kept.symm) fun free => free
      show Ballot.mk rn.prevHardSt.ballot.term rn.prevHardSt.ballot.vote = ⟨0, 0⟩
      rw [first, vote]
    · rfl

/-- The write of a `Ready` carries the present ballot and the promises that wait. -/
theorem carries (ok : rn.Bound id given sent writes) {w : Write}
    (hardState : w.hardState = if rn.raft.hardState = rn.prevHardSt then {} else rn.raft.hardState)
    (sync : w.mustSync
      = mustSync rn.raft.hardState rn.prevHardSt rn.raft.raftLog.unstable.nextEntries.length)
    (messages : ∀ m ∈ w.messages, m ∈ rn.raft.msgs ∨ m ∈ rn.raft.msgsAfterAppend)
    : w.Carries id (fun m => sent m ∨ m = rn.raft.hardState.ballot.message id)
        rn.prevHardSt.ballot (w.ballotOver rn.prevHardSt.ballot) := by
  have reached : w.ballotOver rn.prevHardSt.ballot = rn.raft.hardState.ballot :=
    ok.written hardState
  rw [reached]
  refine ⟨ok.core.pledges.follows, .inr rfl, fun lazy => ?_, fun m member pledge => ?_⟩
  · have same : rn.raft.vote = rn.prevHardSt.vote ∧ rn.raft.term = rn.prevHardSt.term := by
      rw [sync] at lazy
      simp only [mustSync, Bool.or_eq_false_iff, bne_eq_false_iff_eq] at lazy
      exact ⟨lazy.1.2, lazy.2⟩
    exact congrArg₂ Ballot.mk same.2 same.1
  · have waits : m ∈ rn.raft.msgsAfterAppend :=
      (messages m member).resolve_left fun atOnce => ok.core.pledges.msgs m atOnce pledge
    obtain ⟨fromId, later, _⟩ := ok.core.pledges.waiting m waits pledge
    have queued : m ∈ rn.raft.core.queued := List.mem_append_right _ waits
    exact ⟨.inl (ok.core.ballots.queued m queued), fromId.trans ok.self, later,
      ok.honours pledge waits⟩

/-- The write of a `Ready` is queued. -/
theorem queue (ok : rn.Bound id given sent writes) {w : Write}
    (hardState : w.hardState = if rn.raft.hardState = rn.prevHardSt then {} else rn.raft.hardState)
    (sync : w.mustSync
      = mustSync rn.raft.hardState rn.prevHardSt rn.raft.raftLog.unstable.nextEntries.length)
    (messages : ∀ m ∈ w.messages, m ∈ rn.raft.msgs ∨ m ∈ rn.raft.msgsAfterAppend)
    : Pending Write.ballotOver
        (Write.Carries id fun m => sent m ∨ m = rn.raft.hardState.ballot.message id)
        rn.raft.raftLog.storage.hardState.ballot (writes ++ [w]) rn.raft.hardState.ballot := by
  have reached : w.ballotOver rn.prevHardSt.ballot = rn.raft.hardState.ballot :=
    ok.written hardState
  rw [← reached]
  exact (ok.writes.mono fun carries => carries.mono fun _ => .inl).snoc
    (reached ▸ ok.carries hardState sync messages)

/-- The node once a `Ready` is handed out and its writes are queued. -/
theorem accepted (ok : rn.Bound id given sent writes) {rd : Ready} {steps : List Message}
    {l : RaftLog} {new : List Write}
    (reported : rd.hardState = if rn.raft.hardState = rn.prevHardSt then {} else rn.raft.hardState)
    (storage : l.storage = rn.raft.raftLog.storage)
    (pending : Pending Write.ballotOver
      (Write.Carries id fun m => sent m ∨ m = rn.raft.hardState.ballot.message id)
      rn.raft.raftLog.storage.hardState.ballot new rn.raft.hardState.ballot)
    (own : ∀ m ∈ steps, m ∈ rn.stepsOnAdvance
      ∨ (m ∈ rn.raft.msgsAfterAppend ∧ m.toId = rn.raft.id) ∨ m.IsAppendResp ∨ m.IsApplyResp)
    : (rn.accepted rd steps l).Bound id given
        (fun m => sent m ∨ m = rn.raft.hardState.ballot.message id) new := by
  have prev : (rn.accepted rd steps l).prevHardSt.ballot = rn.raft.hardState.ballot := by
    refine Eq.trans ?_ (ok.written reported)
    show (if _ then _ else _ : HardState).ballot = _
    split <;> rfl
  have ballots := ok.core.ballots.cast id
  have follows := ok.core.pledges.follows
  exact {
    core := ⟨{ ballots with queued := List.forall_mem_nil _ }, by
      rw [prev]
      exact ⟨.refl _, List.forall_mem_nil _, List.forall_mem_nil _⟩⟩
    self := ok.self
    given := fun m before => .inl (ok.given m before)
    writes := by
      rw [prev]
      show Pending _ _ l.storage.hardState.ballot new _
      rw [storage]
      exact pending
    own := by
      intro m member
      rw [prev]
      rcases own m member with old | ⟨waits, toSelf⟩ | answer
      · refine ⟨(ok.own m old).1, fun pledge => ?_⟩
        obtain ⟨fromId, honours⟩ := (ok.own m old).2 pledge
        exact ⟨fromId, honours.follows pledge follows⟩
      · refine ⟨fun _ => toSelf.trans ok.self, fun pledge => ⟨?_, ok.honours pledge waits⟩⟩
        exact (ok.core.pledges.waiting m waits pledge).1.trans ok.self
      · obtain ⟨noVote, noAck⟩ := Message.IsOwn.noPromise answer
        exact ⟨fun type => absurd type noVote,
          fun pledge => absurd pledge (Message.not_isPledge noVote noAck)⟩ }

end RawNode.Bound

theorem MemoryStorage.hardState_install (ms : MemoryStorage) (snapshot : Option Snapshot)
    : (ms.install snapshot).hardState = ms.hardState := by
  cases snapshot with
  | none => rfl
  | some s =>
      unfold install applySnapshot
      dsimp only
      by_cases old : ms.snapshot.metadata.index ≠ 0 ∧ ms.snapshot.metadata.index ≥ s.metadata.index
      · rw [if_pos old]
        rfl
      · rw [if_neg old]
        rfl

theorem MemoryStorage.ends_append (ms : MemoryStorage) (es : List Entry)
    : Ends (ms.append es) (fun ms' => ms'.hardState = ms.hardState) fun _ => True := by
  unfold MemoryStorage.append
  split
  · exact rfl
  · refine Ends.ite (fun _ => rfl) fun _ => ?_
    exact Ends.ite (fun _ => rfl) fun _ => trivial

theorem Host.store_ballot {ms ms' : MemoryStorage} {w : Write}
    (stored : store ms w = .ok ms')
    : ms'.hardState.ballot = w.ballotOver ms.hardState.ballot := by
  rw [store_eq] at stored
  obtain ⟨ms₁, appended, done⟩ := except_bind_eq_ok.mp stored
  have kept : ms₁.hardState = ms.hardState :=
    ((ms.install w.snapshot).ends_append w.entries).result appended
      |>.trans (ms.hardState_install w.snapshot)
  cases done
  unfold Write.ballotOver
  split
  · rw [kept]
  · rfl

theorem Host.storage_of_node {h : Host} {rn : RawNode} (node : h.node = some rn)
    : h.storage = rn.raft.raftLog.storage := by
  simp only [Host.storage, node]

theorem Host.node_crash (h : Host) (k : Nat) : (h.crash k).1.node = none := by
  unfold Host.crash
  dsimp only
  split <;> rfl

namespace Host.Bound

variable {id : Nat} {given : Message → Prop} {h h' : Host} {rn : RawNode}

/-- The node is ahead of the disk. -/
theorem follows (ok : h.Bound id given) (node : h.node = some rn)
    : h.storage.hardState.ballot.Follows rn.raft.hardState.ballot := by
  obtain ⟨_, bound⟩ := ok.up rn node
  rw [storage_of_node node]
  exact (bound.writes.related .refl .trans Write.Carries.follows).trans bound.core.pledges.follows

/-- The process ends with the ballot as it is on the disk. -/
theorem stopped (ok : h.Bound id given) (down : h'.node = none) (writes : h'.writes = [])
    (same : h'.disk.hardState.ballot = h.storage.hardState.ballot)
    (revert : h'.revert = [] ∨ h'.revert = h.revert)
    : h'.Bound id given := by
  have storage : h'.storage.hardState.ballot = h.storage.hardState.ballot := by
    unfold Host.storage at same ⊢
    rw [down]
    exact same
  exact {
    honoured := storage ▸ ok.honoured
    cast := storage ▸ ok.cast
    once := ok.once
    revert := by
      rcases revert with none | kept
      · rw [none]
        exact List.forall_mem_nil _
      · rw [kept, storage]
        exact ok.revert
    down := fun _ => writes
    up := by simp [down] }

theorem stop (ok : h.Bound id given) : h.stop.Bound id given := ok.stopped rfl rfl rfl (.inr rfl)

/-- A crash may lose commit indexes, the ballot of the disk stays. -/
theorem crash (ok : h.Bound id given) (k : Nat)
    : (h.crash k).1.Bound id given
      ∧ (h.crash k).1.storage.hardState.ballot = h.storage.hardState.ballot := by
  unfold Host.crash
  dsimp only
  split
  · exact ⟨ok.stopped rfl rfl rfl (.inl rfl), rfl⟩
  · rename_i st found
    have same : st.ballot = h.storage.hardState.ballot := by
      rcases List.mem_cons.mp (List.mem_of_getElem? found) with rfl | lost
      · rfl
      · exact ok.revert st lost
    exact ⟨ok.stopped rfl rfl same (.inl rfl), same⟩

/-- The node changes and the disk does not. -/
theorem withNode {rn' : RawNode} (ok : h.Bound id given) (node : h.node = some rn)
    (node' : h'.node = some rn') (revert : h'.revert = h.revert)
    (storage : rn'.raft.raftLog.storage.hardState = rn.raft.raftLog.storage.hardState)
    (bound : ∀ sent, rn.Bound id given sent h.writes → ∃ sent', rn'.Bound id given sent' h'.writes)
    : h'.Bound id given := by
  have same : h'.storage.hardState = h.storage.hardState := by
    simp only [Host.storage, node, node', storage]
  exact {
    honoured := same ▸ ok.honoured
    cast := same ▸ ok.cast
    once := ok.once
    revert := by
      rw [revert, same]
      exact ok.revert
    down := by simp [node']
    up := by
      intro rn₁ up
      obtain rfl : rn' = rn₁ := Option.some.inj (node'.symm.trans up)
      obtain ⟨sent, old⟩ := ok.up rn node
      exact bound sent old }

/-- Neither the node nor its writes change. -/
theorem congr (ok : h.Bound id given) (node : h'.node = h.node) (disk : h'.disk = h.disk)
    (writes : h'.writes = h.writes) (revert : h'.revert = h.revert)
    : h'.Bound id given := by
  have same : h'.storage = h.storage := by simp only [Host.storage, node, disk]
  exact {
    honoured := same ▸ ok.honoured
    cast := same ▸ ok.cast
    once := ok.once
    revert := by rw [revert, same]; exact ok.revert
    down := by rw [node, writes]; exact ok.down
    up := by rw [node, writes]; exact ok.up }

/-- The node moves on without the disk. -/
theorem goes {r : Raft} (ok : h.Bound id given) (node : h.node = some rn)
    (node' : h'.node = some { rn with raft := r }) (revert : h'.revert = h.revert)
    (writes : h'.writes = h.writes)
    (goes : ∀ sent, rn.raft.core.Bound sent rn.prevHardSt.ballot
      → rn.raft.core.Goes sent rn.prevHardSt.ballot r.core)
    : h'.Bound id given := by
  obtain ⟨_, old⟩ := ok.up rn node
  have storage : r.raftLog.storage = rn.raft.raftLog.storage := (goes _ old.core).storage
  refine ok.withNode node node' revert (congrArg MemoryStorage.hardState storage) fun sent old => ?_
  rw [writes]
  exact ⟨_, old.goes (goes sent old.core)⟩

/-- The storage changes apart from its hard state. -/
theorem setStorage {ms : MemoryStorage} (ok : h.Bound id given) (node : h.node = some rn)
    (same : ms.hardState = rn.raft.raftLog.storage.hardState)
    : { h with node := some (Host.setStorage rn ms) }.Bound id given := by
  refine ok.withNode node rfl rfl same fun sent old => ⟨sent, ?_⟩
  exact {
    core := ⟨{ old.core.ballots with }, { old.core.pledges with }⟩
    self := old.self
    given := old.given
    writes := by
      show Pending _ _ ms.hardState.ballot _ _
      rw [same]
      exact old.writes
    own := old.own }

/-- The process starts from the disk. -/
theorem start {c : Config} {app : List Entry} {confs : List (Nat × ConfState)}
    (ok : h.Bound id given) (down : h.node = none) (self : c.id = id)
    (disk : c.storage = h.disk)
    (started : Started c rn.raft) (prev : rn.prevHardSt = rn.raft.hardState)
    (steps : rn.stepsOnAdvance = [])
    : { h with node := some rn, app := app, confs := confs }.Bound id given := by
  have stored : rn.raft.raftLog.storage = h.storage := by
    rw [started.log.storage, disk, Host.storage, down]
  have ballot : rn.raft.hardState.ballot = h.storage.hardState.ballot := by
    rw [← stored, started.log.storage]
    exact congrArg₂ Ballot.mk started.term started.vote
  have empty : rn.raft.core.queued = [] := by
    show rn.raft.msgs ++ rn.raft.msgsAfterAppend = []
    rw [started.msgs, started.msgsAfterAppend]
    rfl
  have ballots : rn.raft.core.Ballots given := {
    named := by
      show rn.raft.id ≠ none64
      rw [started.id]
      exact started.named
    candidate := by
      show rn.raft.state = .stateCandidate → _
      rw [started.state]
      nofun
    queued := empty ▸ List.forall_mem_nil _
    past := by
      intro m t a before grants
      have honours := ballot ▸ ok.honoured m before grants.isPledge
      refine ⟨grants.term ▸ honours.term, fun now => ?_⟩
      exact (honours.vote grants.type (grants.term.trans now)).trans grants.toId
    once := ok.once }
  have storage : ({ h with node := some rn, app := app, confs := confs } : Host).storage
      = h.storage := stored
  refine ⟨storage ▸ ok.honoured, storage ▸ ok.cast, ok.once, storage ▸ ok.revert, nofun, ?_⟩
  rintro _ ⟨⟩
  refine ⟨given, ⟨ballots, ?_⟩, started.id.trans self, fun _ before => before, ?_, ?_⟩
  · rw [prev]
    refine ⟨.refl _, ?_, ?_⟩
    · show ∀ m ∈ rn.raft.msgs, _
      rw [started.msgs]
      exact List.forall_mem_nil _
    · show ∀ m ∈ rn.raft.msgsAfterAppend, _
      rw [started.msgsAfterAppend]
      exact List.forall_mem_nil _
  · show Pending _ _ rn.raft.raftLog.storage.hardState.ballot h.writes _
    rw [ok.down down, stored, prev]
    exact ballot.symm
  · rw [steps]
    exact List.forall_mem_nil _

end Host.Bound

end EtcdRaft
