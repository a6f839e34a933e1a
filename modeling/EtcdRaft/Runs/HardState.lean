import EtcdRaft.Refinement.Answers
import EtcdRaft.Runs.Terms

/-! The hard state of a node only moves forward, whatever is done to the node, and the
node does not vote for two candidates in one term.
-/

namespace EtcdRaft

-----------------------------------------------------------------------------------------
-- Hard states
-----------------------------------------------------------------------------------------

/-- What may become of a hard state. -/
structure HardState.Advances (st st' : HardState) : Prop where
  term : st.term ≤ st'.term
  commit : st.commit ≤ st'.commit
  vote : st'.term = st.term → st'.vote = st.vote ∨ st.vote = none64 ∧ st'.vote ≠ none64

namespace HardState.Advances

theorem refl (st : HardState) : st.Advances st := ⟨Nat.le_refl _, Nat.le_refl _, fun _ => .inl rfl⟩

theorem trans {st₁ st₂ st₃ : HardState} (first : st₁.Advances st₂)
    (second : st₂.Advances st₃)
    : st₁.Advances st₃ where
  term := first.term.trans second.term
  commit := first.commit.trans second.commit
  vote := by
    intro same
    have earlier := first.term
    have later := second.term
    rcases first.vote (by omega) with kept | ⟨free, cast⟩
    · rw [← kept]
      exact second.vote (by omega)
    · rcases second.vote (by omega) with kept | ⟨free', _⟩
      · exact .inr ⟨free, kept ▸ cast⟩
      · exact absurd free' cast

end HardState.Advances

def Core.hardState (c : Core) : HardState where
  term := c.term
  vote := c.vote
  commit := c.raftLog.committed

-----------------------------------------------------------------------------------------
-- Votes
-----------------------------------------------------------------------------------------

/-- The message is a vote for a candidate. -/
structure Message.Grants (m : Message) (term candidate : Nat) : Prop where
  type : m.type = .msgVoteResp
  reject : m.reject = false
  term : m.term = term
  toId : m.toId = candidate
  named : candidate ≠ none64

/-- The messages of a node that are on their way out. -/
def Core.queued (c : Core) : List Message := c.msgs ++ c.msgsAfterAppend

/-- Of all the messages that the node has `sent` the votes are for one candidate in each
term, and those of the present term are for the candidate of the hard state.
-/
structure Core.Ballots (sent : Message → Prop) (c : Core) : Prop where
  named : c.id ≠ none64
  candidate : c.state = .stateCandidate → c.vote = c.id
  queued : ∀ m ∈ c.queued, sent m
  past : ∀ {m t a}, sent m → m.Grants t a → t ≤ c.term ∧ (t = c.term → c.vote = a)
  once : ∀ {m m' t a b}, sent m → sent m' → m.Grants t a → m'.Grants t b → a = b

namespace Core.Ballots

variable {sent : Message → Prop} {c c' : Core}

/-- The hard state moves on, and the new messages in the queue are no votes, except for
the candidate of the hard state.
-/
theorem move (ok : c.Ballots sent) (advances : c.hardState.Advances c'.hardState)
    (id : c'.id = c.id) (candidate : c'.state = .stateCandidate → c'.vote = c'.id)
    (new : ∀ m ∈ c'.queued, m ∈ c.queued
      ∨ ∀ {t a}, m.Grants t a → t = c'.term ∧ c'.vote = a)
    : c'.Ballots fun m => sent m ∨ m ∈ c'.queued := by
  have past : ∀ {m t a}, sent m → m.Grants t a → t ≤ c'.term ∧ (t = c'.term → c'.vote = a) := by
    intro m t a before grants
    obtain ⟨earlier, vote⟩ := ok.past before grants
    have later : c.term ≤ c'.term := advances.term
    refine ⟨earlier.trans later, fun now => ?_⟩
    have same : c'.term = c.term := by omega
    have vote := vote (now.trans same)
    rcases advances.vote same with kept | ⟨free, _⟩
    · exact kept.trans vote
    · exact absurd (vote.symm.trans free) grants.named
  have fresh : ∀ {m}, sent m ∨ m ∈ c'.queued
      → sent m ∨ ∀ {t a}, m.Grants t a → t = c'.term ∧ c'.vote = a := by
    rintro m (before | member)
    · exact .inl before
    · exact (new m member).imp_left (ok.queued m)
  have past' : ∀ {m t a}, sent m ∨ m ∈ c'.queued → m.Grants t a
      → t ≤ c'.term ∧ (t = c'.term → c'.vote = a) := by
    intro m t a either grants
    rcases fresh either with before | now
    · exact past before grants
    · exact ⟨(now grants).1.le, fun _ => (now grants).2⟩
  exact {
    named := id ▸ ok.named
    candidate := candidate
    queued := fun m member => .inr member
    past := past'
    once := by
      intro m m' t a b either either' grants grants'
      rcases fresh either with before | now
      · rcases fresh either' with before' | now
        · exact ok.once before before' grants grants'
        · obtain ⟨current, vote⟩ := now grants'
          exact ((past' either grants).2 current).symm.trans vote
      · obtain ⟨current, vote⟩ := now grants
        exact vote.symm.trans ((past' either' grants').2 current) }

/-- Fewer messages are as good. -/
theorem mono {sent' : Message → Prop} (ok : c.Ballots sent)
    (fewer : ∀ m, sent' m → sent m) (queued : ∀ m ∈ c.queued, sent' m)
    : c.Ballots sent' where
  named := ok.named
  candidate := ok.candidate
  queued := queued
  past := fun before => ok.past (fewer _ before)
  once := fun before before' => ok.once (fewer _ before) (fewer _ before')

/-- Neither the role, the term nor the vote changes, and no vote is sent. -/
theorem still (ok : c.Ballots sent) (same : c'.id = c.id ∧ c'.state = c.state
      ∧ c'.term = c.term ∧ c'.vote = c.vote)
    (commit : c.raftLog.committed ≤ c'.raftLog.committed)
    (new : ∀ m ∈ c'.queued, m ∈ c.queued ∨ m.type ≠ .msgVoteResp ∨ m.reject = true)
    : c'.Ballots fun m => sent m ∨ m ∈ c'.queued := by
  obtain ⟨id, state, term, vote⟩ := same
  refine ok.move ⟨term.ge, commit, fun _ => .inl vote⟩ id ?_ fun m member => ?_
  · rw [state, vote, id]
    exact ok.candidate
  · refine (new m member).imp_right ?_
    rintro (other | reject) t a grants
    · exact absurd grants.type other
    · exact absurd (grants.reject.symm.trans reject) nofun

end Core.Ballots

theorem Core.mem_queued_send {c : Core} {m : Message} {new : List Message}
    (member : m ∈ { c with msgs := c.msgs ++ new }.queued)
    : m ∈ c.queued ∨ m ∈ new := by
  simp only [Core.queued, List.mem_append] at member ⊢
  rcases member with (old | new) | waiting
  · exact .inl (.inl old)
  · exact .inr new
  · exact .inl (.inr waiting)

theorem Core.mem_queued_answer {c : Core} {m sent : Message}
    (member : m ∈ (c.answer sent).queued)
    : m ∈ c.queued ∨ m = sent := by
  simp only [Core.queued, Core.answer, List.mem_append, List.mem_singleton] at member ⊢
  rcases member with old | waiting | new
  · exact .inl (.inl old)
  · exact .inl (.inr waiting)
  · exact .inr new

theorem MaySend.noVote [Codec] {m sent : Message} {c : Core} (may : MaySend m c sent)
    : sent.type ≠ .msgVoteResp := by
  cases may with
  | app type => rw [type]; nofun
  | snap type => rw [type]; nofun
  | heartbeat type => rw [type]; nofun
  | vote type => rw [type]; nofun
  | forward type forwarded =>
      intro vote
      rw [← type, vote] at forwarded
      cases forwarded
  | other type => rcases type with type | type <;> rw [type] <;> nofun

-----------------------------------------------------------------------------------------
-- Steps
-----------------------------------------------------------------------------------------

section

variable [Codec] {now : Nat} {m : Message} {c c' : Core} {sent : Message → Prop}

/-- A small action moves the hard state forward. -/
theorem Act.advances (act : Act now m c c') : c.hardState.Advances c'.hardState := by
  have commits : ∀ {l : RaftLog}, c.raftLog.committed ≤ l.committed
      → c.hardState.Advances { c with raftLog := l }.hardState :=
    fun later => ⟨Nat.le_refl _, later, fun _ => .inl rfl⟩
  cases act with
  | becomeFollower term newer later =>
      exact ⟨newer, Nat.le_refl _, fun same => .inl (if_pos same.symm)⟩
  | becomeCandidate notLeader may =>
      exact ⟨Nat.le_succ _, Nat.le_refl _, fun same => absurd same (Nat.succ_ne_self _)⟩
  | grant type term free upToDate =>
      refine ⟨Nat.le_refl _, Nat.le_refl _, fun _ => ?_⟩
      rcases free with again | free
      · exact .inl again.symm
      · by_cases named : m.fromId = none64
        · exact .inl (named.trans free.symm)
        · exact .inr ⟨free, named⟩
  | win candidate won => exact ⟨Nat.le_refl _, Nat.le_refl _, fun _ => .inl (if_pos rfl)⟩
  | commit leads raftLog commit => exact commits (Keeps.maybeCommit commit).committed
  | accept type follower term above raftLog last appended =>
      exact commits (Keeps.maybeAppend appended).committed
  | heartbeat type follower term raftLog committed =>
      exact commits (Keeps.commitTo committed).committed
  | fastForward type follower term newer holds raftLog committed =>
      exact commits (Keeps.commitTo committed).committed
  | restore type follower term newer lacks chg blank cfg progress config same =>
      exact commits (Keeps.restore newer).committed
  | stored type current term raftLog stores =>
      exact commits (RaftLog.stored_ok stores).committed.ge
  | applied type e last size raftLog applies =>
      exact commits (appliedTo_ok applies).2.2.2.2.1.ge
  | _ => exact .refl _

/-- A small action casts no second vote. -/
theorem Act.ballots (act : Act now m c c') (ok : c.Ballots sent)
    : c'.Ballots fun m => sent m ∨ m ∈ c'.queued := by
  have advances := act.advances
  have commit := advances.commit
  have same : ∀ {c' : Core}, c'.queued = c.queued → ∀ m ∈ c'.queued, m ∈ c.queued
      ∨ m.type ≠ .msgVoteResp ∨ m.reject = true := by
    intro c' same m member
    exact .inl (same ▸ member)
  cases act with
  | becomeFollower term newer later =>
      exact ok.move advances rfl nofun fun m member => .inl member
  | becomePreCandidate type enabled notLeader may =>
      exact ok.move advances rfl nofun fun m member => .inl member
  | becomeCandidate notLeader may =>
      exact ok.move advances rfl (fun _ => rfl) fun m member => .inl member
  | win candidate won => exact ok.move advances rfl nofun fun m member => .inl member
  | send sent' may =>
      refine ok.still ⟨rfl, rfl, rfl, rfl⟩ commit fun m member => ?_
      refine (Core.mem_queued_send member).imp_right fun new => ?_
      rw [List.mem_singleton.mp new]
      exact .inl may.noVote
  | answer sent' may =>
      refine ok.move advances rfl ok.candidate fun m member => ?_
      refine (Core.mem_queued_answer member).imp_right ?_
      rintro rfl t a grants
      cases may with
      | reject type reject term => exact absurd (grants.reject.symm.trans reject) nofun
      | preVote type fromId term => exact absurd (grants.type.symm.trans type) nofun
      | empty type index term => exact absurd (grants.type.symm.trans type) nofun
      | selfVote candidate own =>
          rw [own] at grants
          exact ⟨grants.term.symm, (ok.candidate candidate).trans grants.toId⟩
  | grant type term free upToDate =>
      refine ok.move advances rfl (fun candidate => ?_) fun m' member => ?_
      · have vote := ok.candidate candidate
        rcases free with again | free
        · exact again.symm.trans vote
        · exact absurd (vote.symm.trans free) ok.named
      · refine (Core.mem_queued_answer member).imp_right ?_
        rintro rfl t a grants
        exact ⟨grants.term.symm, grants.toId⟩
  | accept type follower term above raftLog last appended =>
      refine ok.still ⟨rfl, rfl, rfl, rfl⟩ commit fun m member => ?_
      refine (Core.mem_queued_answer member).imp_right ?_
      rintro rfl
      exact .inl nofun
  | ackCommitted type follower term =>
      refine ok.still ⟨rfl, rfl, rfl, rfl⟩ commit fun m member => ?_
      refine (Core.mem_queued_answer member).imp_right ?_
      rintro rfl
      exact .inl nofun
  | restore type follower term newer lacks chg blank cfg progress config equivalent =>
      refine ok.still ⟨rfl, rfl, rfl, rfl⟩ commit fun m member => ?_
      refine (Core.mem_queued_answer member).imp_right ?_
      rintro rfl
      exact .inl nofun
  | heartbeat type follower term raftLog committed =>
      refine ok.still ⟨rfl, rfl, rfl, rfl⟩ commit fun m member => ?_
      refine (Core.mem_queued_send member).imp_right fun new => ?_
      rw [List.mem_singleton.mp new]
      exact .inl nofun
  | confirm type leads term safe acked acks readOnly reads advances states msgs answers =>
      refine ok.still ⟨rfl, rfl, rfl, rfl⟩ commit fun m member => ?_
      refine (Core.mem_queued_send member).imp_right fun new => .inl ?_
      rw [(answers.2 m new).1]
      nofun
  | answerAtOnce leads allowed states msgs answers =>
      refine ok.still ⟨rfl, rfl, rfl, rfl⟩ commit fun m member => ?_
      refine (Core.mem_queued_send member).imp_right fun new => .inl ?_
      rw [(answers.2 m new).1]
      nofun
  | _ => exact ok.still ⟨rfl, rfl, rfl, rfl⟩ commit (same rfl)

theorem Acts.ballots (acts : Acts now m c c') (ok : c.Ballots sent)
    : c.hardState.Advances c'.hardState ∧ c'.Ballots fun m => sent m ∨ m ∈ c'.queued := by
  induction acts with
  | refl => exact ⟨.refl _, ok.mono (fun m => Or.rec id (ok.queued m)) fun m => .inr⟩
  | tail _ act ih =>
      refine ⟨ih.1.trans act.advances, (act.ballots ih.2).mono ?_ fun m => .inr⟩
      exact fun m => Or.imp_left .inl

theorem Steps.ballots (steps : Steps now m c c') (ok : c.Ballots sent)
    : c.hardState.Advances c'.hardState ∧ c'.Ballots fun m => sent m ∨ m ∈ c'.queued := by
  obtain ⟨c₁, acts, rfl | ⟨c₂, appends, new, rfl, sends⟩⟩ := steps
  · exact Acts.ballots acts ok
  · obtain ⟨advances, ok₁⟩ := Acts.ballots acts ok
    obtain ⟨leads, es, nonempty, index, proposal, source, raftLog, appends⟩ := appends
    have commit : c₁.raftLog.committed ≤ raftLog.committed :=
      (Keeps.append appends).committed
    refine ⟨advances.trans ⟨Nat.le_refl _, commit, fun _ => .inl rfl⟩, ?_⟩
    refine .mono (ok₁.still ⟨rfl, rfl, rfl, rfl⟩ commit fun m member => ?_)
      (fun m => Or.imp_left .inl) fun m => .inr
    rcases Core.mem_queued_send member with old | new
    · refine (Core.mem_queued_answer old).imp_right ?_
      rintro rfl
      exact .inl nofun
    · exact .inr (.inl (sends m new).noVote)

end

-----------------------------------------------------------------------------------------
-- Operations
-----------------------------------------------------------------------------------------

/-- What the application does to a node. A call of the node other than these is the step
of a message.
-/
inductive NodeOperation where
  | step (m : Message)
  | tick
  | ready
  | advance
  | applyConfChange (cc : ConfChangeV2)
  | store (ms : MemoryStorage)

/-- The messages of the network that make sense in one term only carry it, as `send` sees
to.
-/
def Message.Stamped (m : Message) : Prop :=
  m.type.termed = true → isLocalMsg m.type = false → m.term ≠ 0

def NodeOperation.Stamped : NodeOperation → Prop
  | .step m => m.Stamped
  | _ => True

namespace RawNode

variable [Codec]

end RawNode

/-- What holds of a node all the time. -/
structure Core.Honest (sent : Message → Prop) (c : Core) : Prop where
  ballots : c.Ballots sent
  termed : c.Termed

/-- The node moves on honestly from `c` to `c'`. -/
def Core.Moves (sent : Message → Prop) (c c' : Core) : Prop :=
  c.hardState.Advances c'.hardState ∧ c'.Honest fun m => sent m ∨ m ∈ c'.queued

namespace Core.Honest

variable {sent : Message → Prop} {c : Core}

/-- Nothing that is new has to be stored. -/
theorem withLog {l : RaftLog} (ok : c.Honest sent)
    (unstable : l.unstable.entries ≠ [] ∨ l.unstable.snapshot ≠ none
      → c.raftLog.unstable.entries ≠ [] ∨ c.raftLog.unstable.snapshot ≠ none)
    : { c with raftLog := l }.Honest sent where
  ballots := { ok.ballots with }
  termed := { ok.termed with unstable := fun some => ok.termed.unstable (unstable some) }

theorem refl (ok : c.Honest sent) : c.Moves sent c :=
  ⟨.refl _, ok.ballots.mono (fun m => Or.rec (fun before => before) (ok.ballots.queued m))
    fun _ => .inr, ok.termed⟩

variable [Codec] {now : Nat} {m : Message} {c' : Core}

theorem acts (ok : c.Honest sent) (acts : Acts now m c c')
    (sound : m.type.termed = true → m.term ≠ 0)
    : c.Moves sent c' :=
  have ⟨advances, ballots⟩ := Acts.ballots acts ok.ballots
  ⟨advances, ballots, Acts.termed acts sound ok.termed⟩

theorem steps (ok : c.Honest sent) (steps : Steps now m c c')
    (sound : m.type.termed = true → m.term ≠ 0)
    : c.Moves sent c' :=
  have ⟨advances, ballots⟩ := Steps.ballots steps ok.ballots
  ⟨advances, ballots, Steps.termed steps sound ok.termed⟩

end Core.Honest

theorem Core.Moves.trans {sent : Message → Prop} {c₁ c₂ c₃ : Core}
    (first : c₁.Moves sent c₂) (second : c₂.Moves (fun m => sent m ∨ m ∈ c₂.queued) c₃)
    : c₁.Moves sent c₃ := by
  obtain ⟨advances, honest⟩ := second
  refine ⟨first.1.trans advances, honest.ballots.mono ?_ fun m => .inr, honest.termed⟩
  exact fun m => Or.imp_left .inl

/-- What is left to be stored was to be stored before. -/
theorem Stores.unstable {l l' : RaftLog} {m : Message} (stores : Stores m l l')
    (some : l'.unstable.entries ≠ [] ∨ l'.unstable.snapshot ≠ none)
    : l.unstable.entries ≠ [] ∨ l.unstable.snapshot ≠ none := by
  refine some.imp (fun some none => ?_) fun some => ?_
  · obtain ⟨n, rest⟩ := stores.entries
    rw [none, List.drop_nil] at rest
    exact some rest
  · rcases stores.snapshot with ⟨same, _⟩ | ⟨none, _⟩
    · exact same ▸ some
    · exact absurd none some

section

variable [Codec] {sent : Message → Prop} {m : Message}

namespace RawNode

variable {rn rn' : RawNode}

/-- The node and the messages that it steps on `Advance`. -/
structure Honest (sent : Message → Prop) (rn : RawNode) : Prop where
  core : rn.raft.core.Honest sent
  own : ∀ m ∈ rn.stepsOnAdvance, m.IsOwn

omit [Codec] in
theorem Honest.stamped {m : Message} (own : m.IsOwn)
    : m.Stamped := fun termed _ => own.termed termed

/-- A `Ready` takes the messages and leaves the hard state as it is. -/
theorem Honest.ready {rd : Ready} (ok : rn.Honest sent) (taken : rn.Taken rn' rd)
    : rn.raft.core.Moves sent rn'.raft.core ∧ ∀ m ∈ rn'.stepsOnAdvance, m.IsOwn := by
  have accepted : ∀ {committed : List Entry} {raftLog : RaftLog} {rd : Ready}
      {steps : List Message}, rn.handedOutLog committed = .ok raftLog
        → rn.raft.core.Moves sent (rn.accepted rd steps raftLog).raft.core := by
    intro committed raftLog rd steps accepts
    have same := (handedOutLog_ok accepts).2.2.1
    refine ⟨⟨Nat.le_refl _, same.ge, fun _ => .inl rfl⟩, ?_, termed_accepted ok.core.termed accepts⟩
    exact ok.core.ballots.still ⟨rfl, rfl, rfl, rfl⟩ same.ge nofun
  cases taken with
  | sync mode fresh appliable answers accepts =>
      refine ⟨accepted accepts, fun m member => ?_⟩
      exact (mem_ownSteps ok.core.termed answers member).imp_left fun waits =>
        ok.core.termed.waiting m waits.1
  | async mode appliable request accepts => exact ⟨accepted accepts, ok.own⟩

end RawNode

end

attribute [local instance] Codec.wire

end EtcdRaft
