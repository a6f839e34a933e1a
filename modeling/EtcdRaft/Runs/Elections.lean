import EtcdRaft.Membership.CommittedIndex
import EtcdRaft.Membership.Quorums
import EtcdRaft.Membership.Tracked
import EtcdRaft.Runs.Polling
import EtcdRaft.Runs.Promises

/-! Elections and acknowledgements in a cluster: what candidates and leaders count has
been promised by the hosts that they count.
-/

namespace EtcdRaft

-----------------------------------------------------------------------------------------
-- What a node counts
-----------------------------------------------------------------------------------------

/-- What is known about the promises made to a host: who has voted for it in a term, and
who has acknowledged its log up to an index in a term.
-/
structure Tally where
  voted : Nat → Nat → Prop
  acked : Nat → Nat → Nat → Prop

namespace Tally

/-- A quorum of the voters has voted for the host. -/
def Elects (tally : Tally) (voters : JointConfig) (t : Nat) : Prop :=
  ∃ votes, voters.voteResult votes = .voteWon
    ∧ ∀ v, votes.get? v = some true → tally.voted v t

/-- More is known. -/
structure Grows (tally tally' : Tally) : Prop where
  voted : ∀ {v t}, tally.voted v t → tally'.voted v t
  acked : ∀ {v t i}, tally.acked v t i → tally'.acked v t i

theorem Elects.grow {tally tally' : Tally} {voters : JointConfig} {t : Nat}
    (elects : tally.Elects voters t) (grows : tally.Grows tally')
    : tally'.Elects voters t := by
  obtain ⟨votes, won, voted⟩ := elects
  exact ⟨votes, won, fun v vote => grows.voted (voted v vote)⟩

/-- What the node at `c` may count of the message. -/
structure Hears (tally : Tally) (m : Message) (c : Core) : Prop where
  vote : m.type = .msgVoteResp → m.reject = false → c.term ≤ m.term → tally.voted m.fromId m.term
  ack : m.type = .msgAppResp → m.reject = false
    → m.fromId = c.id ∨ m.index = 0 ∨ tally.acked m.fromId m.term m.index

theorem Hears.of_type {tally : Tally} {m : Message} {c : Core}
    (vote : m.type ≠ .msgVoteResp) (ack : m.type ≠ .msgAppResp)
    : tally.Hears m c :=
  ⟨fun type => absurd type vote, fun type => absurd type ack⟩

end Tally

/-- The votes of a candidate and the progress of the peers of a leader are accounted for.
-/
structure Core.Counts (tally : Tally) (c : Core) : Prop where
  votes : c.state = .stateCandidate → ∀ v, c.votes.get? v = some true → tally.voted v c.term
  acks : c.state = .stateLeader → ∀ v index learner, c.progress v = some (index, learner)
    → v = c.id ∨ index = 0 ∨ tally.acked v c.term index

/-- The node goes from `c` to `c'`; if it leads at the end, it has led throughout, or has
been elected on the way by a quorum of the configuration that it has at the end.
-/
def Core.Elects (tally : Tally) (c c' : Core) : Prop :=
  c'.state = .stateLeader
    → (c.state = .stateLeader ∧ c'.term = c.term ∧ c'.config = c.config)
      ∨ tally.Elects c'.config.voters c'.term

namespace Core

variable {tally tally' : Tally} {c c' c₁ c₂ c₃ : Core}

theorem Counts.of_state (candidate : c.state ≠ .stateCandidate)
    (leader : c.state ≠ .stateLeader)
    : c.Counts tally :=
  ⟨fun same => absurd same candidate, fun same => absurd same leader⟩

theorem Counts.of_follower (follower : c.state = .stateFollower) : c.Counts tally :=
  .of_state (follower ▸ nofun) (follower ▸ nofun)

theorem Counts.grow (ok : c.Counts tally) (grows : tally.Grows tally') : c.Counts tally' where
  votes := fun candidate v vote => grows.voted (ok.votes candidate v vote)
  acks := fun leads v index learner found =>
    (ok.acks leads v index learner found).imp_right (Or.imp_right grows.acked)

theorem Elects.refl (tally : Tally) (c : Core) : c.Elects tally c :=
  fun leads => .inl ⟨leads, rfl, rfl⟩

theorem Elects.trans (first : c₁.Elects tally c₂) (second : c₂.Elects tally c₃)
    : c₁.Elects tally c₃ := by
  intro leads
  rcases second leads with ⟨leads, term, config⟩ | elected
  · rw [term, config]
    exact first leads
  · exact .inr elected

end Core

section

variable [Codec] {tally : Tally} {now : Nat} {m : Message} {c c' : Core}

/-- Only a snapshot changes the configuration. -/
theorem Act.config (act : Act now m c c') (other : m.type ≠ .msgSnap)
    : c'.config = c.config := by
  cases act with
  | restore type => exact absurd type other
  | _ => rfl

theorem Tally.Hears.act (hears : tally.Hears m c) (act : Act now m c c') : tally.Hears m c' where
  vote := fun type reject later =>
    hears.vote type reject (Nat.le_trans act.advances.term later)
  ack := act.id ▸ hears.ack

/-- A small action counts what the node has heard. -/
theorem Act.counts (act : Act now m c c') (ok : c.Counts tally) (hears : tally.Hears m c)
    : c'.Counts tally := by
  cases act with
  | becomeFollower => exact .of_state nofun nofun
  | becomePreCandidate => exact .of_state nofun nofun
  | becomeCandidate =>
      refine ⟨fun _ v vote => ?_, nofun⟩
      cases vote
  | poll type candidate term votes recorded =>
      refine ⟨fun _ v vote => ?_, fun leads => absurd (candidate.symm.trans leads) nofun⟩
      rcases recorded v vote with old | ⟨rfl, granted⟩
      · exact ok.votes candidate v old
      · show tally.voted m.fromId c.term
        rw [← term]
        exact hears.vote type granted term.ge
  | pollPre type preCandidate => exact .of_state (preCandidate ▸ nofun) (preCandidate ▸ nofun)
  | win candidate won type =>
      refine ⟨nofun, ?_⟩
      intro _ v index learner found
      obtain ⟨pr, _, same⟩ := Option.map_eq_some_iff.mp found
      have same : (if v = c.id then c.raftLog.lastIndex else 0) = index :=
        congrArg Prod.fst same
      by_cases self : v = c.id
      · exact .inl self
      · rw [if_neg self] at same
        exact .inr (.inl same.symm)
  | acknowledged type leads term reject =>
      refine ⟨fun candidate => absurd (leads.symm.trans candidate) nofun, ?_⟩
      intro _ v index learner tracked
      have found : acknowledge c.progress m.fromId m.index v = some (index, learner) :=
        tracked
      unfold acknowledge at found
      split at found
      · rename_i here
        subst here
        obtain ⟨pr, known, same⟩ := Option.map_eq_some_iff.mp found
        have same : max pr.1 m.index = index := congrArg Prod.fst same
        rcases Nat.le_total pr.1 m.index with more | less
        · rw [← same, Nat.max_eq_right more]
          show _ ∨ _ ∨ tally.acked m.fromId c.term m.index
          rw [← term]
          exact hears.ack type reject
        · rw [← same, Nat.max_eq_left less]
          exact ok.acks leads _ pr.1 pr.2 known
      · exact ok.acks leads v index learner found
  | restore type follower => exact .of_follower follower
  | _ => exact { ok with }

/-- A small action makes a candidate the leader if a quorum has voted for it. -/
theorem Act.elects (act : Act now m c c') (ok : c.Counts tally) : c.Elects tally c' := by
  intro leads
  cases act with
  | becomeFollower => cases leads
  | becomePreCandidate => cases leads
  | becomeCandidate => cases leads
  | win candidate won => exact .inr ⟨c.votes, won, ok.votes candidate⟩
  | restore _ follower => exact absurd (follower.symm.trans leads) nofun
  | _ => exact .inl ⟨leads, rfl, rfl⟩

theorem Acts.counts (acts : Acts now m c c') (ok : c.Counts tally)
    (hears : tally.Hears m c)
    : c'.Counts tally ∧ tally.Hears m c' ∧ c.Elects tally c' := by
  induction acts with
  | refl => exact ⟨ok, hears, .refl tally c⟩
  | tail _ act ih =>
      obtain ⟨ok, hears, elects⟩ := ih
      exact ⟨act.counts ok hears, hears.act act, elects.trans (act.elects ok)⟩

theorem Steps.counts (steps : Steps now m c c') (ok : c.Counts tally)
    (hears : tally.Hears m c)
    : c'.Counts tally ∧ c.Elects tally c' := by
  obtain ⟨c₁, acts, rfl | ⟨c₂, appends, new, rfl, sends⟩⟩ := steps
  · obtain ⟨ok, _, elects⟩ := Acts.counts acts ok hears
    exact ⟨ok, elects⟩
  · obtain ⟨ok, _, elects⟩ := Acts.counts acts ok hears
    obtain ⟨leads, es, nonempty, index, proposal, source, raftLog, appends⟩ := appends
    exact ⟨{ ok with }, elects⟩

end

-----------------------------------------------------------------------------------------
-- What an event makes of a node
-----------------------------------------------------------------------------------------

/-- The messages from which a follower learns what is committed. -/
def MessageType.tells : MessageType → Bool
  | .msgApp | .msgHeartbeat | .msgSnap => true
  | _ => false

theorem Message.IsOwn.silent {m : Message} (own : m.IsOwn) : m.type.tells = false := by
  rcases own with waits | append | apply
  · have type := waits.type
    revert type
    cases m.type <;> decide
  · rw [append.type]
    rfl
  · rw [apply.type]
    rfl

/-- The node handles a message from which it does not learn what is committed. -/
def Tally.Answers [Codec] (tally : Tally) (c c' : Core) : Prop :=
  ∃ now m, m.type.tells = false ∧ tally.Hears m c ∧ Steps now m c c'

/-- What an event makes of a node: it handles a message, or its own messages one after the
other on `Advance`, or it changes the configuration and reacts to that. Otherwise only the
log and what is handed out may change, and not the commit index.
-/
inductive Core.Reacts [Codec] (tally : Tally) (c : Core) : Core → Prop where
  | handles {now : Nat} {m : Message} {c' : Core} (hears : tally.Hears m c)
      (steps : Steps now m c c')
    : Reacts tally c c'
  | advances {c' : Core} (steps : Relation.ReflTransGen tally.Answers c c') : Reacts tally c c'
  | applies {cfg : TrackerConfig} {progress : ProgressMap} {c' : Core}
      (known : ∀ {v index learner}, progressOf progress v = some (index, learner)
        → index = 0 ∨ ∃ learner, c.progress v = some (index, learner))
      (acts : Acts 0 { type := .msgHup }
        { c with config := cfg, progress := progressOf progress } c')
    : Reacts tally c c'
  | keeps {raftLog : RaftLog} {msgs msgsAfterAppend : List Message} {readStates : List ReadState}
      (same : raftLog.committed = c.raftLog.committed)
    : Reacts tally c { c with
        raftLog := raftLog
        msgs := msgs
        msgsAfterAppend := msgsAfterAppend
        readStates := readStates }

section

variable [Codec] {tally : Tally} {c c' : Core}

theorem Tally.counts_answers (steps : Relation.ReflTransGen tally.Answers c c')
    (ok : c.Counts tally)
    : c'.Counts tally ∧ c.Elects tally c' := by
  induction steps with
  | refl => exact ⟨ok, .refl tally c⟩
  | tail _ answers ih =>
      obtain ⟨now, m, _, hears, steps⟩ := answers
      obtain ⟨ok, elects⟩ := Steps.counts steps ih.1 hears
      exact ⟨ok, ih.2.trans elects⟩

omit [Codec] in
/-- The node with a changed configuration, before it reacts to it. -/
theorem Core.Counts.changed {cfg : TrackerConfig} {progress : ProgressMap}
    (ok : c.Counts tally)
    (known : ∀ {v index learner}, progressOf progress v = some (index, learner)
      → index = 0 ∨ ∃ learner, c.progress v = some (index, learner))
    : Core.Counts tally { c with config := cfg, progress := progressOf progress } := by
  refine { ok with acks := fun leads v index learner found => ?_ }
  rcases known found with zero | ⟨learner, tracked⟩
  · exact .inr (.inl zero)
  · exact ok.acks leads v index learner tracked

namespace Core.Reacts

theorem counts (reacts : c.Reacts tally c') (ok : c.Counts tally) : c'.Counts tally := by
  cases reacts with
  | handles hears steps => exact (Steps.counts steps ok hears).1
  | advances steps => exact (Tally.counts_answers steps ok).1
  | applies known acts =>
      exact (Acts.counts acts (ok.changed known) (.of_type nofun nofun)).1
  | keeps => exact { ok with }

/-- A leader has been one before the event, or is elected by a quorum of its
configuration.
-/
theorem elects (reacts : c.Reacts tally c') (ok : c.Counts tally)
    (leads : c'.state = .stateLeader)
    : (c.state = .stateLeader ∧ c'.term = c.term)
      ∨ tally.Elects c'.config.voters c'.term := by
  have led : ∀ {c₁ : Core}, c₁.Elects tally c'
      → (c₁.state = .stateLeader ∧ c'.term = c₁.term) ∨ tally.Elects c'.config.voters c'.term :=
    fun elects => (elects leads).imp_left fun led => ⟨led.1, led.2.1⟩
  cases reacts with
  | handles hears steps => exact led (Steps.counts steps ok hears).2
  | advances steps => exact led (Tally.counts_answers steps ok).2
  | applies known acts =>
      have elected := led (Acts.counts acts (ok.changed known) (.of_type nofun nofun)).2.2
      exact elected
  | keeps => exact .inl ⟨leads, rfl⟩

end Core.Reacts

end

-----------------------------------------------------------------------------------------
-- Hosts
-----------------------------------------------------------------------------------------

section

variable [Codec] {σ : Setup} {id now : Nat} {given : Message → Prop}
  {arrives : Message → Prop}
  {h h' : Host} {m : Message} {tally : Tally} {rn rn' : RawNode}

/-- The messages of the network are what they seem. -/
def Tally.Trusts (tally : Tally) (id : Nat) (m : Message) : Prop :=
  m.reject = false → (m.type = .msgVoteResp → tally.voted m.fromId m.term)
    ∧ (m.type = .msgAppResp → m.fromId = id ∨ m.index = 0 ∨ tally.acked m.fromId m.term m.index)

omit [Codec] in
theorem Tally.Trusts.grow {tally' : Tally} (ok : tally.Trusts id m)
    (grows : tally.Grows tally')
    : tally'.Trusts id m := by
  intro reject
  obtain ⟨vote, ack⟩ := ok reject
  exact ⟨fun type => grows.voted (vote type),
    fun type => (ack type).imp_right (Or.imp_right grows.acked)⟩

omit [Codec] in
/-- What the node may count of a message that reaches the host. -/
theorem Host.Source.hears (source : Source σ now arrives h m h') (termed : h.Termed)
    (self : rn.raft.id = id) (network : ∀ m, arrives m → tally.Trusts id m)
    : tally.Hears m rn.raft.core := by
  have answer : ∀ {m : Message}, m.IsAppendResp ∨ m.IsApplyResp → tally.Hears m rn.raft.core := by
    intro m own
    obtain ⟨noVote, noAck⟩ := Message.IsOwn.noPromise own
    exact .of_type noVote noAck
  cases source with
  | @network m arrived =>
      obtain ⟨stamp, same⟩ := m.receivedAt_eq now
      rw [same]
      exact ⟨fun type reject _ => (network m arrived reject).1 type,
        fun type reject =>
          ((network m arrived reject).2 type).imp_left fun own => own.trans self.symm⟩
  | call call =>
      have called := call.type
      refine .of_type (fun type => ?_) (fun type => ?_)
      · rw [type] at called
        cases called
      · rw [type] at called
        cases called
  | appended queued =>
      exact answer (.inl (termed.appended m (queued ▸ List.mem_cons_self)))
  | applied queued =>
      exact answer (.inr (termed.applied m (queued ▸ List.mem_cons_self)))

omit [Codec] in
/-- What the node may count of its own messages: its vote is on the disk. -/
theorem Host.Own.hears (source : Own h m h') (bound : h.Bound id given)
    (node : h'.node = some rn)
    (cast : ∀ t, (h.storage.hardState.ballot.message id).Grants t id → tally.voted id t)
    : tally.Hears m rn.raft.core := by
  obtain @⟨rn₀, rest, up, queued, released⟩ := source
  cases node
  obtain ⟨sent, ok⟩ := bound.up rn₀ up
  obtain ⟨toSelf, own⟩ := ok.own m (queued ▸ List.mem_cons_self)
  have named : id ≠ none64 := ok.self ▸ ok.core.ballots.named
  have prev : h.storage.hardState.ballot = rn₀.prevHardSt.ballot := by
    have pending := ok.writes
    rw [released.2.1] at pending
    rw [Host.storage_of_node up]
    exact pending
  refine ⟨fun type reject later => ?_, fun type reject => ?_⟩
  · -- the vote is of the present term, and the disk has no newer one
    have toId := toSelf type
    obtain ⟨fromId, honours⟩ := own ⟨reject, .inl ⟨type, toId.symm ▸ named⟩⟩
    have follows : rn₀.prevHardSt.ballot.term ≤ rn₀.raft.term :=
      ok.core.pledges.follows.term
    have now : m.term = rn₀.prevHardSt.ballot.term :=
      Nat.le_antisymm honours.term (follows.trans later)
    rw [fromId, now, ← prev]
    refine cast _ ⟨rfl, rfl, rfl, ?_, named⟩
    rw [prev]
    exact (honours.vote type now).trans toId
  · by_cases index : m.index = 0
    · exact .inr (.inl index)
    · exact .inl ((own ⟨reject, .inr ⟨type, index⟩⟩).1.trans ok.self.symm)

omit [Codec] in
theorem Raft.acked_of_changed {r : Raft} {cc : ConfChangeV2} {cfg : TrackerConfig}
    {trk : ProgressMap} {v index : Nat} {learner : Bool}
    (changed : r.changedConfig cc = .ok (cfg, trk))
    (found : progressOf trk v = some (index, learner))
    : index = 0 ∨ ∃ learner, r.core.progress v = some (index, learner) := by
  unfold progressOf at found
  obtain ⟨pr', found', same⟩ := Option.map_eq_some_iff.mp found
  cases same
  rcases Raft.changedConfig_source changed found' with ⟨pr, known, _, rfl⟩ | ⟨_, rfl⟩
  · refine .inr ⟨pr.isLearner, ?_⟩
    show (r.trk.progress.get? v).map _ = _
    rw [known]
    rfl
  · exact .inl rfl

/-- Every transition lets the node react, or starts it as a follower. -/
theorem Host.Moves.reacts {out : Output} (moves : Moves σ id now arrives h out h')
    (bound : h.Bound id given) (termed : h.Termed) (public_ : ∀ m, arrives m → m.Public)
    (network : id ≠ none64 → ∀ m, arrives m → tally.Trusts id m)
    (node' : h'.node = some rn')
    : rn'.raft.state = .stateFollower
      ∨ ∃ rn, h.node = some rn ∧ rn.raft.core.Reacts tally rn'.raft.core := by
  have kept : h'.node = h.node → rn'.raft.state = .stateFollower
      ∨ ∃ rn, h.node = some rn ∧ rn.raft.core.Reacts tally rn'.raft.core :=
    fun same => .inr ⟨rn', same ▸ node', .keeps rfl⟩
  cases moves with
  | handle handles =>
      obtain @⟨m, h₁, rn, r, err, source, up, steps⟩ := handles
      have same : h₁.node = h.node := by cases source <;> rfl
      have node : h.node = some rn := same ▸ up
      cases node'
      obtain ⟨_, okNode⟩ := bound.up rn node
      have named : id ≠ none64 := okNode.self ▸ okNode.core.ballots.named
      obtain ⟨_, steps⟩ := Raft.exists_steps (termed.source source public_).2 steps
      exact .inr ⟨rn, node, .handles (source.hears termed okNode.self (network named)) steps⟩
  | refuse source refused => exact kept (by cases source <;> rfl)
  | fail failure => cases node'
  | start down known starts =>
      cases node'
      exact .inl ((ends_newRawNode _).result starts).1.state
  | crash k => cases (h.node_crash k).symm.trans node'
  | @tick rn r node ticks =>
      cases node'
      have hears : tally.Hears { type := .msgHup } rn.raft.core := .of_type nofun nofun
      exact .inr ⟨rn, node, .handles hears (.of_acts (Raft.acts_tick ticks))⟩
  | @readySync rn _ rd node free sync taken =>
      cases node'
      have taken := rn.ends_ready.result taken
      have same := taken.log.2
      cases taken <;> exact .inr ⟨rn, node, .keeps same⟩
  | @readyAsync rn _ rd node free async taken =>
      cases node'
      have taken := rn.ends_ready.result taken
      have same := taken.log.2
      cases taken <;> exact .inr ⟨rn, node, .keeps same⟩
  | @persist rn w rest ms node queued stored =>
      cases node'.symm.trans (h.node_persisted σ rn w rest ms)
      exact .inr ⟨rn, node, .keeps rfl⟩
  | skip => exact kept rfl
  | apply => exact kept rfl
  | @applyConfChange rn r cs e entries response rest cc node queued new decoded applied =>
      cases node'
      obtain ⟨cfg, progress, changed, acts⟩ := Raft.acts_applyConfChange applied
      exact .inr ⟨rn, node, .applies (Raft.acked_of_changed changed) acts⟩
  | finish => exact kept rfl
  | @createSnapshot rn _ _ node =>
      cases node'
      exact .inr ⟨rn, node, .keeps rfl⟩
  | @compact rn _ _ node =>
      cases node'
      exact .inr ⟨rn, node, .keeps rfl⟩

/-- On `Advance` the node answers its own messages. -/
theorem Host.Bound.answers (bound : h.Bound id given) (termed : h.Termed)
    (cast : ∀ t, (h.storage.hardState.ballot.message id).Grants t id → tally.voted id t)
    (steps : Relation.ReflTransGen (Handles Own) h.released h')
    : (h'.Bound id given ∧ h'.storage = h.storage) ∧ h'.Termed
      ∧ ∀ rn', h'.node = some rn' → ∃ rn, h.node = some rn
        ∧ Relation.ReflTransGen tally.Answers rn.raft.core rn'.raft.core := by
  induction steps with
  | refl =>
      exact ⟨⟨bound.congr rfl rfl rfl rfl, rfl⟩, { termed with }, fun rn node => ⟨rn, node, .refl⟩⟩
  | @tail a b _ next ih =>
      obtain ⟨⟨bound, storage⟩, termed, answers⟩ := ih
      obtain ⟨bound', storage'⟩ := Bound.handles next fun source =>
        ⟨bound.takeOwn source, (termed.takeOwn source).2⟩
      refine ⟨⟨bound', storage'.trans storage⟩, next.termed termed.takeOwn, ?_⟩
      obtain @⟨m, h₁, rn₁, r, err, source, up, steps⟩ := next
      have hears : tally.Hears m rn₁.raft.core := source.hears bound up (storage ▸ cast)
      obtain ⟨now, steps⟩ := Raft.exists_steps (termed.takeOwn source).2 steps
      obtain @⟨rn₀, rest, node₀, queued, released⟩ := source
      cases up
      obtain ⟨rn, node, before⟩ := answers rn₀ node₀
      have silent := (termed.own rn₀ node₀ m (queued ▸ List.mem_cons_self)).silent
      rintro _ ⟨⟩
      exact ⟨rn, node, before.tail ⟨now, m, silent, hears, steps⟩⟩

end

-----------------------------------------------------------------------------------------
-- Runs
-----------------------------------------------------------------------------------------

/-- A quorum of the one and a quorum of the other have a member in common. -/
def JointConfig.Overlaps (voters voters' : JointConfig) : Prop :=
  ∀ p q, voters.Agrees p → voters'.Agrees q → ∃ id, p id = true ∧ q id = true

namespace Cluster

variable [Codec] {σ : Setup} {events first second : List Event}

/-- The host `n` leads in the term `t`. -/
def LeadsIn (σ : Setup) (events : List Event) (n t : Nat) : Prop :=
  ∃ rn, ((run σ events).hosts n).node = some rn ∧ rn.raft.state = .stateLeader ∧ rn.raft.term = t

/-- The host `n` has become the leader of the term `t` in the run, and has had these
voters at the event that made it the leader.
-/
def ElectedWith (σ : Setup) (events : List Event) (n t : Nat) (voters : JointConfig) : Prop :=
  ∃ before e rn, before ++ [e] <+: events ∧ ¬LeadsIn σ before n t
    ∧ ((run σ (before ++ [e])).hosts n).node = some rn ∧ rn.raft.state = .stateLeader
    ∧ rn.raft.term = t ∧ rn.raft.trk.config.voters = voters

theorem ElectedWith.mono {n t : Nat} {voters : JointConfig} (longer : first <+: events)
    (elected : ElectedWith σ first n t voters)
    : ElectedWith σ events n t voters := by
  obtain ⟨before, e, rn, inside, rest⟩ := elected
  exact ⟨before, e, rn, inside.trans longer, rest⟩

/-- The host `v` has acknowledged the log up to the index to the host `n` in a term. -/
def Acked (σ : Setup) (events : List Event) (n v t index : Nat) : Prop :=
  ∃ m ∈ (run σ events).net, m.IsPledge ∧ m.type = .msgAppResp ∧ m.fromId = v ∧ m.toId = n
    ∧ m.term = t ∧ m.index = index

/-- What has been promised to the host `n` in a run. -/
def tally (σ : Setup) (events : List Event) (n : Nat) : Tally where
  voted := fun v t => ∃ m, Given σ events v m ∧ m.Grants t n
  acked := fun v t index => Acked σ events n v t index

theorem tally_grows (longer : first <+: events) (n : Nat)
    : (tally σ first n).Grows (tally σ events n) where
  voted := by
    rintro v t ⟨m, given, grants⟩
    exact ⟨m, given.mono longer, grants⟩
  acked := by
    rintro v t index ⟨m, member, promise⟩
    obtain ⟨rest, rfl⟩ := longer
    exact ⟨m, (net_run_append first rest).subset member, promise⟩

/-- The messages that reach a host are what they seem. -/
theorem trusts {n : Nat} {m : Message} (arrived : (run σ events).Arrives n m)
    (named : n ≠ none64)
    : (tally σ events n).Trusts n m := by
  obtain ⟨member, toId⟩ := arrived
  refine fun reject => ⟨fun type => ?_, fun type => ?_⟩
  · have grants : m.Grants m.term n := ⟨type, reject, rfl, toId, named⟩
    exact ⟨m, .inl ⟨member, grants.isPledge, rfl⟩, grants⟩
  · by_cases index : m.index = 0
    · exact .inr (.inl index)
    · exact .inr (.inr ⟨m, member, ⟨reject, .inr ⟨type, index⟩⟩, type, rfl, toId, rfl, rfl⟩)

/-- Every event lets each node react, or starts it as a follower. -/
theorem reacts_event {n : Nat} {e : Event} {rn' : RawNode}
    (node' : ((run σ (events ++ [e])).hosts n).node = some rn')
    : rn'.raft.state = .stateFollower
      ∨ ∃ rn, ((run σ events).hosts n).node = some rn
        ∧ rn.raft.core.Reacts (tally σ (events ++ [e]) n) rn'.raft.core := by
  have longer : events <+: events ++ [e] := List.prefix_append events [e]
  have promises := promises_run σ events
  have termed := termed_run σ events
  have still : (run σ (events ++ [e])).hosts n = (run σ events).hosts n
      → rn'.raft.state = .stateFollower
        ∨ ∃ rn, ((run σ events).hosts n).node = some rn
          ∧ rn.raft.core.Reacts (tally σ (events ++ [e]) n) rn'.raft.core :=
    fun host => .inr ⟨rn', host ▸ node', .keeps rfl⟩
  rcases promises.step_cases e with ⟨hosts, _⟩ | ⟨id, out, h', after, proceeds, _⟩
  · exact still (congrFun hosts n)
  · by_cases here : n = id
    · subst here
      have host : (run σ (events ++ [e])).hosts n = h' := by rw [after, after_hosts_self]
      rw [host] at node' still
      cases proceeds with
      | once once =>
          cases once with
          | idle => exact still rfl
          | one moves =>
              exact moves.reacts (promises n) (termed.hosts n)
                (fun m arrived => termed.net m arrived.1)
                (fun named m arrived => (trusts arrived named).grow (tally_grows longer n)) node'
      | advance steps =>
          have cast : ∀ t, (((run σ events).hosts n).storage.hardState.ballot.message n).Grants t n
              → (tally σ (events ++ [e]) n).voted n t :=
            fun t grants => ⟨_, .inr ⟨events, longer, rfl⟩, grants⟩
          obtain ⟨_, _, answers⟩ := (promises n).answers (termed.hosts n) cast steps
          obtain ⟨rn, node, steps⟩ := answers rn' node'
          exact .inr ⟨rn, node, .advances steps⟩
      | advanceFails => cases node'
    · exact still (by rw [after, after_hosts_other _ here])

/-- In every run, hosts count what they have been promised. -/
theorem counted_run (σ : Setup) (events : List Event) (n : Nat) {rn : RawNode}
    (node : ((run σ events).hosts n).node = some rn)
    : rn.raft.core.Counts (tally σ events n) := by
  induction events using List.reverseRecOn generalizing rn with
  | nil => cases node
  | append_singleton events e ih =>
      rcases reacts_event node with follower | ⟨rn₀, node₀, reacts⟩
      · exact .of_follower follower
      · exact reacts.counts ((ih node₀).grow (tally_grows (List.prefix_append events [e]) n))

/-- A leader has the votes of a quorum of the voters with which it has been elected. -/
theorem elected_run {n : Nat} {rn : RawNode}
    (node : ((run σ events).hosts n).node = some rn)
    (leads : rn.raft.state = .stateLeader)
    : ∃ voters, ElectedWith σ events n rn.raft.term voters
      ∧ (tally σ events n).Elects voters rn.raft.term := by
  induction events using List.reverseRecOn generalizing rn with
  | nil => cases node
  | append_singleton events e ih =>
      have longer : events <+: events ++ [e] := List.prefix_append events [e]
      have grows := tally_grows (σ := σ) longer n
      by_cases led : LeadsIn σ events n rn.raft.term
      · obtain ⟨rn₀, node₀, leads₀, same⟩ := led
        obtain ⟨voters, elected, elects⟩ := ih node₀ leads₀
        rw [same] at elected elects
        exact ⟨voters, elected.mono longer, elects.grow grows⟩
      · rcases reacts_event node with follower | ⟨rn₀, node₀, reacts⟩
        · exact absurd (follower.symm.trans leads) nofun
        · rcases reacts.elects ((counted_run σ events n node₀).grow grows) leads with
            ⟨leads₀, same⟩ | elects
          · exact absurd ⟨rn₀, node₀, leads₀, same.symm⟩ led
          · exact ⟨_, ⟨events, e, rn, List.prefix_rfl, led, node, leads, rfl, rfl⟩, elects⟩

-----------------------------------------------------------------------------------------
-- Votes
-----------------------------------------------------------------------------------------

/-- No host votes for two candidates in one term, whatever it goes through: of all the
messages that have ever been sent, those of one host are votes for one candidate in each
term.
-/
theorem vote_unique {m m' : Message} {t a b : Nat} (sent : m ∈ (run σ events).net)
    (sent' : m' ∈ (run σ events).net) (same : m.fromId = m'.fromId)
    (grants : m.Grants t a) (grants' : m'.Grants t b)
    : a = b := by
  have given : Given σ events m.fromId m := .inl ⟨sent, grants.isPledge, rfl⟩
  have given' : Given σ events m.fromId m' := .inl ⟨sent', grants'.isPledge, same.symm⟩
  exact (promises_run σ events m.fromId).once given given' grants grants'

/-- A vote that has been sent is on the disk of the voter for good, and known to its node:
the term is a newer one, or the vote is for that candidate.
-/
theorem vote_durable {m : Message} {t a : Nat} (before : first <+: events)
    (sent : m ∈ (run σ first).net) (grants : m.Grants t a)
    : (t < ((run σ events).hosts m.fromId).storage.hardState.term
        ∨ t = ((run σ events).hosts m.fromId).storage.hardState.term
          ∧ ((run σ events).hosts m.fromId).storage.hardState.vote = a)
      ∧ ∀ rn, ((run σ events).hosts m.fromId).node = some rn
        → t < rn.raft.term ∨ t = rn.raft.term ∧ rn.raft.vote = a := by
  obtain ⟨rest, rfl⟩ := before
  have given : Given σ (first ++ rest) m.fromId m :=
    .inl ⟨(net_run_append first rest).subset sent, grants.isPledge, rfl⟩
  have ok := promises_run σ (first ++ rest) m.fromId
  refine ⟨?_, fun rn node => ?_⟩
  · have honours := ok.honoured m given grants.isPledge
    have term : t ≤ ((run σ (first ++ rest)).hosts m.fromId).storage.hardState.term :=
      grants.term ▸ honours.term
    rcases Nat.lt_or_eq_of_le term with later | now
    · exact .inl later
    · exact .inr ⟨now, (honours.vote grants.type (grants.term.trans now)).trans grants.toId⟩
  · obtain ⟨known, bound⟩ := ok.up rn node
    obtain ⟨term, vote⟩ := bound.core.ballots.past (bound.given m given) grants
    rcases Nat.lt_or_eq_of_le term with later | now
    · exact .inl later
    · exact .inr ⟨now, vote now⟩

-----------------------------------------------------------------------------------------
-- Leaders
-----------------------------------------------------------------------------------------

/-- There are no two leaders of one term, at any two points of a run, as long as the
quorums of the voters with which the two hosts have been elected in it overlap.
-/
theorem leader_unique {i j : Nat} {rn rn' : RawNode} (before : first <+: events)
    (before' : second <+: events) (node : ((run σ first).hosts i).node = some rn)
    (node' : ((run σ second).hosts j).node = some rn')
    (leads : rn.raft.state = .stateLeader)
    (leads' : rn'.raft.state = .stateLeader) (same : rn.raft.term = rn'.raft.term)
    (overlap : ∀ voters voters', ElectedWith σ first i rn.raft.term voters
      → ElectedWith σ second j rn'.raft.term voters' → voters.Overlaps voters')
    : i = j := by
  obtain ⟨voters, elected, votes, won, voted⟩ := elected_run node leads
  obtain ⟨voters', elected', votes', won', voted'⟩ := elected_run node' leads'
  obtain ⟨v, vote, vote'⟩ := overlap voters voters' elected elected' _ _
    (JointConfig.voteResult_eq_voteWon.mp won) (JointConfig.voteResult_eq_voteWon.mp won')
  obtain ⟨m, given, grants⟩ := voted v (beq_iff_eq.mp vote)
  obtain ⟨m', given', grants'⟩ := voted' v (beq_iff_eq.mp vote')
  have grants' : m'.Grants rn.raft.term j := same ▸ grants'
  exact (promises_run σ events v).once (given.mono before) (given'.mono before') grants grants'

end Cluster

-----------------------------------------------------------------------------------------
-- A change of leaders
-----------------------------------------------------------------------------------------

attribute [local instance] Codec.wire

/-- Three voters, whose disks lose what `MustSync` does not ask them to sync. -/
def trio : Setup where
  boot := { confState := { voters := [1, 2, 3] } }
  loss := .mustSync

def trioConfig : Config where
  id := 1
  electionTick := 10
  heartbeatTick := 1
  storage := {}
  maxSizePerMsg := 1000
  maxInflightMsgs := 256

/-- The host takes a `Ready`, stores and applies what is in it, and calls `Advance`. -/
def hostReady (id : Nat) : List Event :=
  [.host id .ready, .host id .persist, .host id .apply, .host id .apply, .host id .advance]

/-- Host 1 asks for votes in term 1. The vote of host 2 is asked for and given twice, and
makes host 1 the leader. Host 2 acknowledges the first entry.
-/
def firstReign : List Event :=
  List.flatten [
    [.host 1 (.start trioConfig), .host 2 (.start trioConfig), .host 3 (.start trioConfig)],
    [.host 1 .campaign], hostReady 1, [.deliver 0, .deliver 0], hostReady 2,
    [.deliver 2], hostReady 1, [.deliver 4], hostReady 2]

/-- The acknowledgement lets host 1 commit the entry. Host 2 hears of it, and writes the
new commit index without a sync.
-/
def commitTold : List Event :=
  (firstReign ++ [.deliver 6]) ++ List.flatten [hostReady 1, [.deliver 7], hostReady 2]

/-- Host 2 crashes, loses the commit index, and starts again. -/
def commitLost : List Event :=
  commitTold ++ [.host 2 (.crash 1), .host 2 (.start trioConfig)]

/-- Host 1 crashes, and host 2 leads in term 2 with the vote of host 3. -/
def secondReign : List Event :=
  List.flatten [
    [.host 1 (.crash 0), .host 2 .campaign], hostReady 2, [.deliver 10], hostReady 3, [.deliver 11]]

def failover : List Event := commitLost ++ secondReign

theorem firstReign_commitLost : firstReign ++ [.deliver 6] <+: commitLost :=
  (List.prefix_append _ _).trans (List.prefix_append _ _)

theorem firstReign_failover : firstReign ++ [.deliver 6] <+: failover :=
  firstReign_commitLost.trans (List.prefix_append _ _)

/-- The voters of all three hosts, throughout. -/
def trioVoters : JointConfig := { incoming := ((IdMap.empty.insert 1 ()).insert 2 ()).insert 3 () }

theorem trioVoters_overlaps : trioVoters.Overlaps trioVoters :=
  fun _ _ agrees agrees' => MajorityConfig.common (by decide) agrees.1 agrees'.1

theorem voters_failover {n : Nat} {before : List Event} {rn : RawNode}
    (host : n = 1 ∨ n = 2) (inside : before <+: failover)
    (node : ((Cluster.run trio before).hosts n).node = some rn)
    : rn.raft.trk.config.voters = trioVoters := by
  have all : ∀ k < failover.length + 1, ∀ n ∈ [1, 2], ((Cluster.run trio (failover.take k)).hosts
      n).node.all (fun rn => rn.raft.trk.config.voters == trioVoters) = true := by
    decide +kernel
  have short := Nat.lt_succ_of_le inside.length_le
  have same := all before.length short n (by simpa using host)
  rw [← List.prefix_iff_eq_take.mp inside, node] at same
  exact beq_iff_eq.mp same

theorem electedWith_failover {n t : Nat} {events : List Event} {voters : JointConfig}
    (host : n = 1 ∨ n = 2) (inside : events <+: failover)
    (elected : Cluster.ElectedWith trio events n t voters)
    : voters = trioVoters := by
  obtain ⟨before, e, rn, early, _, node, _, _, rfl⟩ := elected
  exact voters_failover host (early.trans inside) node

/-- Host 2 sends two votes in term 1, both to the same candidate. -/
theorem vote_unique_failover
    : ∃ m m', m ∈ (Cluster.run trio failover).net ∧ m' ∈ (Cluster.run trio failover).net
      ∧ m.fromId = 2 ∧ m'.fromId = 2 ∧ m.Grants 1 m.toId ∧ m'.Grants 1 m'.toId
      ∧ m.toId = m'.toId := by
  have known : ∀ k ∈ [2, 3], ((Cluster.run trio failover).net)[k]?.map (fun m =>
      (m.type, m.reject, m.term, m.toId, m.fromId)) = some (.msgVoteResp, false, 1, 1, 2) := by
    decide +kernel
  obtain ⟨m, found, same⟩ := Option.map_eq_some_iff.mp (known 2 (by decide))
  obtain ⟨m', found', same'⟩ := Option.map_eq_some_iff.mp (known 3 (by decide))
  simp only [Prod.mk.injEq] at same same'
  obtain ⟨type, reject, term, toId, fromId⟩ := same
  obtain ⟨type', reject', term', toId', fromId'⟩ := same'
  have grants : m.Grants 1 m.toId := ⟨type, reject, term, rfl, by rw [toId]; decide⟩
  have grants' : m'.Grants 1 m'.toId :=
    ⟨type', reject', term', rfl, by rw [toId']; decide⟩
  have sent := List.mem_of_getElem? found
  have sent' := List.mem_of_getElem? found'
  exact ⟨m, m', sent, sent', fromId, fromId', grants, grants',
    Cluster.vote_unique sent sent' (fromId.trans fromId'.symm) grants grants'⟩

/-- Host 2 has its vote in term 1 after the crash that makes it lose a commit index, on
its disk and in the node that starts from it.
-/
theorem vote_durable_failover
    : ∃ m ∈ (Cluster.run trio firstReign).net, m.fromId = 2 ∧ m.Grants 1 1
      ∧ ((Cluster.run trio commitLost).hosts 2).storage.hardState.vote = 1
      ∧ ∃ rn, ((Cluster.run trio commitLost).hosts 2).node = some rn ∧ rn.raft.vote = 1 := by
  have known : ((Cluster.run trio firstReign).net)[2]?.map (fun m =>
      (m.type, m.reject, m.term, m.toId, m.fromId)) = some (.msgVoteResp, false, 1, 1, 2) := by
    decide +kernel
  have disk : ((Cluster.run trio commitLost).hosts 2).storage.hardState.term = 1 := by
    decide +kernel
  have up : ((Cluster.run trio commitLost).hosts 2).node.map (fun rn => rn.raft.term)
      = some 1 := by
    decide +kernel
  obtain ⟨m, found, same⟩ := Option.map_eq_some_iff.mp known
  obtain ⟨rn, node, term⟩ := Option.map_eq_some_iff.mp up
  simp only [Prod.mk.injEq] at same
  have grants : m.Grants 1 1 := ⟨same.1, same.2.1, same.2.2.1, same.2.2.2.1, by decide⟩
  have fromId : m.fromId = 2 := same.2.2.2.2
  have sent := List.mem_of_getElem? found
  obtain ⟨stored, held⟩ := Cluster.vote_durable
    ((List.prefix_append _ _).trans firstReign_commitLost) sent grants
  rw [fromId] at stored held
  refine ⟨m, sent, fromId, grants, ?_, rn, node, ?_⟩
  · exact (stored.resolve_left (by rw [disk]; decide)).2
  · exact ((held rn node).resolve_left (by rw [term]; decide)).2

/-- Host 1 leads as soon as it has the vote of host 2, and still leads later on. -/
theorem leader_unique_failover
    : ∃ i j rn rn', ((Cluster.run trio (failover.take 17)).hosts i).node = some rn
      ∧ ((Cluster.run trio firstReign).hosts j).node = some rn' ∧ rn.raft.state = .stateLeader
      ∧ rn'.raft.state = .stateLeader ∧ rn.raft.term = rn'.raft.term ∧ i = j := by
  have known : ((Cluster.run trio (failover.take 17)).hosts 1).node.map
      (fun rn => (rn.raft.state, rn.raft.term)) = some (.stateLeader, 1) := by
    decide +kernel
  have known' : ((Cluster.run trio firstReign).hosts 1).node.map
      (fun rn => (rn.raft.state, rn.raft.term)) = some (.stateLeader, 1) := by
    decide +kernel
  obtain ⟨rn, node, same⟩ := Option.map_eq_some_iff.mp known
  obtain ⟨rn', node', same'⟩ := Option.map_eq_some_iff.mp known'
  simp only [Prod.mk.injEq] at same same'
  have before : failover.take 17 <+: failover := List.take_prefix _ _
  have first : firstReign <+: failover :=
    (List.prefix_append _ _).trans firstReign_failover
  have term := same.2.trans same'.2.symm
  refine ⟨1, 1, rn, rn', node, node', same.1, same'.1, term,
    Cluster.leader_unique before first node node' same.1 same'.1 term ?_⟩
  intro voters voters' elected elected'
  rw [electedWith_failover (.inl rfl) before elected,
    electedWith_failover (.inl rfl) first elected']
  exact trioVoters_overlaps

end EtcdRaft
