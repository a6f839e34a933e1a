import EtcdRaft.Reads.Parked
import EtcdRaft.Runs.Elections

/-! What a leader commits has been acknowledged by a quorum, and the order in which hosts
make their promises: an acknowledgement does not follow a vote in a newer term.
-/

namespace EtcdRaft

-----------------------------------------------------------------------------------------
-- Commit indexes
-----------------------------------------------------------------------------------------

/-- The index that a quorum has acknowledged, without a bound on indexes. -/
theorem MajorityConfig.agrees_of_le_committedIndex {c : MajorityConfig} {l : AckedIndexer}
    {i : Nat} (positive : 1 ≤ i) (reached : i ≤ c.committedIndex l)
    : c.Agrees (l.acks i) := by
  intro nonempty
  have most := (c.le_committedIndex l positive nonempty).mp reached
  omega

theorem JointConfig.agrees_of_le_committedIndex {c : JointConfig} {l : AckedIndexer}
    {i : Nat} (positive : 1 ≤ i) (reached : i ≤ c.committedIndex l)
    : c.Agrees (l.acks i) := by
  have both : i ≤ c.incoming.committedIndex l ∧ i ≤ c.outgoingSet.committedIndex l := by
    unfold JointConfig.committedIndex at reached
    dsimp only at reached
    split at reached <;> omega
  exact ⟨MajorityConfig.agrees_of_le_committedIndex positive both.1,
    MajorityConfig.agrees_of_le_committedIndex positive both.2⟩

/-- A quorum of the voters, apart from the host `id` itself, has acknowledged its log up
to the index `k` in the term `t`.
-/
def Tally.Backs (tally : Tally) (voters : JointConfig) (id t k : Nat) : Prop :=
  ∃ p, voters.Agrees p ∧ ∀ v, p v = true → v = id ∨ ∃ index, k ≤ index ∧ tally.acked v t index

/-- The node goes from `c` to `c'` in one configuration; what is committed on the way is
backed by a quorum of it.
-/
structure Core.Commits (tally : Tally) (c c' : Core) : Prop where
  id : c'.id = c.id
  config : c'.config = c.config
  term : c.term ≤ c'.term
  committed : c'.raftLog.committed = c.raftLog.committed
    ∨ ∃ t, c.term ≤ t ∧ t ≤ c'.term
      ∧ tally.Backs c.config.voters c.id t c'.raftLog.committed

theorem Core.Commits.of_same {tally : Tally} {c c' : Core} (id : c'.id = c.id)
    (config : c'.config = c.config) (term : c'.term = c.term)
    (committed : c'.raftLog.committed = c.raftLog.committed)
    : c.Commits tally c' :=
  ⟨id, config, term.ge, .inl committed⟩

theorem Core.Commits.trans {tally : Tally} {c₁ c₂ c₃ : Core} (first : c₁.Commits tally c₂)
    (second : c₂.Commits tally c₃)
    : c₁.Commits tally c₃ where
  id := second.id.trans first.id
  config := second.config.trans first.config
  term := first.term.trans second.term
  committed := by
    rcases second.committed with same | ⟨t, after, before, backs⟩
    · rw [same]
      refine first.committed.imp_right ?_
      rintro ⟨t, after, before, backs⟩
      exact ⟨t, after, before.trans second.term, backs⟩
    · rw [first.id, first.config] at backs
      exact .inr ⟨t, first.term.trans after, before, backs⟩

section

variable [Codec] {tally : Tally} {now : Nat} {m : Message} {c c' : Core}

omit [Codec] in
/-- A leader commits what the progress of a quorum says. -/
theorem Core.Counts.backs (ok : c.Counts tally) (leads : c.state = .stateLeader) {k : Nat}
    (positive : 1 ≤ k) (reached : k ≤ c.committedIndex)
    : tally.Backs c.config.voters c.id c.term k := by
  refine ⟨_, JointConfig.agrees_of_le_committedIndex positive reached, ?_⟩
  intro v acks
  cases tracked : c.progress v with
  | none => simp [AckedIndexer.acks, tracked] at acks
  | some pr =>
      have enough : k ≤ pr.1 := by simpa [AckedIndexer.acks, tracked] using acks
      rcases ok.acks leads v pr.1 pr.2 tracked with self | zero | acked
      · exact .inl self
      · omega
      · exact .inr ⟨pr.1, enough, acked⟩

theorem Act.commits (act : Act now m c c') (ok : c.Counts tally)
    (silent : m.type.tells = false)
    : c.Commits tally c' := by
  have told : ∀ {type : MessageType}, m.type = type → type.tells = true → c.Commits tally c' := by
    rintro type same tells
    rw [same, tells] at silent
    cases silent
  have term : c.term ≤ c'.term := act.advances.term
  have id := act.id
  have config : c'.config = c.config := by
    refine act.config fun snap => ?_
    rw [snap] at silent
    cases silent
  cases act with
  | commit leads raftLog commits source =>
      obtain ⟨newer, _, same⟩ := RaftLog.maybeCommit_true commits
      have newer : c.raftLog.committed < c.committedIndex := newer
      refine ⟨id, config, term, .inr ⟨c.term, Nat.le_refl _, Nat.le_refl _, ?_⟩⟩
      rw [same]
      exact ok.backs leads (Nat.zero_lt_of_lt newer) (Nat.le_refl c.committedIndex)
  | accept type => exact told type rfl
  | heartbeat type => exact told type rfl
  | fastForward type => exact told type rfl
  | restore type => exact told type rfl
  | stored type current _ raftLog stores =>
      exact ⟨id, config, term, .inl (RaftLog.stored_ok stores).committed⟩
  | applied type e last size raftLog applies =>
      exact ⟨id, config, term, .inl (appliedTo_ok applies).2.2.2.2.1⟩
  | _ => exact ⟨id, config, term, .inl rfl⟩

theorem Acts.commits (acts : Acts now m c c') (ok : c.Counts tally)
    (hears : tally.Hears m c) (silent : m.type.tells = false)
    : c.Commits tally c' := by
  induction acts with
  | refl => exact .of_same rfl rfl rfl rfl
  | tail before act ih =>
      obtain ⟨ok, hears, _⟩ := Acts.counts before ok hears
      exact ih.trans (act.commits ok silent)

omit [Codec] in
theorem RaftLog.append_committed {l l' : RaftLog} {es : List Entry}
    (appends : l.append es = .ok l')
    : l'.committed = l.committed := by
  rcases RaftLog.append_ok appends with ⟨_, rfl⟩ | ⟨_, _, _, _, _, _, rfl⟩ <;> rfl

theorem Steps.commits (steps : Steps now m c c') (ok : c.Counts tally)
    (hears : tally.Hears m c) (silent : m.type.tells = false)
    : c.Commits tally c' := by
  obtain ⟨c₁, acts, rfl | ⟨c₂, appends, new, rfl, sends⟩⟩ := steps
  · exact Acts.commits acts ok hears silent
  · obtain ⟨leads, es, nonempty, index, proposal, source, raftLog, appends⟩ := appends
    exact (Acts.commits acts ok hears silent).trans
      (.of_same rfl rfl rfl (RaftLog.append_committed appends))

/-- A message that tells a follower what is committed makes no leader, and a leader does
not heed it.
-/
theorem Act.deaf (act : Act now m c c') (tells : m.type.tells = true)
    (leads : c'.state = .stateLeader)
    : c.state = .stateLeader ∧ c'.raftLog.committed = c.raftLog.committed := by
  have other : ∀ {type : MessageType}, m.type = type → type.tells = false → False := by
    rintro type same silent
    rw [same, silent] at tells
    cases tells
  cases act with
  | becomeFollower => cases leads
  | becomePreCandidate => cases leads
  | becomeCandidate => cases leads
  | win _ _ type => exact (other type rfl).elim
  | commit _ _ _ source => rcases source with type | type <;> exact (other type rfl).elim
  | accept _ follower => exact absurd (follower.symm.trans leads) nofun
  | heartbeat _ follower => exact absurd (follower.symm.trans leads) nofun
  | fastForward _ follower => exact absurd (follower.symm.trans leads) nofun
  | restore _ follower => exact absurd (follower.symm.trans leads) nofun
  | stored type => exact (other type rfl).elim
  | applied type => exact (other type rfl).elim
  | _ => exact ⟨leads, rfl⟩

theorem Acts.deaf (acts : Acts now m c c') (tells : m.type.tells = true)
    (leads : c'.state = .stateLeader)
    : c.state = .stateLeader ∧ c'.raftLog.committed = c.raftLog.committed := by
  induction acts with
  | refl => exact ⟨leads, rfl⟩
  | tail _ act ih =>
      obtain ⟨leads, same⟩ := act.deaf tells leads
      obtain ⟨first, same'⟩ := ih leads
      exact ⟨first, same.trans same'⟩

theorem Steps.deaf (steps : Steps now m c c') (tells : m.type.tells = true)
    (leads : c'.state = .stateLeader)
    : c'.raftLog.committed = c.raftLog.committed := by
  obtain ⟨c₁, acts, rfl | ⟨c₂, appends, new, rfl, sends⟩⟩ := steps
  · exact (Acts.deaf acts tells leads).2
  · obtain ⟨leads, es, nonempty, index, proposal, source, raftLog, appends⟩ := appends
    exact (RaftLog.append_committed appends).trans (Acts.deaf acts tells leads).2

end

-----------------------------------------------------------------------------------------
-- Hosts
-----------------------------------------------------------------------------------------

/-- The leader goes on from `c` to `c'`; what it commits on the way is backed by a quorum
of the configuration of `c'`.
-/
def Core.Leads (tally : Tally) (c c' : Core) : Prop :=
  c'.state = .stateLeader → c'.term = c.term → c'.raftLog.committed = c.raftLog.committed
    ∨ tally.Backs c'.config.voters c.id c.term c'.raftLog.committed

theorem Core.Commits.leads {tally : Tally} {c c' : Core} (commits : c.Commits tally c')
    : c.Leads tally c' := by
  intro _ same
  refine commits.committed.imp_right ?_
  rintro ⟨t, after, before, backs⟩
  obtain rfl : t = c.term := by omega
  rw [commits.config]
  exact backs

section

variable [Codec] {tally : Tally} {c c' : Core}

theorem Tally.commits_answers (steps : Relation.ReflTransGen tally.Answers c c')
    (ok : c.Counts tally)
    : c.Commits tally c' := by
  induction steps with
  | refl => exact .of_same rfl rfl rfl rfl
  | tail before answers ih =>
      obtain ⟨now, m, silent, hears, steps⟩ := answers
      exact ih.trans (Steps.commits steps (Tally.counts_answers before ok).1 hears silent)

/-- Every event lets a leader commit what a quorum has acknowledged. -/
theorem Core.Reacts.leads (reacts : c.Reacts tally c') (ok : c.Counts tally)
    : c.Leads tally c' := by
  cases reacts with
  | @handles now m _ hears steps =>
      cases tells : m.type.tells with
      | false => exact (Steps.commits steps ok hears tells).leads
      | true => exact fun leads _ => .inl (Steps.deaf steps tells leads)
  | advances steps => exact (Tally.commits_answers steps ok).leads
  | applies known acts =>
      exact (Acts.commits acts (ok.changed known) (.of_type nofun nofun) rfl).leads
  | keeps same => exact fun _ _ => .inl same

end

-----------------------------------------------------------------------------------------
-- Runs
-----------------------------------------------------------------------------------------

namespace Cluster

variable [Codec] {σ : Setup} {events first second : List Event}

/-- What an event lets a leader commit is backed by a quorum of its configuration. -/
theorem backs_commit {n : Nat} {e : Event} {rn rn' : RawNode}
    (node : ((run σ events).hosts n).node = some rn)
    (node' : ((run σ (events ++ [e])).hosts n).node = some rn')
    (leads : rn'.raft.state = .stateLeader) (same : rn'.raft.term = rn.raft.term)
    (moved : rn'.raft.raftLog.committed ≠ rn.raft.raftLog.committed)
    : (tally σ (events ++ [e]) n).Backs rn'.raft.trk.config.voters n rn.raft.term
        rn'.raft.raftLog.committed := by
  have counts := (counted_run σ events n node).grow
    (tally_grows (List.prefix_append events [e]) n)
  obtain ⟨_, okNode⟩ := (promises_run σ events n).up rn node
  have self : rn.raft.core.id = n := okNode.self
  rcases reacts_event node' with follower | ⟨rn₀, node₀, reacts⟩
  · exact absurd (follower.symm.trans leads) nofun
  · obtain rfl : rn = rn₀ := Option.some.inj (node.symm.trans node₀)
    have backs := (reacts.leads counts leads same).resolve_left moved
    rw [self] at backs
    exact backs

/-- The ballot on the disk of a host only moves on. -/
theorem ballot_follows (before : first <+: events) (n : Nat)
    : ((run σ first).hosts n).storage.hardState.ballot.Follows
        ((run σ events).hosts n).storage.hardState.ballot := by
  obtain ⟨rest, rfl⟩ := before
  induction rest using List.reverseRecOn with
  | nil =>
      rw [List.append_nil]
      exact .refl _
  | append_singleton rest e ih =>
      rw [← List.append_assoc]
      refine ih.trans ?_
      rcases (promises_run σ (first ++ rest)).step_cases e with
        ⟨hosts, _⟩ | ⟨id, out, h', after, _, upholds⟩
      · rw [hosts]
        exact .refl _
      · rw [after]
        by_cases here : n = id
        · rw [here, after_hosts_self]
          exact upholds.follows
        · rw [after_hosts_other _ here]
          exact .refl _

/-- A promise that has not been sent yet will not be older than what is on the disk now.
-/
theorem promise_order {m : Message} (before : first <+: events)
    (sent : m ∈ (run σ events).net) (pledge : m.IsPledge) (new : m ∉ (run σ first).net)
    : ((run σ first).hosts m.fromId).storage.hardState.term ≤ m.term := by
  obtain ⟨rest, rfl⟩ := before
  induction rest using List.reverseRecOn with
  | nil =>
      rw [List.append_nil] at sent
      exact absurd sent new
  | append_singleton rest e ih =>
      by_cases earlier : m ∈ (run σ (first ++ rest)).net
      · exact ih earlier
      · rw [← List.append_assoc] at sent
        rcases (promises_run σ (first ++ rest)).step_cases e with
          ⟨_, net⟩ | ⟨id, out, h', after, _, upholds⟩
        · exact absurd (net ▸ sent) earlier
        · rw [after] at sent
          rcases List.mem_append.mp sent with old | fresh
          · exact absurd old earlier
          · obtain ⟨fromId, later⟩ := upholds.sent m fresh pledge
            rw [fromId]
            exact (ballot_follows (List.prefix_append first rest) id).term.trans later

/-- What is on the disk of a host never goes back, in spite of crashes that lose the last
commit indexes: its term does not decrease, and a vote cast in a term stays.
-/
theorem hardState_durable (before : first <+: events) (n : Nat)
    : ((run σ first).hosts n).storage.hardState.term
        ≤ ((run σ events).hosts n).storage.hardState.term
      ∧ (((run σ events).hosts n).storage.hardState.term
          = ((run σ first).hosts n).storage.hardState.term
        → ((run σ first).hosts n).storage.hardState.vote ≠ none64
        → ((run σ events).hosts n).storage.hardState.vote
          = ((run σ first).hosts n).storage.hardState.vote) := by
  have follows := ballot_follows (σ := σ) before n
  exact ⟨follows.term, fun same cast => (follows.vote same).resolve_right cast⟩

/-- What a leader commits has been acknowledged: when an event moves the commit index of a
leader, a quorum of the configuration it has then, apart from itself, has sent it
acknowledgements in its term that reach the new commit index.
-/
theorem commit_acknowledged {n : Nat} {e : Event} {rn rn' : RawNode}
    (node : ((run σ events).hosts n).node = some rn)
    (node' : ((run σ (events ++ [e])).hosts n).node = some rn')
    (leads : rn'.raft.state = .stateLeader) (same : rn'.raft.term = rn.raft.term)
    (moved : rn'.raft.raftLog.committed ≠ rn.raft.raftLog.committed)
    : ∃ p, rn'.raft.trk.config.voters.Agrees p
      ∧ ∀ v, p v = true → v = n ∨ ∃ m ∈ (run σ (events ++ [e])).net, m.type = .msgAppResp
        ∧ m.reject = false ∧ m.fromId = v ∧ m.toId = n ∧ m.term = rn.raft.term
        ∧ rn'.raft.raftLog.committed ≤ m.index := by
  obtain ⟨p, agrees, acked⟩ := backs_commit node node' leads same moved
  refine ⟨p, agrees, fun v member => (acked v member).imp_right ?_⟩
  rintro ⟨index, enough, m, member, pledge, type, fromId, toId, term, rfl⟩
  exact ⟨m, member, type, pledge.1, fromId, toId, term, enough⟩

/-- A later leader is elected with the vote of a host that knew what an earlier leader has
committed: if the host `n` moves its commit index as the leader of a term, and the host
`j` leads in a newer term, then one of the voters of `j` is `n` itself, after the
commitment, or has sent its acknowledgement before its disk reached the newer term.
Quorums of the configuration of `n` at the commitment have to overlap with those of the
voters with which `j` has been elected.
-/
theorem commit_precedes_vote {n j : Nat} {e : Event} {rn rn' leader : RawNode}
    {all : List Event} (before : events ++ [e] <+: all) (before' : second <+: all)
    (node : ((run σ events).hosts n).node = some rn)
    (node' : ((run σ (events ++ [e])).hosts n).node = some rn')
    (leads : rn'.raft.state = .stateLeader) (same : rn'.raft.term = rn.raft.term)
    (moved : rn'.raft.raftLog.committed ≠ rn.raft.raftLog.committed)
    (elected : ((run σ second).hosts j).node = some leader)
    (leads' : leader.raft.state = .stateLeader) (newer : rn.raft.term < leader.raft.term)
    (overlap : ∀ voters, ElectedWith σ second j leader.raft.term voters
      → rn'.raft.trk.config.voters.Overlaps voters)
    : ∃ v, (∃ m, Given σ second v m ∧ m.Grants leader.raft.term j)
      ∧ ∀ first, first <+: all
        → leader.raft.term ≤ ((run σ first).hosts v).storage.hardState.term
        → (v = n ∧ events ++ [e] <+: first)
          ∨ ∃ m ∈ (run σ first).net, m.type = .msgAppResp ∧ m.reject = false ∧ m.fromId = v
            ∧ m.toId = n ∧ m.term = rn.raft.term ∧ rn'.raft.raftLog.committed ≤ m.index := by
  obtain ⟨p, agrees, acked⟩ := backs_commit node node' leads same moved
  obtain ⟨voters, elects, votes, won, voted⟩ := elected_run elected leads'
  obtain ⟨v, member, vote⟩ := overlap voters elects _ _ agrees
    (JointConfig.voteResult_eq_voteWon.mp won)
  refine ⟨v, voted v (beq_iff_eq.mp vote), fun first inside reached => ?_⟩
  rcases acked v member with rfl | ⟨index, enough, m, sent, pledge, type, fromId, toId, term, rfl⟩
  · -- before the commitment the term of the host itself is an older one
    refine .inl ⟨rfl, ?_⟩
    rcases List.prefix_or_prefix_of_prefix before inside with after | early
    · exact after
    · rcases prefix_snoc early with early | rfl
      · have current := ((promises_run σ events v).follows node).term
        have older := (ballot_follows (σ := σ) early v).term
        have reached : leader.raft.term
            ≤ ((run σ first).hosts v).storage.hardState.ballot.term := reached
        have current : ((run σ events).hosts v).storage.hardState.ballot.term
            ≤ rn.raft.term := current
        omega
      · exact List.prefix_rfl
  · refine .inr ⟨m, ?_, type, pledge.1, fromId, toId, term, enough⟩
    by_contra missing
    obtain ⟨rest, rfl⟩ := before
    have order :=
      promise_order inside ((net_run_append _ rest).subset sent) pledge missing
    rw [fromId] at order
    omega

end Cluster

-----------------------------------------------------------------------------------------
-- A change of leaders
-----------------------------------------------------------------------------------------

attribute [local instance] Codec.wire

/-- The crash takes the commit index of host 2 back, but neither its term nor its vote. -/
theorem hardState_durable_failover
    : ((Cluster.run trio commitLost).hosts 2).storage.hardState.commit
        < ((Cluster.run trio commitTold).hosts 2).storage.hardState.commit
      ∧ ((Cluster.run trio commitTold).hosts 2).storage.hardState.term
        ≤ ((Cluster.run trio commitLost).hosts 2).storage.hardState.term
      ∧ ((Cluster.run trio commitLost).hosts 2).storage.hardState.vote
        = ((Cluster.run trio commitTold).hosts 2).storage.hardState.vote := by
  have told : ((Cluster.run trio commitTold).hosts 2).storage.hardState = ⟨1, 1, 1⟩ := by
    decide +kernel
  have lost : ((Cluster.run trio commitLost).hosts 2).storage.hardState = ⟨1, 1, 0⟩ := by
    decide +kernel
  have before : commitTold <+: commitLost := List.prefix_append _ _
  obtain ⟨term, vote⟩ := Cluster.hardState_durable (σ := trio) before 2
  refine ⟨by rw [told, lost]; decide, term, vote ?_ ?_⟩
  · rw [told, lost]
  · rw [told]
    decide

/-- The acknowledgement of host 2 reaches host 1, the leader. -/
theorem firstReign_commits
    : ∃ rn rn', ((Cluster.run trio firstReign).hosts 1).node = some rn
      ∧ ((Cluster.run trio (firstReign ++ [.deliver 6])).hosts 1).node = some rn'
      ∧ rn'.raft.state = .stateLeader ∧ rn.raft.term = 1 ∧ rn'.raft.term = 1
      ∧ rn.raft.raftLog.committed = 0 ∧ rn'.raft.raftLog.committed = 1 := by
  have known : ((Cluster.run trio firstReign).hosts 1).node.map
      (fun rn => (rn.raft.term, rn.raft.raftLog.committed)) = some (1, 0) := by
    decide +kernel
  have known' : ((Cluster.run trio (firstReign ++ [.deliver 6])).hosts 1).node.map
      (fun rn => (rn.raft.state, rn.raft.term, rn.raft.raftLog.committed))
      = some (.stateLeader, 1, 1) := by
    decide +kernel
  obtain ⟨rn, node, same⟩ := Option.map_eq_some_iff.mp known
  obtain ⟨rn', node', same'⟩ := Option.map_eq_some_iff.mp known'
  simp only [Prod.mk.injEq] at same same'
  exact ⟨rn, rn', node, node', same'.1, same.1, same'.2.1, same.2, same'.2.2⟩

/-- Host 1 commits its first entry. -/
theorem commit_acknowledged_failover
    : ∃ rn', ((Cluster.run trio (firstReign ++ [.deliver 6])).hosts 1).node = some rn'
      ∧ rn'.raft.raftLog.committed = 1 ∧ ∃ p, rn'.raft.trk.config.voters.Agrees p
        ∧ ∀ v, p v = true → v = 1
          ∨ ∃ m ∈ (Cluster.run trio (firstReign ++ [.deliver 6])).net, m.type = .msgAppResp
            ∧ m.reject = false ∧ m.fromId = v ∧ m.toId = 1 ∧ m.term = 1
            ∧ rn'.raft.raftLog.committed ≤ m.index := by
  obtain ⟨rn, rn', node, node', leads, term, term', committed, committed'⟩ :=
    firstReign_commits
  refine ⟨rn', node', committed', ?_⟩
  have acknowledged := Cluster.commit_acknowledged node node' leads (term'.trans term.symm)
    (by rw [committed, committed']; decide)
  rw [term] at acknowledged
  exact acknowledged

/-- Host 2 leads in term 2 after it has acknowledged what host 1 has committed. -/
theorem commit_precedes_vote_failover
    : ∃ rn' leader, ((Cluster.run trio (firstReign ++ [.deliver 6])).hosts 1).node = some rn'
      ∧ ((Cluster.run trio failover).hosts 2).node = some leader
      ∧ leader.raft.state = .stateLeader ∧ leader.raft.term = 2
      ∧ ∃ v, (∃ m, Cluster.Given trio failover v m ∧ m.Grants 2 2)
        ∧ ∀ first, first <+: failover
          → 2 ≤ ((Cluster.run trio first).hosts v).storage.hardState.term
          → (v = 1 ∧ firstReign ++ [.deliver 6] <+: first)
            ∨ ∃ m ∈ (Cluster.run trio first).net, m.type = .msgAppResp ∧ m.reject = false
              ∧ m.fromId = v ∧ m.toId = 1 ∧ m.term = 1 ∧ rn'.raft.raftLog.committed ≤ m.index := by
  obtain ⟨rn, rn', node, node', leads, term, term', committed, committed'⟩ :=
    firstReign_commits
  have known : ((Cluster.run trio failover).hosts 2).node.map
      (fun rn => (rn.raft.state, rn.raft.term)) = some (.stateLeader, 2) := by
    decide +kernel
  obtain ⟨leader, elected, same⟩ := Option.map_eq_some_iff.mp known
  simp only [Prod.mk.injEq] at same
  refine ⟨rn', leader, node', elected, same.1, same.2, ?_⟩
  have precedes := Cluster.commit_precedes_vote firstReign_failover List.prefix_rfl node node' leads
    (term'.trans term.symm) (by rw [committed, committed']; decide) elected same.1
    (by rw [term, same.2]; decide) (by
      intro voters elects
      rw [voters_failover (.inl rfl) firstReign_failover node',
        electedWith_failover (.inr rfl) List.prefix_rfl elects]
      exact trioVoters_overlaps)
  rw [term, same.2] at precedes
  exact precedes

end EtcdRaft
