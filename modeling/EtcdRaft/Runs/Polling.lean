import EtcdRaft.Runs.Terms

/-! What a node does in a pre-campaign: whose grants it counts, and how it can end. -/

namespace EtcdRaft

/-- A pre-vote that was granted. -/
def Message.IsGrant (m : Message) : Prop := m.type = .msgPreVoteResp ∧ m.reject = false

-----------------------------------------------------------------------------------------
-- Counting
-----------------------------------------------------------------------------------------

/-- Nothing that a pre-campaign depends on differs. -/
structure Core.SameCampaign (c c' : Core) : Prop where
  state : c'.state = c.state
  term : c'.term = c.term
  votes : c'.votes = c.votes
  config : c'.config = c.config
  preVote : c'.preVote = c.preVote

variable [Codec] {now : Nat} {m : Message} {c c' : Core}

/-- What a small action does to a campaign. -/
inductive Campaigned (m : Message) (c c' : Core) : Prop where
  | keep (same : c.SameCampaign c')
  | follower (state : c'.state = .stateFollower) (newer : c.term ≤ c'.term)
      (later : m.type = .msgTimeoutNow → c.term < c'.term)
      (preVote : c'.preVote = c.preVote)
  | preCandidate (type : m.type = .msgHup) (enabled : c'.preVote = true)
      (state : c'.state = .statePreCandidate) (term : c'.term = c.term)
      (votes : c'.votes = .empty) (preVote : c'.preVote = c.preVote)
  | candidate (may : m.Campaigns c) (state : c'.state = .stateCandidate)
      (term : c'.term = c.term + 1) (preVote : c'.preVote = c.preVote)
  | counted (type : m.type = .msgPreVoteResp) (state : c.state = .statePreCandidate)
      (reached : m.term = 0 ∨ c.term ≤ m.term)
      (recorded : ∀ id, c'.votes.get? id = some true
        → c.votes.get? id = some true ∨ (id = m.fromId ∧ m.reject = false))
      (same : { c with votes := c'.votes }.SameCampaign c')
  | elected (was : c.state = .stateCandidate)
      (state : c'.state = .stateCandidate ∨ c'.state = .stateLeader)
      (term : c'.term = c.term) (preVote : c'.preVote = c.preVote)

theorem Act.campaigned (act : Act now m c c') : Campaigned m c c' := by
  cases act with
  | becomeFollower term newer later => exact .follower rfl newer later rfl
  | becomePreCandidate type enabled notLeader may =>
      exact .preCandidate type enabled rfl rfl rfl rfl
  | becomeCandidate notLeader may => exact .candidate may rfl rfl rfl
  | poll type candidate term votes recorded =>
      exact .elected candidate (.inl candidate) rfl rfl
  | pollPre type preCandidate term votes recorded =>
      exact .counted type preCandidate term recorded ⟨rfl, rfl, rfl, rfl, rfl⟩
  | win candidate won => exact .elected candidate (.inr rfl) rfl rfl
  | restore type follower term newer lacks chg blank cfg progress config same =>
      exact .follower follower (Nat.le_refl _) (by rw [type]; nofun) rfl
  | _ => exact .keep ⟨rfl, rfl, rfl, rfl, rfl⟩

theorem Campaigned.preVote (campaigned : Campaigned m c c') : c'.preVote = c.preVote := by
  cases campaigned with
  | keep same => exact same.preVote
  | counted _ _ _ _ same => exact same.preVote
  | follower _ _ _ preVote => exact preVote
  | preCandidate _ _ _ _ _ preVote => exact preVote
  | candidate _ _ _ preVote => exact preVote
  | elected _ _ _ preVote => exact preVote

theorem Campaigned.later (campaigned : Campaigned m c c') : c.term ≤ c'.term := by
  cases campaigned with
  | keep same => exact Nat.le_of_eq same.term.symm
  | counted _ _ _ _ same => exact Nat.le_of_eq same.term.symm
  | follower _ newer _ _ => exact newer
  | preCandidate _ _ _ term _ _ => exact Nat.le_of_eq term.symm
  | candidate _ _ term _ => omega
  | elected _ _ term _ => exact Nat.le_of_eq term.symm

/-- A whole step is a sequence of small actions as far as campaigns are concerned. -/
theorem Steps.exists_acts (steps : Steps now m c c')
    : ∃ c1, Acts now m c c1 ∧ c1.SameCampaign c' := by
  obtain ⟨c1, acts, rfl | ⟨c2, appends, new, rfl, sends⟩⟩ := steps
  · exact ⟨c', acts, rfl, rfl, rfl, rfl, rfl⟩
  · cases appends with
    | mk leads es nonempty index proposal source raftLog appends =>
        exact ⟨c1, acts, rfl, rfl, rfl, rfl, rfl⟩

/-- The voters that a pre-candidate counts after it has handled `m`: those it counted
before and the sender of a grant.
-/
def Core.Backs (c : Core) (m : Message) (id : Nat) : Prop :=
  c.votes.get? id = some true
    ∨ id = m.fromId ∧ m.IsGrant ∧ (m.term = 0 ∨ c.term ≤ m.term)

/-- What is known of a node that is a pre-candidate after it has handled `m`. -/
structure Polled (m : Message) (c0 c : Core) : Prop where
  preVote : c.preVote = c0.preVote
  entered : c.state = .statePreCandidate
    → m.type = .msgHup ∨ (c0.state = .statePreCandidate ∧ c.term = c0.term)
  enabled : c.state = .statePreCandidate → c0.state = .statePreCandidate ∨ c.preVote = true
  counted : c.state = .statePreCandidate → ∀ id, c.votes.get? id = some true
    → c0.state = .statePreCandidate ∧ c.term = c0.term ∧ c0.Backs m id

omit [Codec] in
theorem Polled.of_state {c0 : Core} (preVote : c.preVote = c0.preVote)
    (other : c.state ≠ .statePreCandidate)
    : Polled m c0 c :=
  ⟨preVote, fun same => absurd same other, fun same => absurd same other,
    fun same => absurd same other⟩

omit [Codec] in
theorem Polled.congr {c0 : Core} (polled : Polled m c0 c) (same : c.SameCampaign c')
    : Polled m c0 c' where
  preVote := same.preVote.trans polled.preVote
  entered := by rw [same.state, same.term]; exact polled.entered
  enabled := by rw [same.state, same.preVote]; exact polled.enabled
  counted := by rw [same.state, same.term, same.votes]; exact polled.counted

theorem Polled.act {c0 : Core} (polled : Polled m c0 c) (campaigned : Campaigned m c c')
    : Polled m c0 c' := by
  have preVote := campaigned.preVote.trans polled.preVote
  cases campaigned with
  | keep same => exact polled.congr same
  | follower state => exact .of_state preVote (by rw [state]; nofun)
  | preCandidate type enabled state term votes =>
      exact ⟨preVote, fun _ => .inl type, fun _ => .inr enabled,
        fun _ id yes => by simp [votes] at yes⟩
  | candidate may state => exact .of_state preVote (by rw [state]; nofun)
  | counted type state reached recorded same =>
      refine Polled.congr (c := { c with votes := c'.votes })
        ⟨polled.preVote, polled.entered, polled.enabled, fun _ id yes => ?_⟩ same
      have notHup : m.type ≠ .msgHup := by rw [type]; nofun
      obtain ⟨was, term⟩ := (polled.entered state).resolve_left notHup
      rcases recorded id yes with old | ⟨sender, granted⟩
      · exact polled.counted state id old
      · rw [term] at reached
        exact ⟨was, term, .inr ⟨sender, ⟨type, granted⟩, reached⟩⟩
  | elected was state =>
      refine .of_state preVote ?_
      rcases state with same | same <;> rw [same] <;> nofun

theorem Acts.polled (acts : Acts now m c c') : Polled m c c' := by
  induction acts with
  | refl =>
      exact ⟨rfl, fun same => .inr ⟨same, rfl⟩, .inl, fun same id yes => ⟨same, rfl, .inl yes⟩⟩
  | tail _ act ih => exact ih.act act.campaigned

theorem Steps.polled (steps : Steps now m c c') : Polled m c c' := by
  obtain ⟨c1, acts, same⟩ := steps.exists_acts
  exact (Acts.polled acts).congr same

-----------------------------------------------------------------------------------------
-- The end of a pre-campaign
-----------------------------------------------------------------------------------------

/-- How the pre-campaign of `c0` goes on while the node handles messages like `m`: it
still polls, a quorum has granted its pre-vote, it has given up, or its term has passed.
-/
inductive Phase (m : Message) (granted : Nat → Prop) (c0 c : Core) : Prop where
  | polling (state : c.state = .statePreCandidate) (term : c.term = c0.term)
      (config : c.config = c0.config)
      (votes : ∀ id, c.votes.get? id = some true → granted id)
  | won (votes : IdMap Bool) (won : c0.config.voters.voteResult votes = .voteWon)
      (backed : ∀ id, votes.get? id = some true → granted id)
  | lost (state : c.state = .stateFollower) (newer : c0.term ≤ c.term)
      (later : m.type = .msgTimeoutNow → c0.term < c.term)
  | beyond (later : c0.term + 1 < c.term)

namespace Phase

variable {c0 : Core} {granted : Nat → Prop}

omit [Codec] in
theorem congr (phase : Phase m granted c0 c) (same : c.SameCampaign c')
    : Phase m granted c0 c' := by
  cases phase with
  | polling state term config votes =>
      exact .polling (same.state.trans state) (same.term.trans term) (same.config.trans config)
        (same.votes ▸ votes)
  | won votes won backed => exact .won votes won backed
  | lost state newer later =>
      exact .lost (same.state.trans state) (same.term ▸ newer) (same.term ▸ later)
  | beyond later => exact .beyond (same.term ▸ later)

omit [Codec] in
/-- Only a leader that hands over its office matters for what a message is like. -/
theorem withMessage {m' : Message} (phase : Phase m granted c0 c)
    (other : m'.type ≠ .msgTimeoutNow)
    : Phase m' granted c0 c := by
  cases phase with
  | polling state term config votes => exact .polling state term config votes
  | won votes won backed => exact .won votes won backed
  | lost state newer later => exact .lost state newer fun type => absurd type other
  | beyond later => exact .beyond later

/-- A small action leads from phase to phase. A node that polls with pre-votes becomes a
candidate with a quorum only.
-/
theorem act (phase : Phase m granted c0 c) (campaigned : Campaigned m c c')
    (notHup : m.type ≠ .msgHup)
    (grants : m.IsGrant → m.term = 0 ∨ c0.term ≤ m.term → granted m.fromId)
    : Phase m granted c0 c' := by
  have later := campaigned.later
  cases phase with
  | won votes won backed => exact .won votes won backed
  | beyond passed => exact .beyond (Nat.lt_of_lt_of_le passed later)
  | polling state term config votes =>
      cases campaigned with
      | keep same => exact congr (.polling state term config votes) same
      | follower state' newer later _ => exact .lost state' (term ▸ newer) (term ▸ later)
      | preCandidate type => exact absurd type notHup
      | candidate may =>
          rcases may with ⟨_, ⟨type, _⟩ | ⟨_, follower⟩⟩ | ⟨_, _, won⟩
          · exact absurd type notHup
          · rw [follower] at state
            cases state
          · exact .won c.votes (config ▸ won) votes
      | counted type _ reached recorded same =>
          refine congr (c := { c with votes := c'.votes })
            (.polling state term config fun id yes => ?_) same
          rcases recorded id yes with old | ⟨sender, granted⟩
          · exact votes id old
          · rw [sender]
            exact grants ⟨type, granted⟩ (term ▸ reached)
      | elected was =>
          rw [was] at state
          cases state
  | lost state newer passed =>
      cases campaigned with
      | keep same => exact congr (.lost state newer passed) same
      | follower state' _ more _ =>
          exact .lost state' (by omega) fun type => by have := more type; omega
      | preCandidate type => exact absurd type notHup
      | candidate may _ term _ =>
          rcases may with ⟨_, ⟨type, _⟩ | ⟨type, _⟩⟩ | ⟨polling, _, _⟩
          · exact absurd type notHup
          · have := passed type
            exact .beyond (by omega)
          · rw [polling] at state
            cases state
      | counted _ polling =>
          rw [polling] at state
          cases state
      | elected was =>
          rw [was] at state
          cases state

theorem steps (phase : Phase m granted c0 c) (steps : Steps now m c c')
    (notHup : m.type ≠ .msgHup)
    (grants : m.IsGrant → m.term = 0 ∨ c0.term ≤ m.term → granted m.fromId)
    : Phase m granted c0 c' := by
  obtain ⟨c1, acts, same⟩ := steps.exists_acts
  refine congr ?_ same
  clear same
  induction acts with
  | refl => exact phase
  | tail _ act ih => exact ih.act act.campaigned notHup grants

omit [Codec] in
/-- A candidate of the next term has the grants of a quorum. -/
theorem of_candidate (phase : Phase m granted c0 c)
    (candidate : c.state = .stateCandidate) (term : c.term = c0.term + 1)
    : ∃ votes, c0.config.voters.voteResult votes = .voteWon
      ∧ ∀ id, votes.get? id = some true → granted id := by
  cases phase with
  | won votes won backed => exact ⟨votes, won, backed⟩
  | polling state =>
      rw [candidate] at state
      cases state
  | lost state =>
      rw [candidate] at state
      cases state
  | beyond later => omega

end Phase

/-- With pre-votes, a node that starts a campaign does not become a candidate at once. -/
theorem Campaigned.not_candidate (campaigned : Campaigned m c c')
    (type : m.type = .msgHup)
    (enabled : c.preVote = true) (before : c.state ≠ .stateCandidate)
    : c'.state ≠ .stateCandidate := by
  cases campaigned with
  | keep same => exact same.state ▸ before
  | follower state => rw [state]; nofun
  | preCandidate _ _ state _ _ _ => rw [state]; nofun
  | candidate may =>
      rcases may with ⟨_, ⟨_, disabled⟩ | ⟨other, _⟩⟩ | ⟨_, other, _⟩
      · rw [disabled] at enabled
        cases enabled
      · rw [type] at other
        cases other
      · rw [type] at other
        cases other
  | counted other =>
      rw [type] at other
      cases other
  | elected was => exact absurd was before

theorem Acts.not_candidate (acts : Acts now m c c') (type : m.type = .msgHup)
    (enabled : c.preVote = true) (before : c.state ≠ .stateCandidate)
    : c'.state ≠ .stateCandidate := by
  have both : c'.preVote = true ∧ c'.state ≠ .stateCandidate := by
    induction acts with
    | refl => exact ⟨enabled, before⟩
    | tail _ act ih =>
        have campaigned := act.campaigned
        exact ⟨campaigned.preVote.trans ih.1, campaigned.not_candidate type ih.1 ih.2⟩
  exact both.2

end EtcdRaft
