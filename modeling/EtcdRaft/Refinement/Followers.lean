import EtcdRaft.Refinement.Reaches

/-! Elections, followers and candidates as sequences of small actions. -/

namespace EtcdRaft

-----------------------------------------------------------------------------------------
-- Sending
-----------------------------------------------------------------------------------------

namespace Raft

/-- `send` of an acknowledgement or a rejection of entries. -/
theorem send_appResp {r : Raft} {msg : Message} (type : msg.type = .msgAppResp)
    (noSender : msg.fromId = none64) (noTerm : msg.term = 0)
    : r.send msg = .ok { r with msgsAfterAppend := r.msgsAfterAppend ++
        [{ msg with fromId := r.id, term := r.term, origin := r.raftLog.logical }] } := by
  simp [send, stampTerm, type, noSender, noTerm, isVoteMsg, isAfterAppend]

/-- `send` of the answer to a request for a vote. -/
theorem send_voteResp {r : Raft} {msg : Message}
    (type : msg.type = .msgVoteResp ∨ msg.type = .msgPreVoteResp)
    (noSender : msg.fromId = none64)
    : Ends (r.send msg)
        (fun r' => msg.term ≠ 0 ∧ r' = { r with msgsAfterAppend := r.msgsAfterAppend ++
          [{ msg with fromId := r.id, origin := r.raftLog.logical }] }) Benign := by
  have vote : isVoteMsg msg.type = true := by rcases type with h | h <;> simp [h, isVoteMsg]
  have after : isAfterAppend msg.type = true := by
    rcases type with h | h <;> simp [h, isAfterAppend]
  unfold send stampTerm
  simp only [noSender, ↓reduceIte, vote]
  split
  · exact rfl
  · simp only [except_pure, except_ok_bind, after, ↓reduceIte]
    exact ⟨‹_›, rfl⟩

/-- `send` of a request for a vote. -/
theorem send_vote {r : Raft} {msg : Message}
    (type : msg.type = .msgVote ∨ msg.type = .msgPreVote) (noSender : msg.fromId = none64)
    : Ends (r.send msg)
        (fun r' => r' = { r with msgs := r.msgs ++ [{ msg with fromId := r.id }] }) Benign := by
  have vote : isVoteMsg msg.type = true := by rcases type with h | h <;> simp [h, isVoteMsg]
  have atOnce : isAfterAppend msg.type = false := by
    rcases type with h | h <;> simp [h, isAfterAppend]
  unfold send stampTerm
  simp only [noSender, ↓reduceIte, vote]
  split
  · exact rfl
  · simp only [except_pure, except_ok_bind, atOnce, Bool.false_eq_true, ↓reduceIte]
    split <;> exact rfl

-----------------------------------------------------------------------------------------
-- Changes of role
-----------------------------------------------------------------------------------------

theorem resetRandomizedElectionTimeout_eq (r : Raft)
    : ∃ rand timeout, r.resetRandomizedElectionTimeout
      = { r with rand := rand, randomizedElectionTimeout := timeout } := by
  unfold resetRandomizedElectionTimeout intn
  cases rand : r.rand with
  | nil => exact ⟨_, _, rfl⟩
  | cons v rest => exact ⟨_, _, rfl⟩

theorem core_reset (r : Raft) (term : Nat) : (r.reset term).core = r.core.reset term := by
  have progress : ∀ (r' : Raft), r'.id = r.id → r'.raftLog = r.raftLog
      → progressOf (r.trk.progress.mapValues r'.resetProgress)
        = fun id => (r.core.progress id).map fun pr =>
            (if id = r.id then r.raftLog.lastIndex else 0, pr.2) := by
    intro r' sameId sameLog
    funext id
    simp only [progressOf, core, IdMap.get?_mapValues, Option.map_map]
    cases r.trk.progress.get? id with
    | none => rfl
    | some pr => simp [resetProgress, sameId, sameLog]
  unfold reset
  dsimp only
  by_cases same : r.term = term
  · subst same
    simp only [ne_eq, not_true_eq_false, ↓reduceIte]
    obtain ⟨rand, timeout, eq⟩ := resetRandomizedElectionTimeout_eq
      { r with lead := none64, electionElapsed := 0, heartbeatElapsed := 0 }
    rw [eq]
    simp only [core, Core.reset, abortLeaderTransfer, ProgressTracker.resetVotes, ↓reduceIte]
    congr 1
    exact progress _ rfl rfl
  · simp only [same, ne_eq, not_false_eq_true, ↓reduceIte]
    obtain ⟨rand, timeout, eq⟩ := resetRandomizedElectionTimeout_eq
      { r with
        term := term, vote := none64, lead := none64, electionElapsed := 0
        heartbeatElapsed := 0 }
    rw [eq]
    simp only [core, Core.reset, same, abortLeaderTransfer, ProgressTracker.resetVotes, ↓reduceIte]
    congr 1
    exact progress _ rfl rfl

theorem core_becomeFollower (r : Raft) (term lead : Nat)
    : (r.becomeFollower term lead).core
      = { r.core.reset term with state := .stateFollower } := by
  rw [← core_reset]
  rfl

theorem maybeAppend_none {l l' : RaftLog} {a : LogSlice} {committed : Nat}
    (refused : l.maybeAppend a committed = .ok (l', none))
    : l' = l := by
  unfold RaftLog.maybeAppend at refused
  dsimp only at refused
  split at refused
  · cases refused
    rfl
  · simp only [except_pure, except_bind_eq_ok] at refused
    obtain ⟨_, _, _, _, impossible⟩ := refused
    cases impossible

theorem ends_orPanic (x : ChangeResult)
    : Ends (orPanic x) (fun res => x = .ok res) Benign := by
  cases x with
  | ok res => exact rfl
  | error err => exact rfl

variable [Codec] {now : Nat} {m : Message}

theorem ends_isUpToDate (l : RaftLog) (id : EntryID)
    : Ends (l.isUpToDate id) (fun ok => l.isUpToDate id = .ok ok) l.Misread := by
  refine Ends.of_eq (fun _ eq => eq) fun p fails => ?_
  have misread : Ends (l.isUpToDate id) (fun _ => True) l.Misread :=
    Ends.bind l.ends_lastEntryID fun _ _ => trivial
  exact misread.failure fails

theorem act_becomeFollower {r : Raft} {term : Nat} (lead : Nat) (newer : r.term ≤ term)
    (later : m.type = .msgTimeoutNow → r.term < term)
    : Act now m r.core (r.becomeFollower term lead).core := by
  rw [core_becomeFollower]
  exact .becomeFollower term newer later

/-- What allows a campaign. -/
def MayStart (r : Raft) (m : Message) (t : CampaignType) : Prop :=
  if t = .campaignPreElection then
    m.type = .msgHup ∧ r.preVote = true ∧ r.core.MayCampaign
  else
    m.Campaigns r.core

omit [Codec] in
/-- A candidate starts a new term and votes for itself. -/
theorem ends_becomeCandidate (r : Raft)
    : Ends r.becomeCandidate
        (fun r' => r.state ≠ .stateLeader
          ∧ r' = { r.reset (r.term + 1) with
            vote := (r.reset (r.term + 1)).id
            state := .stateCandidate })
        Benign := by
  unfold becomeCandidate
  refine Ends.ite (fun _ => rfl) fun notLeader => ?_
  exact Ends.ite (fun _ => rfl) fun _ => ⟨notLeader, rfl⟩

theorem reaches_becomeCampaigner {r : Raft} {t : CampaignType} (may : r.MayStart m t)
    : Reaches now m r.core (r.becomeCampaigner t) core fun r' =>
        r'.state = if t = .campaignPreElection then .statePreCandidate else .stateCandidate := by
  unfold MayStart at may
  unfold becomeCampaigner
  refine Ends.ite (fun pre => ?_) fun election => ?_
  · rw [if_pos pre] at may
    obtain ⟨type, enabled, may⟩ := may
    refine Reaches.of_act (Ends.ite (fun _ => rfl) fun notLeader => ⟨?_, ?_⟩)
    · exact .becomePreCandidate type enabled notLeader may
    · simp [pre]
  · rw [if_neg election] at may
    refine Reaches.of_act (r.ends_becomeCandidate.mono ?_ fun _ benign => benign)
    rintro _ ⟨notLeader, rfl⟩
    refine ⟨?_, ?_⟩
    · have act : Act now m r.core { r.core.reset (r.term + 1) with
          vote := (r.core.reset (r.term + 1)).id, state := .stateCandidate } :=
        .becomeCandidate notLeader may
      rw [← core_reset] at act
      exact act
    · simp [election]

/-- A step of the loop in `campaign`. -/
theorem reaches_requestVote {r : Raft} {t : CampaignType} {id : Nat}
    (role : r.state = if t = .campaignPreElection then .statePreCandidate else .stateCandidate)
    : Reaches now m r.core (r.requestVote t id) core fun r' =>
        r'.state = if t = .campaignPreElection then .statePreCandidate else .stateCandidate := by
  unfold requestVote
  dsimp only
  by_cases pre : t = .campaignPreElection
  · simp only [pre, ↓reduceIte, voteRespMsgType] at role ⊢
    refine Ends.ite (fun own => ?_) fun _ => ?_
    · refine Reaches.of_act ((send_voteResp (.inr rfl) rfl).mono ?_ fun _ h => h)
      rintro r' ⟨termed, rfl⟩
      exact ⟨.answer _ (.preVote rfl rfl termed), role⟩
    · refine Ends.bind (r.raftLog.ends_lastEntryID.mono (fun _ h => h) fun _ misread =>
        .of_corrupt (.read misread)) fun last _ => ?_
      refine Reaches.of_act ((send_vote (.inr rfl) rfl).mono ?_ fun _ h => h)
      rintro r' rfl
      exact ⟨.send _ (.other (.inl rfl)), role⟩
  · simp only [pre, ↓reduceIte, voteRespMsgType] at role ⊢
    refine Ends.ite (fun own => ?_) fun _ => ?_
    · refine Reaches.of_act ((send_voteResp (.inl rfl) rfl).mono ?_ fun _ h => h)
      rintro r' ⟨_, rfl⟩
      refine ⟨.answer _ (.selfVote role ?_), role⟩
      rw [own]
      rfl
    · refine Ends.bind (r.raftLog.ends_lastEntryID.mono (fun _ h => h) fun _ misread =>
        .of_corrupt (.read misread)) fun last known => ?_
      refine Reaches.of_act ((send_vote (.inl rfl) rfl).mono ?_ fun _ h => h)
      rintro r' rfl
      exact ⟨.send _ (.vote rfl role rfl rfl known), role⟩

theorem reaches_campaign {r : Raft} {t : CampaignType} (may : r.MayStart m t)
    : Reaches now m r.core (r.campaign t) core fun _ => True := by
  unfold campaign
  refine (reaches_becomeCampaigner may).bind fun r' role => ?_
  refine Ends.mono (Ends.foldlM (q := fun r'' => Acts now m r'.core r''.core
    ∧ r''.state = if t = .campaignPreElection then .statePreCandidate else .stateCandidate)
    ⟨.refl, role⟩ ?_) (fun _ ⟨acts, _⟩ => ⟨acts, trivial⟩) fun _ fails => fails
  rintro r'' id _ ⟨acts, role'⟩
  exact (reaches_requestVote role').after acts

/-- Only a configuration change stops the scan. -/
theorem found_of_callback {l : RaftLog} {hi pageSize fuel lo : Nat} {found : Bool}
    {err : Unit}
    (scanned : l.scanLoop hi pageSize findConfChange fuel lo false
      = .ok (found, some (.callback err)))
    : found = true := by
  induction fuel generalizing lo with
  | zero => cases scanned
  | succ fuel ih =>
      unfold RaftLog.scanLoop at scanned
      split at scanned
      · cases scanned
      obtain ⟨read, _, scanned⟩ := except_bind_eq_ok.mp scanned
      cases read with
      | error err => cases scanned
      | ok ents =>
          simp only at scanned
          split at scanned
          · cases scanned
          unfold findConfChange at scanned
          split at scanned
          · rename_i stops
            split at stops <;> cases stops
            cases scanned
            rfl
          · rename_i stops
            split at stops <;> cases stops
            exact ih scanned

theorem mayCampaign_of_checks {r : Raft} (promotable : r.promotable = true)
    (settled : r.hasUnappliedConfChanges = .ok false)
    : r.core.MayCampaign := by
  have log : r.raftLog.Settled := by
    unfold hasUnappliedConfChanges at settled
    split at settled
    · exact .inl ‹_›
    · obtain ⟨⟨found, err⟩, scanned, settled⟩ := except_bind_eq_ok.mp settled
      rcases err with _ | ⟨_ | _ | _⟩ <;> cases settled
      · exact .inr scanned
      · exact absurd (found_of_callback scanned) nofun
  unfold Raft.promotable at promotable
  split at promotable
  · cases promotable
  · rename_i pr tracked
    simp only [Bool.and_eq_true, Bool.not_eq_true', RaftLog.hasNextOrInProgressSnapshot,
      Option.isSome_eq_false_iff, Option.isNone_iff_eq_none] at promotable
    refine ⟨⟨pr.match, ?_⟩, promotable.2, log⟩
    show progressOf r.trk.progress r.id = _
    unfold progressOf
    rw [tracked, Option.map_some, promotable.1]

theorem ends_hasUnappliedConfChanges (r : Raft)
    : Ends r.hasUnappliedConfChanges (fun found => r.hasUnappliedConfChanges = .ok found)
        r.raftLog.Stops := by
  refine Ends.of_eq (fun _ eq => eq) fun p fails => ?_
  unfold hasUnappliedConfChanges at fails
  split at fails
  · cases fails
  · rcases except_bind_eq_error.mp fails with fails | ⟨⟨found, err⟩, _, fails⟩
    · exact .inr ((r.raftLog.ends_scanLoop _ _ _ _ _ _).failure fails)
    · rcases err with _ | ⟨_ | _ | _⟩ <;> cases fails <;> exact .inl rfl

theorem reaches_hup {r : Raft} {t : CampaignType}
    (asked : r.core.MayCampaign → r.MayStart m t)
    : Reaches now m r.core (r.hup t) core fun _ => True := by
  unfold hup
  refine Ends.ite (fun _ => ⟨.refl, trivial⟩) fun _ => ?_
  refine Ends.ite (fun _ => ⟨.refl, trivial⟩) fun promotable => ?_
  refine Ends.bind (r.ends_hasUnappliedConfChanges.mono (fun _ h => h) fun _ => .of_stops) ?_
  intro unapplied known
  refine Ends.ite (fun _ => ⟨.refl, trivial⟩) fun settled => ?_
  refine reaches_campaign (asked (mayCampaign_of_checks (by simpa using promotable) ?_))
  rw [known, Bool.eq_false_iff.mpr settled]

-----------------------------------------------------------------------------------------
-- Messages of a leader
-----------------------------------------------------------------------------------------

theorem reaches_handleAppendEntries {r : Raft} (type : m.type = .msgApp)
    (follower : r.state = .stateFollower) (term : m.term = r.term) (termed : m.term ≠ 0)
    : Reaches now m r.core (r.handleAppendEntries m) core fun _ => True := by
  unfold handleAppendEntries
  refine Ends.ite (fun _ => ?_) fun above => ?_
  · rw [send_appResp rfl rfl rfl]
    exact ⟨.single (.ackCommitted (.inl type) follower term), trivial⟩
  have above : r.raftLog.committed ≤ m.index := Nat.le_of_not_lt above
  refine Ends.bind (Ends.of_eq (fun _ eq => eq) fun p fails =>
    .of_corrupt (.accept type follower term above fails)) ?_
  rintro ⟨raftLog, answer⟩ appended
  cases answer with
  | some last =>
      dsimp only
      rw [send_appResp rfl rfl rfl]
      exact ⟨.single (.accept type follower term above raftLog last appended), trivial⟩
  | none =>
      have same := maybeAppend_none appended
      subst same
      dsimp only
      rw [send_appResp rfl rfl rfl]
      exact ⟨.single (.answer _ (.reject (.inl rfl) rfl (term ▸ termed))), trivial⟩

theorem reaches_handleHeartbeat {r : Raft} (type : m.type = .msgHeartbeat)
    (follower : r.state = .stateFollower) (term : m.term = r.term)
    : Reaches now m r.core (r.handleHeartbeat m) core fun _ => True := by
  unfold handleHeartbeat
  refine Ends.bind (Ends.of_eq (fun _ eq => eq) fun p fails =>
    .of_corrupt (.heartbeat type follower term fails)) ?_
  intro raftLog committed
  refine Reaches.of_act ((send_termed rfl rfl (by simp) (by simp) rfl).mono ?_ fun _ h => h)
  rintro r' ⟨_, rfl⟩
  exact ⟨.heartbeat type follower term raftLog committed, trivial⟩

/-- A follower only switches to a new configuration. -/
theorem switchToConfig_follower {r : Raft} {cfg : TrackerConfig} {progress : ProgressMap}
    (follower : r.state = .stateFollower)
    : r.switchToConfig cfg progress
      = .ok (r.installConfig cfg progress, cfg.confState) := by
  simp [switchToConfig, reactToConfig, installConfig, follower, ProgressTracker.confState]

theorem reaches_restore {r : Raft} (type : m.type = .msgSnap)
    (follower : r.state = .stateFollower) (term : m.term = r.term)
    : Ends (r.restore m.snap)
        (fun res => if res.2
          then Act now m r.core
            (res.1.core.answer (res.1.core.ack m.fromId res.1.raftLog.lastIndex))
          else Acts now m r.core res.1.core ∧ res.1.state = .stateFollower ∧ res.1.term = r.term)
        (Fails now m r.core) := by
  unfold restore
  refine Ends.ite (fun _ => ⟨.refl, follower, rfl⟩) fun newer => ?_
  have newer : r.raftLog.committed < m.snap.metadata.index := Nat.lt_of_not_le newer
  refine Ends.ite (fun leads => absurd follower leads) fun _ => ?_
  refine Ends.ite (fun _ => ⟨.refl, follower, rfl⟩) fun _ => ?_
  refine Ends.ite (fun holds => ?_) fun lacks => ?_
  · refine Ends.bind (Ends.of_eq (fun _ eq => eq) fun p fails =>
      .of_corrupt (.fastForward type follower term newer holds fails)) ?_
    intro raftLog committed
    exact ⟨.single (.fastForward type follower term newer holds raftLog committed), follower, rfl⟩
  · refine Ends.bind ((ends_orPanic _).mono (fun _ h => h) fun _ => .of_benign) ?_
    rintro ⟨cfg, progress⟩ config
    dsimp only
    rw [switchToConfig_follower, except_ok_bind]
    swap
    · exact follower
    refine Ends.bind (q := fun _ => m.snap.metadata.confState.equivalent cfg.confState = true)
      (Ends.ite (fun same => same) fun _ => .of_benign rfl) ?_
    intro _ same
    exact .restore type follower term newer (Bool.eq_false_iff.mpr lacks) _ ⟨rfl, rfl⟩ cfg progress
      config same

theorem reaches_handleSnapshot {r : Raft} (type : m.type = .msgSnap)
    (follower : r.state = .stateFollower) (term : m.term = r.term)
    : Reaches now m r.core (r.handleSnapshot m) core fun _ => True := by
  unfold handleSnapshot
  refine Ends.bind (reaches_restore type follower term) ?_
  rintro ⟨r', restored⟩ known
  cases restored with
  | true =>
      dsimp only
      rw [send_appResp rfl rfl rfl]
      exact ⟨.single known, trivial⟩
  | false =>
      obtain ⟨acts, follower', sameTerm⟩ := known
      dsimp only
      rw [send_appResp rfl rfl rfl]
      exact ⟨acts.tail (.ackCommitted (.inr type) follower' (term.trans sameTerm.symm)), trivial⟩

-----------------------------------------------------------------------------------------
-- Followers
-----------------------------------------------------------------------------------------

theorem reaches_forward {r : Raft} (forwarded : m.type.forwarded = true)
    (atOnce : isAfterAppend m.type = false)
    : Reaches now m r.core (r.forward m) (fun res => res.1.core) fun _ => True := by
  unfold forward
  refine Reaches.of_act (Ends.bind (send_atOnce atOnce) ?_)
  rintro r' ⟨sent, type, entries, _, _, rfl⟩
  exact ⟨.send _ (.forward type forwarded entries), trivial⟩

/-- A call of a handler, with the answer that `Step` gives. -/
theorem reaches_done {r : Raft} {x : Result Raft}
    (hx : Reaches now m r.core x core fun _ => True)
    : Reaches now m r.core (x >>= done) (fun res => res.1.core) fun _ => True :=
  hx.bind fun _ _ => ⟨.refl, trivial⟩

theorem reaches_stepFollower {r : Raft} (follower : r.state = .stateFollower)
    (term : m.type.termed = true → m.term = r.term ∧ m.term ≠ 0)
    : Reaches now m r.core (r.stepFollower m) (fun res => res.1.core) fun _ => True := by
  have nothing : Reaches now m r.core r.done (fun res => res.1.core) fun _ => True :=
    ⟨.refl, trivial⟩
  unfold stepFollower
  split
  · rename_i type
    refine Ends.ite (fun _ => ⟨.refl, trivial⟩) fun _ => ?_
    refine Ends.ite (fun _ => ⟨.refl, trivial⟩) fun _ => ?_
    exact reaches_forward (by rw [type]; rfl) (by rw [type]; rfl)
  · rename_i type
    obtain ⟨same, termed⟩ := term (by rw [type]; rfl)
    exact reaches_done (r := { r with electionElapsed := 0, lead := m.fromId })
      (reaches_handleAppendEntries type follower same termed)
  · rename_i type
    exact reaches_done (r := { r with electionElapsed := 0, lead := m.fromId })
      (reaches_handleHeartbeat type follower (term (by rw [type]; rfl)).1)
  · rename_i type
    exact reaches_done (r := { r with electionElapsed := 0, lead := m.fromId })
      (reaches_handleSnapshot type follower (term (by rw [type]; rfl)).1)
  · rename_i type
    refine Ends.ite (fun _ => nothing) fun _ => ?_
    exact reaches_forward (by rw [type]; rfl) (by rw [type]; rfl)
  · exact Ends.ite (fun _ => nothing) fun _ => ⟨.refl, trivial⟩
  · rename_i type
    exact reaches_done (reaches_hup fun may => .inl ⟨may, .inr ⟨type, follower⟩⟩)
  · rename_i type
    refine Ends.ite (fun _ => nothing) fun _ => ?_
    exact reaches_forward (by rw [type]; rfl) (by rw [type]; rfl)
  · rename_i type
    split
    · exact ⟨.single (.received type _ rfl rfl), trivial⟩
    · exact nothing
  · exact nothing

-----------------------------------------------------------------------------------------
-- Votes
-----------------------------------------------------------------------------------------

theorem reaches_handleVote {r : Raft}
    (type : m.type = .msgVote ∧ m.term = r.term ∨ m.type = .msgPreVote)
    : Reaches now m r.core (r.handleVote m) core fun _ => True := by
  unfold handleVote
  refine Ends.bind ((ends_isUpToDate _ _).mono (fun _ h => h) fun _ misread =>
    .of_corrupt (.read misread)) ?_
  intro upToDate known
  refine Ends.ite (fun grants => ?_) fun _ => ?_
  · obtain ⟨canVote, rfl⟩ := grants
    rcases type with ⟨type, term⟩ | type
    · refine Reaches.of_act (Ends.bind (send_voteResp (.inl (by rw [type]; rfl)) rfl) ?_)
      rintro r' ⟨_, rfl⟩
      have free : r.vote = m.fromId ∨ r.vote = none64 := by
        rcases canVote with own | ⟨none, _⟩ | ⟨pre, _⟩
        · exact .inl own
        · exact .inr none
        · rw [type] at pre
          cases pre
      have vote : ({
          type := voteRespMsgType m.type, toId := m.fromId, fromId := r.id, term := m.term
          origin := r.raftLog.logical } : Message) = r.core.grant m.fromId := by
        rw [type, term]
        rfl
      have act : Act now m r.core { r.core.answer (r.core.grant m.fromId) with vote := m.fromId } :=
        .grant type term free known
      rw [← vote] at act
      simp only [type, ↓reduceIte]
      rw [type] at act
      exact ⟨act, trivial⟩
    · refine Reaches.of_act (Ends.bind (send_voteResp (.inr (by rw [type]; rfl)) rfl) ?_)
      rintro r' ⟨termed, rfl⟩
      simp only [type, reduceCtorEq, ↓reduceIte]
      exact ⟨.answer _ (.preVote rfl rfl termed), trivial⟩
  · have respType : voteRespMsgType m.type = .msgVoteResp
        ∨ voteRespMsgType m.type = .msgPreVoteResp := by
      rcases type with ⟨type, _⟩ | type
      · exact .inl (by rw [type]; rfl)
      · exact .inr (by rw [type]; rfl)
    refine Reaches.of_act ((send_voteResp respType rfl).mono ?_ fun _ h => h)
    rintro r' ⟨termed, rfl⟩
    rcases respType with vote | preVote
    · exact ⟨.answer _ (.reject (.inr vote) rfl termed), trivial⟩
    · exact ⟨.answer _ (.preVote preVote rfl termed), trivial⟩

end Raft

end EtcdRaft
