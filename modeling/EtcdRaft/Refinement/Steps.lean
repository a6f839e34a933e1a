import EtcdRaft.Refinement.Leaders

/-! `Step` and `tick` as sequences of small actions. -/

namespace EtcdRaft

-----------------------------------------------------------------------------------------
-- The progress of a peer
-----------------------------------------------------------------------------------------

/-- Flow control changes neither the match index nor the learner flag. -/
def Progress.Alike (pr pr' : Progress) : Prop :=
  pr'.match = pr.match ∧ pr'.isLearner = pr.isLearner

theorem Progress.alike_maybeDecrTo (pr : Progress) (rejected hint : Nat)
    : pr.Alike (pr.maybeDecrTo rejected hint).1 := by
  unfold Progress.maybeDecrTo
  split
  · split <;> exact ⟨rfl, rfl⟩
  · split <;> exact ⟨rfl, rfl⟩

theorem Progress.Alike.probe {pr pr' : Progress} (alike : pr.Alike pr')
    : pr.Alike (if pr'.state = .stateReplicate then pr'.becomeProbe else pr') := by
  split
  · exact alike
  · exact alike

theorem Progress.maybeUpdate_eq (pr : Progress) (n : Nat)
    : (pr.maybeUpdate n).1.match = max pr.match n
      ∧ (pr.maybeUpdate n).1.isLearner = pr.isLearner := by
  unfold Progress.maybeUpdate
  split
  · exact ⟨by simp only; omega, rfl⟩
  · exact ⟨by simp only; omega, rfl⟩

theorem Inflights.ends_freeLELoop (s : Inflights) (index left idx i bytes : Nat)
    : Ends (s.freeLELoop index left idx i bytes) (fun _ => True) Benign := by
  induction left generalizing idx i bytes with
  | zero => exact trivial
  | succ left ih =>
      unfold Inflights.freeLELoop
      cases s.buffer[idx]? with
      | none => exact rfl
      | some slot => exact Ends.ite (fun _ => trivial) fun _ => ih _ _ _

theorem Inflights.ends_freeLE (s : Inflights) (index : Nat)
    : Ends (s.freeLE index) (fun _ => True) Benign := by
  unfold Inflights.freeLE
  refine Ends.ite (fun _ => trivial) fun _ => ?_
  cases s.buffer[s.start]? with
  | none => exact rfl
  | some first =>
      refine Ends.ite (fun _ => trivial) fun _ => ?_
      exact Ends.bind (s.ends_freeLELoop _ _ _ _ _) fun _ _ => trivial

namespace Raft

theorem ends_progressAfterAck (r : Raft) (m : Message) (pr : Progress)
    : Ends (r.progressAfterAck m pr) pr.Alike Benign := by
  unfold progressAfterAck
  refine Ends.ite (fun _ => ⟨rfl, rfl⟩) fun _ => ?_
  refine Ends.ite (fun _ => ⟨rfl, rfl⟩) fun _ => ?_
  refine Ends.ite (fun _ => ?_) fun _ => ⟨rfl, rfl⟩
  exact Ends.bind (pr.inflights.ends_freeLE _) fun _ _ => ⟨rfl, rfl⟩

theorem core_acknowledged {r : Raft} {id index : Nat} {pr pr' : Progress}
    (found : r.trk.progress.get? id = some pr)
    (updated : (pr.maybeUpdate index).1.Alike pr')
    : (r.setProgress id pr').core
      = { r.core with progress := acknowledge r.core.progress id index } := by
  have news := pr.maybeUpdate_eq index
  simp only [core, setProgress]
  congr 1
  funext peer
  simp only [progressOf, acknowledge, IdMap.get?_insert]
  split
  · simp [found, updated.1, updated.2, news]
  · rfl

theorem core_flowControl {r : Raft} {f : Nat → Progress → Progress}
    (alike : ∀ id pr, Progress.Alike pr (f id pr))
    : { r with trk := { r.trk with progress := r.trk.progress.mapValues f } }.core
      = r.core := by
  simp only [core]
  congr 1
  funext id
  simp only [progressOf, IdMap.get?_mapValues, Option.map_map]
  congr 1
  funext pr
  simp [(alike id pr).1, (alike id pr).2]

theorem get?_recordVote {trk : ProgressTracker} {id voter : Nat} {v : Bool}
    (granted : (trk.recordVote id v).votes.get? voter = some true)
    : trk.votes.get? voter = some true ∨ voter = id ∧ v = true := by
  unfold ProgressTracker.recordVote at granted
  split at granted
  · exact .inl granted
  · simp only [IdMap.get?_insert] at granted
    split at granted
    · rename_i same
      exact .inr ⟨same, by simpa using granted⟩
    · exact .inl granted

theorem poll_eq (r : Raft) (id : Nat) (v : Bool)
    : ∃ votes, (r.poll id v).1 = { r with trk := { r.trk with votes := votes } }
      ∧ (r.poll id v).2 = r.trk.config.voters.voteResult votes
      ∧ ∀ voter, votes.get? voter = some true
        → r.trk.votes.get? voter = some true ∨ voter = id ∧ v = true := by
  refine ⟨(r.trk.recordVote id v).votes, ?_, ?_, fun _ granted => get?_recordVote granted⟩
  · unfold poll ProgressTracker.recordVote
    dsimp only
    split <;> rfl
  · unfold poll ProgressTracker.tallyVotes ProgressTracker.recordVote
    dsimp only
    split <;> rfl

theorem core_committedIndex (r : Raft) : r.core.committedIndex = r.trk.committed := by
  have same : (fun id => (r.core.progress id).map Prod.fst) = r.trk.ackedIndex := by
    funext id
    simp [core, progressOf, ProgressTracker.ackedIndex, Function.comp_def]
  unfold Core.committedIndex
  rw [same]
  rfl

theorem maybeCommit_false {l l' : RaftLog} {at_ : EntryID}
    (refused : l.maybeCommit at_ = .ok (l', false))
    : l' = l := by
  unfold RaftLog.maybeCommit at refused
  split at refused
  · rw [except_bind_eq_ok] at refused
    obtain ⟨_, _, impossible⟩ := refused
    cases impossible
  · cases refused
    rfl

theorem core_stepLeaderSnapStatus {r : Raft} {m : Message} {pr : Progress}
    (found : r.trk.progress.get? m.fromId = some pr)
    : (r.stepLeaderSnapStatus m pr).core = r.core := by
  unfold stepLeaderSnapStatus
  split
  · rfl
  · dsimp only
    refine core_setProgress found ?_ ?_
    · split <;> rfl
    · split <;> rfl

variable [Codec] {now : Nat} {m : Message}

-----------------------------------------------------------------------------------------
-- Messages of peers at a leader
-----------------------------------------------------------------------------------------

theorem reaches_maybeCommit {r : Raft} (leads : r.state = .stateLeader)
    (source : m.type = .msgAppResp ∨ m.type = .msgHup)
    : Reaches now m r.core r.maybeCommit (fun res => res.1.core) fun res =>
        ∃ raftLog, res.1 = { r with raftLog := raftLog } := by
  unfold maybeCommit
  rw [← r.core_committedIndex]
  refine Ends.bind (Ends.of_eq (fun _ eq => eq) fun p fails => .of_corrupt (.commit leads fails)) ?_
  intro res commits
  obtain ⟨raftLog, ok⟩ := res
  refine ⟨?_, raftLog, rfl⟩
  cases ok with
  | true => exact .single (.commit leads raftLog commits source)
  | false =>
      have same := maybeCommit_false commits
      subst same
      exact .refl

/-- A call after a change of flow control. -/
theorem reaches_setProgress {α : Type} {r : Raft} {id : Nat} {pr p : Progress}
    {x : Result α}
    {node : α → Core} {post : α → Prop} (found : r.trk.progress.get? id = some pr)
    (alike : pr.Alike p) (hx : Reaches now m (r.setProgress id p).core x node post)
    : Reaches now m r.core x node post := by
  rw [core_setProgress found alike.1 alike.2] at hx
  exact hx

theorem reaches_stepLeaderAppReject {r : Raft} {pr : Progress}
    (leads : r.state = .stateLeader)
    (found : r.trk.progress.get? m.fromId = some pr)
    : Reaches now m r.core (r.stepLeaderAppReject m pr) core fun _ => True := by
  unfold stepLeaderAppReject
  dsimp only
  refine Ends.ite (fun _ => ?_) fun _ => ⟨.refl, trivial⟩
  exact reaches_setProgress found (pr.alike_maybeDecrTo _ _).probe
    ((Reaches.of_sends (onlySends_sendAppend (by exact leads))).mono fun _ _ => ⟨rfl, trivial⟩)

theorem reaches_announceAck {r : Raft} {pr : Progress} {committed : Bool}
    (type : m.type = .msgAppResp) (leads : r.state = .stateLeader)
    (received : ∀ q ∈ r.pendingReadIndexMessages, q.stamp ≤ now)
    : Reaches now m r.core (r.announceAck m pr committed) core fun r' =>
        r'.core.state = .stateLeader := by
  unfold announceAck
  refine Ends.ite (fun _ => ?_) fun _ => Ends.ite (fun _ => ?_) fun _ => ⟨.refl, leads⟩
  · refine (reaches_releasePendingReadIndexMessages type leads received).bind fun r' leads' => ?_
    exact (Reaches.of_sends (onlySends_bcastAppend leads')).mono fun _ sends =>
      ⟨rfl, sends.state.trans leads'⟩
  · exact (Reaches.of_sends (onlySends_sendAppend leads)).mono fun _ sends =>
      ⟨rfl, sends.state.trans leads⟩

theorem onlySends_finishTransfer {r : Raft} {pr : Progress}
    : OnlySends m r (r.finishTransfer m pr) fun r' => r' := by
  unfold finishTransfer
  exact Ends.ite (fun _ => onlySends_sendTimeoutNow) fun _ => .refl m r.core

theorem reaches_stepLeaderAppAck {r : Raft} {pr : Progress} (type : m.type = .msgAppResp)
    (leads : r.state = .stateLeader) (term : m.term = r.term)
    (accepted : m.reject = false)
    (received : ∀ q ∈ r.pendingReadIndexMessages, q.stamp ≤ now)
    (found : r.trk.progress.get? m.fromId = some pr)
    : Reaches now m r.core (r.stepLeaderAppAck m pr) core fun _ => True := by
  unfold stepLeaderAppAck
  dsimp only
  refine Ends.ite (fun _ => ?_) fun _ => ⟨.refl, trivial⟩
  refine Ends.bind ((r.ends_progressAfterAck m _).mono (fun _ h => h) fun _ => .of_benign) ?_
  intro pr' alike
  have act : Act now m r.core (r.setProgress m.fromId pr').core := by
    rw [core_acknowledged found alike]
    exact .acknowledged type leads term accepted
  refine Reaches.after (.single act) ?_
  refine (reaches_maybeCommit (by exact leads) (.inl type)).bind ?_
  intro res known
  obtain ⟨r1, committed⟩ := res
  obtain ⟨raftLog, rfl⟩ := known
  refine (reaches_announceAck type (by exact leads) (by exact received)).bind fun r2 leads2 => ?_
  refine Ends.ite (fun _ => ?_) fun _ => ?_
  · have rest : OnlySends m r2 (do
        let r3 ← sendAppendLoop m.fromId (r2.raftLog.lastIndex + 3) r2
        r3.finishTransfer m pr') fun r' => r' :=
      (onlySends_sendAppendLoop leads2).bind fun _ _ => onlySends_finishTransfer
    exact (Reaches.of_sends rest).mono fun _ _ => ⟨rfl, trivial⟩
  · exact (Reaches.of_sends onlySends_finishTransfer).mono fun _ _ => ⟨rfl, trivial⟩

theorem onlySends_catchUp {r : Raft} {id : Nat} {pr : Progress}
    (leads : r.state = .stateLeader)
    : OnlySends m r (r.catchUp id pr) fun r' => r' := by
  unfold catchUp
  exact Ends.ite (fun _ => onlySends_sendAppend leads) fun _ => .refl m r.core

theorem reaches_stepLeaderHeartbeatResp {r : Raft} {pr : Progress}
    (type : m.type = .msgHeartbeatResp) (leads : r.state = .stateLeader)
    (term : m.term = r.term) (found : r.trk.progress.get? m.fromId = some pr)
    : Reaches now m r.core (r.stepLeaderHeartbeatResp m pr) core fun _ => True := by
  unfold stepLeaderHeartbeatResp
  refine reaches_setProgress (p := { pr with recentActive := true, msgAppFlowPaused := false })
    found ⟨rfl, rfl⟩ ?_
  refine (Reaches.of_sends (onlySends_catchUp (by exact leads))).bind fun r' sends => ?_
  refine Ends.ite (fun _ => ⟨.refl, trivial⟩) fun asked => ?_
  have safe : r'.readOnly.option = .readOnlySafe := by
    simp only [ne_eq, not_or, Decidable.not_not] at asked
    exact asked.1
  obtain ⟨new, same, _⟩ := sends
  exact reaches_confirmReads type ((congrArg Core.state same).trans leads)
    (term.trans (congrArg Core.term same).symm) safe

theorem reaches_stepLeaderTransfer {r : Raft} {pr : Progress}
    (leads : r.state = .stateLeader)
    : Reaches now m r.core (r.stepLeaderTransfer m pr) core fun _ => True := by
  unfold stepLeaderTransfer
  refine Ends.ite (fun _ => ⟨.refl, trivial⟩) fun _ => ?_
  refine Ends.ite (fun _ => ⟨.refl, trivial⟩) fun _ => ?_
  generalize aborted : (if r.leadTransferee ≠ none64 then r.abortLeaderTransfer else r) = r1
  have same : r1.core = r.core := by
    rw [← aborted]
    split <;> rfl
  rw [← same]
  refine Ends.ite (fun _ => ⟨.refl, trivial⟩) fun _ => ?_
  refine Ends.ite (fun _ => ?_) fun _ => ?_
  · exact (Reaches.of_sends (r := { r1 with electionElapsed := 0, leadTransferee := m.fromId })
      onlySends_sendTimeoutNow).mono fun _ _ => ⟨rfl, trivial⟩
  · have leads1 : r1.state = .stateLeader := (congrArg Core.state same).trans leads
    exact (Reaches.of_sends (r := { r1 with electionElapsed := 0, leadTransferee := m.fromId })
      (onlySends_sendAppend leads1)).mono fun _ _ => ⟨rfl, trivial⟩

theorem reaches_stepLeaderPeer {r : Raft} {pr : Progress} (leads : r.state = .stateLeader)
    (term : m.type.termed = true → m.term = r.term ∧ m.term ≠ 0)
    (received : ∀ q ∈ r.pendingReadIndexMessages, q.stamp ≤ now)
    (found : r.trk.progress.get? m.fromId = some pr)
    : Reaches now m r.core (r.stepLeaderPeer m pr) core fun _ => True := by
  unfold stepLeaderPeer
  split
  · rename_i type
    have same := (term (by rw [type]; rfl)).1
    refine reaches_setProgress (p := { pr with recentActive := true }) found ⟨rfl, rfl⟩ ?_
    have found' : (r.setProgress m.fromId { pr with recentActive := true }).trk.progress.get?
        m.fromId = some { pr with recentActive := true } := by
      simp [setProgress]
    refine Ends.ite (fun _ => reaches_stepLeaderAppReject leads found') fun accepted => ?_
    exact reaches_stepLeaderAppAck type leads same (by simpa using accepted) received found'
  · rename_i type
    exact reaches_stepLeaderHeartbeatResp type leads (term (by rw [type]; rfl)).1 found
  · refine ⟨?_, trivial⟩
    rw [core_stepLeaderSnapStatus found]
  · refine ⟨?_, trivial⟩
    split
    · rw [core_setProgress (p := pr.becomeProbe) found rfl rfl]
    · exact .refl
  · exact reaches_stepLeaderTransfer leads
  · exact ⟨.refl, trivial⟩

-----------------------------------------------------------------------------------------
-- The steps of the roles
-----------------------------------------------------------------------------------------

theorem act_stepLeaderCheckQuorum (r : Raft) (type : m.type ≠ .msgTimeoutNow)
    : Acts now m r.core r.stepLeaderCheckQuorum.core := by
  unfold stepLeaderCheckQuorum
  dsimp only
  generalize checked : (if !r.trk.quorumActive then r.becomeFollower r.term none64 else r) = r1
  have acts : Acts now m r.core r1.core := by
    rw [← checked]
    split
    · exact .single (act_becomeFollower none64 (Nat.le_refl _) fun now => absurd now type)
    · exact .refl
  rw [core_flowControl]
  · exact acts
  · intro id pr
    split <;> exact ⟨rfl, rfl⟩

theorem finishes_done {r : Raft} {x : Result Raft}
    (hx : Reaches now m r.core x core fun _ => True)
    : Finishes now m r.core (x >>= done) fun res => res.1.core :=
  (reaches_done hx).finishes

theorem finishes_stepLeader {r : Raft} (leads : r.state = .stateLeader)
    (term : m.type.termed = true → m.term = r.term ∧ m.term ≠ 0)
    (request : m.type = .msgReadIndex → m.stamp ≤ now)
    (received : ∀ q ∈ r.pendingReadIndexMessages, q.stamp ≤ now)
    : Finishes now m r.core (r.stepLeader m) fun res => res.1.core := by
  unfold stepLeader
  split
  · exact finishes_done ((Reaches.of_sends (onlySends_bcastHeartbeat leads)).mono
      fun _ _ => ⟨rfl, trivial⟩)
  · rename_i type
    exact .of_acts (act_stepLeaderCheckQuorum r (by rw [type]; nofun))
  · exact finishes_stepLeaderProp leads fun e member conf => .inl ⟨e, member, conf⟩
  · rename_i type
    exact finishes_done (reaches_stepLeaderReadIndex type leads (request type))
  · exact .of_acts .refl
  · split
    · exact .of_acts .refl
    · rename_i pr found
      exact finishes_done (reaches_stepLeaderPeer leads term received found)

theorem finishes_concludePoll {r : Raft} {res : VoteResult}
    (candidate : r.state = .stateCandidate ∨ r.state = .statePreCandidate)
    (type : m.type = r.myVoteRespType)
    (tally : res = r.core.config.voters.voteResult r.core.votes)
    : Finishes now m r.core (r.concludePoll res) fun res => res.1.core := by
  unfold concludePoll
  cases res with
  | voteWon =>
      refine Ends.ite (fun pre => ?_) fun election => ?_
      · have type : m.type = .msgPreVoteResp := by simpa [myVoteRespType, pre] using type
        exact finishes_done (reaches_campaign (.inr ⟨pre, type, tally.symm⟩))
      · have type : m.type = .msgVoteResp := by simpa [myVoteRespType, election] using type
        refine Ends.bind (ends_becomeLeader (candidate.resolve_right election) tally.symm type) ?_
        intro r' known
        obtain ⟨leads, c, acts, appends⟩ := known
        exact Finishes.of_appends acts appends
          ((onlySends_bcastAppend leads).bind fun r'' _ => .refl m r''.core)
  | voteLost =>
      refine .of_acts (.single (act_becomeFollower none64 (Nat.le_refl _) fun now => ?_))
      rw [now] at type
      unfold myVoteRespType at type
      split at type <;> cases type
  | votePending => exact .of_acts .refl

theorem finishes_stepCandidate {r : Raft}
    (candidate : r.state = .stateCandidate ∨ r.state = .statePreCandidate)
    (term : m.type.termed = true → m.term = r.term ∧ m.term ≠ 0)
    (preTerm : m.type = .msgPreVoteResp → m.term = 0 ∨ r.term ≤ m.term)
    : Finishes now m r.core (r.stepCandidate m) fun res => res.1.core := by
  have follower : m.type.termed = true
      → Acts now m r.core (r.becomeFollower r.term m.fromId).core := by
    intro termed
    refine .single (act_becomeFollower m.fromId (Nat.le_refl _) fun now => ?_)
    rw [now] at termed
    cases termed
  have sameTerm : (r.becomeFollower r.term m.fromId).term = r.term :=
    congrArg Core.term (core_becomeFollower r r.term m.fromId)
  unfold stepCandidate
  split
  · exact .of_acts .refl
  · rename_i type
    obtain ⟨same, termed⟩ := term (by rw [type]; rfl)
    rw [same]
    exact Finishes.after (follower (by rw [type]; rfl)) (finishes_done
      (reaches_handleAppendEntries type rfl (same.trans sameTerm.symm) termed))
  · rename_i type
    obtain ⟨same, termed⟩ := term (by rw [type]; rfl)
    rw [same]
    exact Finishes.after (follower (by rw [type]; rfl)) (finishes_done
      (reaches_handleHeartbeat type rfl (same.trans sameTerm.symm)))
  · rename_i type
    obtain ⟨same, termed⟩ := term (by rw [type]; rfl)
    rw [same]
    exact Finishes.after (follower (by rw [type]; rfl)) (finishes_done
      (reaches_handleSnapshot type rfl (same.trans sameTerm.symm)))
  · refine Ends.ite (fun type => ?_) fun _ => .of_acts .refl
    obtain ⟨votes, same, tally, recorded⟩ := r.poll_eq m.fromId (!m.reject)
    dsimp only
    rw [same, tally]
    refine Finishes.after (.single ?_) (finishes_concludePoll (by exact candidate) type rfl)
    rcases candidate with candidate | preCandidate
    · have type : m.type = .msgVoteResp := by simpa [myVoteRespType, candidate] using type
      refine .poll type candidate (term (by rw [type]; rfl)).1 votes ?_
      intro voter granted
      exact (recorded voter granted).imp_right fun own => ⟨own.1, by simpa using own.2⟩
    · have type : m.type = .msgPreVoteResp := by simpa [myVoteRespType, preCandidate] using type
      refine .pollPre type preCandidate (preTerm type) votes ?_
      intro voter granted
      exact (recorded voter granted).imp_right fun own => ⟨own.1, by simpa using own.2⟩

-----------------------------------------------------------------------------------------
-- Applied entries
-----------------------------------------------------------------------------------------

/-- The second half of `appliedTo`, where a leader may leave a joint configuration. -/
theorem finishes_leaveJoint {r : Raft} {newApplied : Nat}
    : Finishes now m r.core (do
        if r.trk.config.autoLeave ∧ newApplied ≥ r.pendingConfIndex ∧ r.state = .stateLeader then
          let (r, _) ← r.stepLeader leaveJointMsg
          return r
        else
          return r) core := by
  refine Ends.ite (fun leaves => ?_) fun _ => .of_acts .refl
  obtain ⟨autoLeave, _, leads⟩ := leaves
  have step : r.stepLeader leaveJointMsg = r.stepLeaderProp leaveJointMsg := rfl
  rw [step]
  exact (finishes_stepLeaderProp leads fun _ _ _ => .inr autoLeave).map fun _ => rfl

/-- `appliedTo`, where `act` is what the new applied index means for the log. -/
theorem finishes_appliedTo {r : Raft} {index size : Nat} {c : Core}
    (act : ∀ raftLog, r.raftLog.appliedTo (max index r.raftLog.applied) size = .ok raftLog
      → Act now m c { r with raftLog := raftLog }.core)
    (corrupt : ∀ p, r.raftLog.appliedTo (max index r.raftLog.applied) size = .error p
      → Corrupt m c p)
    : Finishes now m c (r.appliedTo index size) core := by
  unfold appliedTo
  refine Ends.bind (q := fun raftLog => Act now m c { r with raftLog := raftLog }.core) ?_ ?_
  · exact Ends.of_eq act fun p fails => .of_corrupt (corrupt p fails)
  · intro raftLog applied
    exact Finishes.after (.single applied) finishes_leaveJoint

/-- The answer of the append thread, where `r1` knows that entries are stored. -/
theorem finishes_appliedSnapOf {r r1 : Raft} (current : Bool)
    (type : m.type = .msgStorageAppendResp)
    (term : if current then m.term = r.term else m.term < r.term)
    (stable : r1 = { r with raftLog := if current ∧ m.index ≠ 0
      then r.raftLog.stableTo { term := m.logTerm, index := m.index }
      else r.raftLog })
    : Finishes now m r.core (r1.appliedSnapOf m.snapshot) core := by
  subst stable
  unfold appliedSnapOf
  cases snapshot : m.snapshot with
  | none =>
      refine .of_acts (.single (.stored type current term _ ?_))
      simp only [RaftLog.stored, snapshot]
      rfl
  | some s =>
      refine finishes_appliedTo (fun raftLog applies => ?_) fun p fails => ?_
      · refine .stored type current term raftLog ?_
        simp only [RaftLog.stored, snapshot]
        exact applies
      · refine .stored type current ?_
        simp only [RaftLog.stored, snapshot]
        exact fails

-----------------------------------------------------------------------------------------
-- Step
-----------------------------------------------------------------------------------------

/-- What a node may be given: messages that make sense in one term only carry it, and read
requests come from the past.
-/
structure Sound (now : Nat) (m : Message) (reads : List Message) : Prop where
  termed : m.type.termed = true → m.term ≠ 0
  request : m.type = .msgReadIndex → m.stamp ≤ now
  pending : ∀ q ∈ reads, q.stamp ≤ now

theorem finishes_stepRole {r : Raft} (sound : Sound now m r.pendingReadIndexMessages)
    (term : m.type.termed = true → m.term = r.term)
    (preTerm : m.type = .msgPreVoteResp → m.term = 0 ∨ r.term ≤ m.term)
    : Finishes now m r.core (r.stepRole m) fun res => res.1.core := by
  have term : m.type.termed = true → m.term = r.term ∧ m.term ≠ 0 :=
    fun termed => ⟨term termed, sound.termed termed⟩
  unfold stepRole
  cases role : r.state with
  | stateFollower => exact (reaches_stepFollower role term).finishes
  | stateCandidate => exact finishes_stepCandidate (.inl role) term preTerm
  | statePreCandidate => exact finishes_stepCandidate (.inr role) term preTerm
  | stateLeader => exact finishes_stepLeader role term sound.request sound.pending

theorem finishes_stepMessage {r : Raft} (sound : Sound now m r.pendingReadIndexMessages)
    (term : m.type.termed = true → m.term = r.term)
    (preTerm : m.type = .msgPreVoteResp → m.term = 0 ∨ r.term ≤ m.term)
    : Finishes now m r.core (r.stepMessage m) fun res => res.1.core := by
  unfold stepMessage
  split
  · rename_i type
    refine finishes_done (reaches_hup fun may => ?_)
    cases enabled : r.preVote with
    | true => exact ⟨type, enabled, may⟩
    | false => exact .inl ⟨may, .inl ⟨type, enabled⟩⟩
  · rename_i type
    have same := term (by rw [type]; rfl)
    refine Finishes.map (finishes_appliedSnapOf true type same ?_) fun _ => rfl
    simp only [true_and]
    split <;> rfl
  · rename_i type
    split
    · exact .of_acts .refl
    · rename_i e last
      refine Finishes.map (finishes_appliedTo (fun raftLog applies => ?_) fun p fails => ?_)
        fun _ => rfl
      · exact .applied type e last _ raftLog applies
      · exact .applied type e last _ fails
  · rename_i type
    exact finishes_done (reaches_handleVote (.inl ⟨type, term (by rw [type]; rfl)⟩))
  · rename_i type
    exact finishes_done (reaches_handleVote (.inr type))
  · exact finishes_stepRole sound term preTerm

theorem finishes_stepLowerTerm {r : Raft} (lower : m.term < r.term)
    : Finishes now m r.core (r.stepLowerTerm m) core := by
  unfold stepLowerTerm
  have termed : r.term ≠ 0 := by omega
  refine Ends.ite (fun _ => ?_) fun _ => Ends.ite (fun _ => ?_) fun _ => Ends.ite (fun type => ?_)
    fun _ => .of_acts .refl
  · rw [send_appResp rfl rfl rfl]
    exact .of_acts (.single (.answer _ (.empty rfl rfl termed)))
  · refine Ends.mono (send_voteResp (.inr rfl) rfl) ?_ fun _ => .of_benign
    intro r' sent
    obtain ⟨termed, rfl⟩ := sent
    exact .of_acts (.single (.answer _ (.preVote rfl rfl termed)))
  · exact finishes_appliedSnapOf false type lower (by simp)

theorem finishes_adoptTerm {r : Raft} (sound : Sound now m r.pendingReadIndexMessages)
    (higher : r.term < m.term)
    : Finishes now m r.core ((r.adoptTerm m).stepMessage m) fun res => res.1.core := by
  have follows : ∀ lead, Finishes now m r.core ((r.becomeFollower m.term lead).stepMessage m)
      fun res => res.1.core := by
    intro lead
    have same := core_becomeFollower r m.term lead
    have reads : (r.becomeFollower m.term lead).pendingReadIndexMessages
        = r.pendingReadIndexMessages := congrArg Core.pendingReads same
    have sameTerm : (r.becomeFollower m.term lead).term = m.term :=
      congrArg Core.term same
    refine Finishes.after
      (.single (act_becomeFollower lead (Nat.le_of_lt higher) fun _ => higher)) ?_
    exact finishes_stepMessage (reads ▸ sound) (fun _ => sameTerm.symm)
      fun _ => .inr (Nat.le_of_eq sameTerm)
  unfold adoptTerm
  split
  · rename_i type
    exact finishes_stepMessage sound (fun termed => by simp [type, MessageType.termed] at termed)
      fun _ => .inr (Nat.le_of_lt higher)
  split
  · rename_i type
    exact finishes_stepMessage sound (fun termed => by simp [type.1, MessageType.termed] at termed)
      fun _ => .inr (Nat.le_of_lt higher)
  split
  · exact follows m.fromId
  · exact follows none64

/-- `Step` is a sequence of small actions. -/
theorem finishes_step {r : Raft} (sound : Sound now m r.pendingReadIndexMessages)
    : Finishes now m r.core (r.step m) fun res => res.1.core := by
  unfold step
  refine Ends.ite (fun zero => ?_) fun _ => ?_
  · exact finishes_stepMessage sound (fun termed => absurd zero (sound.termed termed))
      fun _ => .inl zero
  refine Ends.ite (fun higher => ?_) fun _ => ?_
  · exact Ends.ite (fun _ => .of_acts .refl) fun _ => finishes_adoptTerm sound higher
  refine Ends.ite (fun lower => ?_) fun _ => ?_
  · exact (finishes_stepLowerTerm lower).map fun _ => rfl
  · exact finishes_stepMessage sound (fun _ => by omega) fun _ => .inr (by omega)

-----------------------------------------------------------------------------------------
-- Changes of configuration
-----------------------------------------------------------------------------------------

/-- A leader may step down, commit more and send after a change. -/
theorem reaches_reactToConfig {r : Raft} (type : m.type = .msgHup)
    : Reaches now m r.core r.reactToConfig core fun _ => True := by
  unfold reactToConfig
  refine Ends.ite (fun _ => ⟨?_, trivial⟩) fun _ => ?_
  · split
    · exact .single (act_becomeFollower none64 (Nat.le_refl _) (by rw [type]; nofun))
    · exact .refl
  refine Ends.ite (fun _ => ⟨.refl, trivial⟩) fun leads => ?_
  have leads : r.state = .stateLeader := by
    simp only [ne_eq, not_or, Decidable.not_not] at leads
    exact leads.1
  refine (reaches_maybeCommit leads (.inr type)).bind ?_
  intro res known
  obtain ⟨r1, committed⟩ := res
  obtain ⟨raftLog, rfl⟩ := known
  refine (Reaches.of_sends (onlySends_announceCommit (by exact leads))).bind fun r2 _ => ?_
  exact Ends.ite (fun _ => ⟨.refl, trivial⟩) fun _ => ⟨.refl, trivial⟩

theorem ends_switchToConfig {r : Raft} {cfg : TrackerConfig} {progress : ProgressMap}
    (type : m.type = .msgHup)
    : Ends (r.switchToConfig cfg progress)
        (fun res => res.2 = cfg.confState
          ∧ Acts now m { r.core with config := cfg, progress := progressOf progress } res.1.core)
        (Fails now m { r.core with config := cfg, progress := progressOf progress }) :=
  Ends.bind (reaches_reactToConfig (r := r.installConfig cfg progress) type) fun _ reached =>
    ⟨rfl, reached.1⟩

-----------------------------------------------------------------------------------------
-- Ticks
-----------------------------------------------------------------------------------------

theorem reaches_stepLocal_hup {r : Raft} (type : m.type = .msgHup)
    : Reaches now m r.core (r.stepLocal .msgHup) core fun _ => True := by
  refine (reaches_done (reaches_hup fun may => ?_)).bind fun _ _ => ⟨.refl, trivial⟩
  cases enabled : r.preVote with
  | true => exact ⟨type, enabled, may⟩
  | false => exact .inl ⟨may, .inl ⟨type, enabled⟩⟩

theorem reaches_tickElection {r : Raft} (type : m.type = .msgHup)
    : Reaches now m r.core r.tickElection core fun _ => True := by
  unfold tickElection
  exact Ends.ite (fun _ => reaches_stepLocal_hup type) fun _ => ⟨.refl, trivial⟩

theorem stepLocal_leader {r : Raft} {type : MessageType} (leads : r.state = .stateLeader)
    (own : type = .msgBeat ∨ type = .msgCheckQuorum)
    : r.stepLocal type = (r.stepLeader { type := type, fromId := r.id }
        >>= fun res => pure res.1) := by
  rcases own with rfl | rfl
  · simp [stepLocal, step, stepMessage, stepRole, leads]
  · simp [stepLocal, step, stepMessage, stepRole, leads]

theorem reaches_checkLeadership {r : Raft} (type : m.type = .msgHup)
    (leads : r.state = .stateLeader)
    : Reaches now m r.core r.checkLeadership core fun _ => True := by
  unfold checkLeadership
  have finish : ∀ r' : Raft, Acts now m r.core r'.core
      → Acts now m r.core (if r'.state = .stateLeader ∧ r'.leadTransferee ≠ none64
        then r'.abortLeaderTransfer else r').core := by
    intro r' acts
    split <;> exact acts
  refine Ends.ite (fun _ => ?_) fun _ => ?_
  · rw [stepLocal_leader (by exact leads) (.inr rfl)]
    exact ⟨finish _ (act_stepLeaderCheckQuorum { r with electionElapsed := 0 }
      (by rw [type]; nofun)),
      trivial⟩
  · exact ⟨finish _ .refl, trivial⟩

theorem reaches_beat {r : Raft} : Reaches now m r.core r.beat core fun _ => True := by
  unfold beat
  refine Ends.ite (fun _ => ⟨.refl, trivial⟩) fun leads => ?_
  refine Ends.ite (fun _ => ?_) fun _ => ⟨.refl, trivial⟩
  have leads : r.state = .stateLeader := Decidable.not_not.mp leads
  rw [stepLocal_leader (by exact leads) (.inl rfl)]
  have beats : Reaches now m r.core { r with heartbeatElapsed := 0 }.bcastHeartbeat core
      fun _ => True :=
    (Reaches.of_sends (onlySends_bcastHeartbeat (by exact leads))).mono fun _ _ => ⟨rfl, trivial⟩
  exact (reaches_done beats).bind fun _ _ => ⟨.refl, trivial⟩

/-- `tick` is a sequence of small actions, as if the node handled a `MsgHup`. -/
theorem reaches_tick {r : Raft} (type : m.type = .msgHup)
    : Reaches now m r.core r.tick core fun _ => True := by
  unfold tick
  split
  · rename_i leads
    unfold tickHeartbeat
    refine Ends.ite (fun _ => ?_) fun _ => ?_
    · exact (reaches_checkLeadership type (by exact leads)).bind fun _ _ => reaches_beat
    · exact reaches_beat
  · exact reaches_tickElection type

end Raft

end EtcdRaft
