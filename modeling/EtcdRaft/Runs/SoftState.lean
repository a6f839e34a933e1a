import EtcdRaft.Refinement.Followers

/-! How the soft state of a node changes. Whatever changes it also sends a message or
starts a term, unless the node becomes a follower without a leader.
-/

namespace EtcdRaft

namespace Raft

-----------------------------------------------------------------------------------------
-- An unchanged soft state
-----------------------------------------------------------------------------------------

/-- How much waits for the next `Ready`: messages and answered reads. -/
def noise (r : Raft) : Nat := r.msgs.length + r.msgsAfterAppend.length + r.readStates.length

/-- The node may have more to hand out; its term and its soft state are the same. -/
structure Still (r r' : Raft) : Prop where
  noise : r.noise ≤ r'.noise
  term : r'.term = r.term
  soft : r'.softState = r.softState

theorem Still.refl (r : Raft) : r.Still r := ⟨Nat.le_refl _, rfl, rfl⟩

theorem Still.trans {r₁ r₂ r₃ : Raft} (first : r₁.Still r₂) (second : r₂.Still r₃) : r₁.Still r₃ :=
  ⟨first.noise.trans second.noise, second.term.trans first.term, second.soft.trans first.soft⟩

/-- The node that a call returns. -/
abbrev self (r : Raft) : Raft := r

instance : IsTrans Raft Still := ⟨fun _ _ _ => Still.trans⟩

/-- The call leaves the soft state as it is. -/
abbrev Stills {α : Type} (r : Raft) (x : Result α) (node : α → Raft) : Prop := Leads Still r x node

-----------------------------------------------------------------------------------------
-- Changes of the soft state
-----------------------------------------------------------------------------------------

/-- The soft state of a follower that knows no leader. -/
def idle : SoftState := { lead := none64, raftState := .stateFollower }

/-- The soft state changes along with a message or a new term, or becomes that of an idle
follower.
-/
structure Drifts (r r' : Raft) : Prop where
  noise : r.noise ≤ r'.noise
  term : r.term ≤ r'.term
  soft : r.noise < r'.noise ∨ r.term < r'.term ∨ r'.softState = r.softState ∨ r'.softState = idle

/-- The node has more to hand out. -/
structure Louder (r r' : Raft) : Prop where
  noise : r.noise < r'.noise
  term : r.term ≤ r'.term

theorem Still.drifts {r r' : Raft} (still : r.Still r') : r.Drifts r' :=
  ⟨still.noise, still.term.ge, .inr (.inr (.inl still.soft))⟩

theorem Louder.drifts {r r₁ r' : Raft} (louder : r₁.Louder r')
    (noise : r.noise ≤ r₁.noise) (term : r.term ≤ r₁.term)
    : r.Drifts r' :=
  ⟨noise.trans louder.noise.le, term.trans louder.term,
    .inl (Nat.lt_of_le_of_lt noise louder.noise)⟩

theorem Drifts.refl (r : Raft) : r.Drifts r := (Still.refl r).drifts

theorem Drifts.of_same {r r' : Raft} (noise : r'.noise = r.noise)
    (term : r'.term = r.term) (soft : r'.softState = r.softState)
    : r.Drifts r' :=
  Still.drifts ⟨noise.ge, term, soft⟩

theorem Drifts.trans {r₁ r₂ r₃ : Raft} (first : r₁.Drifts r₂) (second : r₂.Drifts r₃)
    : r₁.Drifts r₃ where
  noise := first.noise.trans second.noise
  term := first.term.trans second.term
  soft := by
    have noise := first.noise
    have noise' := second.noise
    have term := first.term
    have term' := second.term
    rcases first.soft with louder | later | soft
    · exact .inl (by omega)
    · exact .inr (.inl (by omega))
    · rcases second.soft with louder | later | same | idle
      · exact .inl (by omega)
      · exact .inr (.inl (by omega))
      · exact .inr (.inr (same ▸ soft))
      · exact .inr (.inr (.inr idle))

instance : IsTrans Raft Drifts := ⟨fun _ _ _ => Drifts.trans⟩

/-- The call changes the soft state like this. -/
abbrev Drifting {α : Type} (r : Raft) (x : Result α) (node : α → Raft) : Prop :=
  Leads Drifts r x node

/-- The call returns no error of `Step`. -/
theorem Drifting.done {r : Raft} {x : Result Raft} (hx : r.Drifting x self)
    : r.Drifting (x >>= Raft.done) Prod.fst :=
  hx.bind fun r => Drifts.refl r

theorem Stills.drifting {α : Type} {r : Raft} {x : Result α} {node : α → Raft}
    (hx : r.Stills x node)
    : r.Drifting x node :=
  hx.mono fun _ still => still.drifts

-----------------------------------------------------------------------------------------
-- Calls that leave the soft state as it is
-----------------------------------------------------------------------------------------

theorem noise_send (r : Raft) (m : Message)
    : Ends (r.send m) (fun r' => r.Still r' ∧ r.noise < r'.noise) fun _ => True := by
  unfold send
  refine Ends.bind (q := fun _ => True) (.of_eq (fun _ _ => trivial) fun _ _ => trivial) ?_
  intro m _
  refine Ends.ite (fun _ => ?_) fun _ => ?_
  · have more : r.noise < noise { r with
        msgsAfterAppend := r.msgsAfterAppend ++ [{ m with origin := r.raftLog.logical }] } := by
      simp only [noise, List.length_append, List.length_singleton]
      omega
    exact ⟨⟨more.le, rfl, rfl⟩, more⟩
  · refine Ends.ite (fun _ => trivial) fun _ => ?_
    have more : r.noise < noise { r with msgs := r.msgs ++ [m] } := by
      simp only [noise, List.length_append, List.length_singleton]
      omega
    exact ⟨⟨more.le, rfl, rfl⟩, more⟩

theorem stills_send (r : Raft) (m : Message) : r.Stills (r.send m) self :=
  (r.noise_send m).mono (fun _ sent => sent.1) fun _ _ => trivial

theorem still_setProgress (r : Raft) (id : Nat) (pr : Progress) : r.Still (r.setProgress id pr) :=
  ⟨Nat.le_refl _, rfl, rfl⟩

variable [Codec]

omit [Codec] in
theorem stills_maybeSendSnapshot (r : Raft) (toId : Nat) (pr : Progress)
    : r.Stills (r.maybeSendSnapshot toId pr) Prod.fst := by
  unfold maybeSendSnapshot
  refine .ite (.refl r) ?_
  dsimp only
  refine .ite trivial ?_
  exact Leads.since ((stills_send _ _).bind fun r => Still.refl r) (r.still_setProgress _ _)

theorem stills_sendEntries (r : Raft) (toId : Nat) (pr : Progress) (prevTerm : Nat)
    (sendIfEmpty : Bool) (ents : Except StorageError (List Entry))
    : r.Stills (r.sendEntries toId pr prevTerm sendIfEmpty ents) Prod.fst := by
  unfold sendEntries
  split
  · exact .ite (.refl r) (r.stills_maybeSendSnapshot toId pr)
  · refine .ite (.refl r) ((stills_send _ _).bind fun r => .skip fun pr => ?_)
    exact r.still_setProgress _ _

theorem stills_maybeSendAppend (r : Raft) (toId : Nat) (sendIfEmpty : Bool)
    : r.Stills (r.maybeSendAppend toId sendIfEmpty) Prod.fst := by
  unfold maybeSendAppend
  split
  · trivial
  · refine .ite (.refl r) ?_
    split
    · exact r.stills_maybeSendSnapshot toId _
    · refine .ite (.skip fun ents => ?_) ?_
      · exact r.stills_sendEntries _ _ _ _ _
      · exact r.stills_sendEntries _ _ _ _ _

theorem stills_sendAppend (r : Raft) (toId : Nat) : r.Stills (r.sendAppend toId) self :=
  (r.stills_maybeSendAppend toId true).bind fun sent => .refl sent.1

theorem stills_sendAppendLoop (toId fuel : Nat) (r : Raft)
    : r.Stills (sendAppendLoop toId fuel r) self := by
  induction fuel generalizing r with
  | zero => exact .refl r
  | succ fuel ih =>
      unfold sendAppendLoop
      exact (r.stills_maybeSendAppend toId false).bind fun sent => .ite (ih _) (.refl _)

omit [Codec] in
theorem stills_visitPeers (r : Raft) {f : Raft → Nat → Result Raft}
    (each : ∀ (r : Raft) id, r.Stills (f r id) self)
    : r.Stills (r.visitPeers f) self := by
  unfold visitPeers
  exact .foldlM (.refl r) fun r peer => .ite (.refl r) (each r peer)

theorem stills_bcastAppend (r : Raft) : r.Stills r.bcastAppend self :=
  r.stills_visitPeers stills_sendAppend

omit [Codec] in
theorem stills_sendHeartbeat (r : Raft) (toId : Nat) (ctx : List UInt8)
    : r.Stills (r.sendHeartbeat toId ctx) self := by
  unfold sendHeartbeat
  split
  · trivial
  · exact (stills_send _ _).bind fun r => r.still_setProgress _ _

omit [Codec] in
theorem stills_bcastHeartbeatWithCtx (r : Raft) (ctx : List UInt8)
    : r.Stills (r.bcastHeartbeatWithCtx ctx) self :=
  r.stills_visitPeers fun r id => r.stills_sendHeartbeat id ctx

-----------------------------------------------------------------------------------------
-- The leader
-----------------------------------------------------------------------------------------

omit [Codec] in
theorem stills_responseToReadIndexReq (r : Raft) (req : Message) (readIndex : Nat)
    : r.Stills (r.responseToReadIndexReq req readIndex) Prod.fst := by
  unfold responseToReadIndexReq
  refine .ite ?_ (.refl r)
  split
  · trivial
  · refine ⟨?_, rfl, rfl⟩
    simp only [noise, List.length_append]
    omega

omit [Codec] in
theorem stills_answerReadIndexReq (r : Raft) (req : Message) (readIndex : Nat)
    : r.Stills (r.answerReadIndexReq req readIndex) self := by
  refine (r.stills_responseToReadIndexReq req readIndex).bind fun answer => ?_
  split
  · exact .refl _
  · exact stills_send _ _

omit [Codec] in
theorem stills_sendMsgReadIndexResponse (r : Raft) (m : Message)
    : r.Stills (r.sendMsgReadIndexResponse m) self := by
  unfold sendMsgReadIndexResponse
  split
  · refine .skip fun readOnly => ?_
    exact (stills_bcastHeartbeatWithCtx _ _).since ⟨Nat.le_refl _, rfl, rfl⟩
  · exact r.stills_answerReadIndexReq _ _

omit [Codec] in
theorem stills_releasePendingReadIndexMessages (r : Raft)
    : r.Stills r.releasePendingReadIndexMessages self := by
  unfold releasePendingReadIndexMessages
  refine .ite (.refl r) (.ite (.refl r) ?_)
  exact (Leads.foldlM (.refl _) stills_sendMsgReadIndexResponse).since ⟨Nat.le_refl _, rfl, rfl⟩

omit [Codec] in
theorem stills_maybeCommit (r : Raft) : r.Stills r.maybeCommit Prod.fst :=
  .skip fun _ => ⟨Nat.le_refl _, rfl, rfl⟩

theorem stills_announceCommit (r : Raft) (committed : Bool)
    : r.Stills (r.announceCommit committed) self := by
  unfold announceCommit
  refine .ite r.stills_bcastAppend (r.stills_visitPeers fun r id => ?_)
  exact (r.stills_maybeSendAppend id false).bind fun sent => .refl sent.1

theorem stills_stepLeaderAppReject (r : Raft) (m : Message) (pr : Progress)
    : r.Stills (r.stepLeaderAppReject m pr) self := by
  unfold stepLeaderAppReject
  dsimp only
  exact .ite ((stills_sendAppend _ _).since (r.still_setProgress _ _)) (.refl r)

theorem stills_announceAck (r : Raft) (m : Message) (pr : Progress) (committed : Bool)
    : r.Stills (r.announceAck m pr committed) self := by
  unfold announceAck
  refine .ite ?_ (.ite (r.stills_sendAppend _) (.refl r))
  exact r.stills_releasePendingReadIndexMessages.bind stills_bcastAppend

omit [Codec] in
theorem stills_finishTransfer (r : Raft) (m : Message) (pr : Progress)
    : r.Stills (r.finishTransfer m pr) self := by
  unfold finishTransfer
  exact .ite (r.stills_send _) (.refl r)

theorem stills_stepLeaderAppAck (r : Raft) (m : Message) (pr : Progress)
    : r.Stills (r.stepLeaderAppAck m pr) self := by
  unfold stepLeaderAppAck
  dsimp only
  refine .ite (.skip fun pr => ?_) (.refl r)
  refine ((stills_maybeCommit _).bind fun committed => ?_).since (r.still_setProgress _ _)
  refine (stills_announceAck _ _ _ _).bind fun r => .ite ?_ (r.stills_finishTransfer _ _)
  exact (stills_sendAppendLoop _ _ _).bind fun r => r.stills_finishTransfer _ _

theorem stills_stepLeaderAppResp (r : Raft) (m : Message) (pr : Progress)
    : r.Stills (r.stepLeaderAppResp m pr) self := by
  unfold stepLeaderAppResp
  dsimp only
  refine .ite ?_ ?_
  · exact (stills_stepLeaderAppReject _ _ _).since (r.still_setProgress _ _)
  · exact (stills_stepLeaderAppAck _ _ _).since (r.still_setProgress _ _)

theorem stills_catchUp (r : Raft) (id : Nat) (pr : Progress)
    : r.Stills (r.catchUp id pr) self := by
  unfold catchUp
  exact .ite (r.stills_sendAppend id) (.refl r)

omit [Codec] in
theorem stills_confirmReads (r : Raft) (m : Message)
    : r.Stills (r.confirmReads m) self := by
  unfold confirmReads
  refine .skip fun readOnly => .skip fun reads => ?_
  refine Leads.since (Leads.foldlM (.refl _) fun r rs => ?_) ⟨Nat.le_refl _, rfl, rfl⟩
  exact r.stills_answerReadIndexReq _ _

theorem stills_stepLeaderHeartbeatResp (r : Raft) (m : Message) (pr : Progress)
    : r.Stills (r.stepLeaderHeartbeatResp m pr) self := by
  unfold stepLeaderHeartbeatResp
  refine ((stills_catchUp _ _ _).bind fun r => ?_).since (r.still_setProgress _ _)
  exact .ite (.refl r) (r.stills_confirmReads m)

theorem stills_stepLeaderTransfer (r : Raft) (m : Message) (pr : Progress)
    : r.Stills (r.stepLeaderTransfer m pr) self := by
  unfold stepLeaderTransfer
  dsimp only
  refine .ite (.refl r) (.ite (.refl r) ?_)
  have aborted : r.Still (if r.leadTransferee ≠ none64 then r.abortLeaderTransfer else r) := by
    split
    · exact ⟨Nat.le_refl _, rfl, rfl⟩
    · exact .refl r
  refine Leads.since ?_ aborted
  generalize (if r.leadTransferee ≠ none64 then r.abortLeaderTransfer else r) = r
  refine .ite (.refl r) (.ite ?_ ?_)
  · exact (stills_send _ _).since ⟨Nat.le_refl _, rfl, rfl⟩
  · exact (stills_sendAppend _ _).since ⟨Nat.le_refl _, rfl, rfl⟩

theorem stills_stepLeaderPeer (r : Raft) (m : Message) (pr : Progress)
    : r.Stills (r.stepLeaderPeer m pr) self := by
  unfold stepLeaderPeer
  split
  · exact r.stills_stepLeaderAppResp m pr
  · exact r.stills_stepLeaderHeartbeatResp m pr
  · unfold stepLeaderSnapStatus
    split
    · exact .refl r
    · exact r.still_setProgress _ _
  · show r.Still _
    split
    · exact r.still_setProgress _ _
    · exact .refl r
  · exact r.stills_stepLeaderTransfer m pr
  · exact .refl r

omit [Codec] in
/-- The leader appends entries; unless it refuses them, it has something to say. -/
theorem noise_appendEntry (r : Raft) (es : List Entry)
    : Ends (r.appendEntry es) (fun res => r.Still res.1 ∧ (res.2 = true → r.noise < res.1.noise))
        fun _ => True := by
  unfold appendEntry increaseUncommittedSize
  dsimp only
  split
  · exact ⟨.refl r, nofun⟩
  · simp only [Bool.not_true, Bool.false_eq_true, if_false]
    refine Ends.bind (q := fun _ => True) (.of_eq (fun _ _ => trivial) fun _ _ => trivial) ?_
    intro raftLog _
    refine Ends.bind (noise_send _ _) fun r' sent => ?_
    obtain ⟨⟨noise, term, soft⟩, more⟩ := sent
    exact ⟨⟨noise, term, soft⟩, fun _ => more⟩

theorem stills_checkProposal (r : Raft) (i : Nat) (e : Entry)
    : r.Stills (r.checkProposal i e) Prod.fst := by
  unfold checkProposal
  refine .skip fun change => ?_
  split
  · exact .refl r
  · dsimp only
    exact .ite (.refl r) ⟨Nat.le_refl _, rfl, rfl⟩

theorem stills_checkProposals (r : Raft) (i : Nat) (es : List Entry)
    : r.Stills (r.checkProposals i es) Prod.fst := by
  induction es generalizing r i with
  | nil => exact .refl r
  | cons e rest ih =>
      unfold checkProposals
      exact (r.stills_checkProposal i e).bind fun first => (ih first.1 (i + 1)).bind fun later =>
        Still.refl later.1

theorem stills_stepLeaderProp (r : Raft) (m : Message)
    : r.Stills (r.stepLeaderProp m) Prod.fst := by
  unfold stepLeaderProp
  refine .ite trivial (.ite (.refl r) (.ite (.refl r) ?_))
  refine (r.stills_checkProposals 0 m.entries).bind fun checked => ?_
  have appends : Stills checked.1 (checked.1.appendEntry checked.2) Prod.fst :=
    (checked.1.noise_appendEntry checked.2).mono (fun _ known => known.1) fun _ _ => trivial
  refine appends.bind fun appended => .ite (.refl _) ?_
  exact (stills_bcastAppend _).bind fun r => Still.refl r

omit [Codec] in
theorem stills_stepLeaderReadIndex (r : Raft) (m : Message)
    : r.Stills (r.stepLeaderReadIndex m) self := by
  unfold stepLeaderReadIndex
  refine .ite (r.stills_answerReadIndexReq _ _) (.ite ⟨Nat.le_refl _, rfl, rfl⟩ ?_)
  exact r.stills_sendMsgReadIndexResponse m

-----------------------------------------------------------------------------------------
-- Calls that may change the soft state
-----------------------------------------------------------------------------------------

omit [Codec] in
theorem noise_reset (r : Raft) (term : Nat) : (r.reset term).noise = r.noise := by
  unfold reset resetRandomizedElectionTimeout intn
  dsimp only
  split <;> split <;> rfl

omit [Codec] in
theorem term_reset (r : Raft) (term : Nat) : (r.reset term).term = term := by
  unfold reset resetRandomizedElectionTimeout intn
  dsimp only
  split <;> split <;> simp_all [abortLeaderTransfer]

omit [Codec] in
/-- The node becomes a follower in a new term, or without a leader. -/
theorem drifts_becomeFollower (r : Raft) {term lead : Nat}
    (later : r.term < term ∨ term = r.term ∧ lead = none64)
    : r.Drifts (r.becomeFollower term lead) where
  noise := (r.noise_reset term).ge
  term := by
    show r.term ≤ (r.reset term).term
    rw [r.term_reset term]
    omega
  soft := by
    rcases later with later | ⟨rfl, rfl⟩
    · refine .inr (.inl ?_)
      show r.term < (r.reset term).term
      rw [r.term_reset term]
      exact later
    · exact .inr (.inr (.inr rfl))

theorem drifting_stepLeader (r : Raft) (m : Message)
    : r.Drifting (r.stepLeader m) Prod.fst := by
  unfold stepLeader
  split
  · exact (r.stills_bcastHeartbeatWithCtx _).drifting.done
  · have checked
        : r.Drifts (if !r.trk.quorumActive then r.becomeFollower r.term none64 else r) := by
      split
      · exact r.drifts_becomeFollower (.inr ⟨rfl, rfl⟩)
      · exact .refl r
    exact checked.trans (.of_same rfl rfl rfl)
  · exact (r.stills_stepLeaderProp m).drifting
  · exact (r.stills_stepLeaderReadIndex m).drifting.done
  · exact .refl r
  · split
    · exact .refl r
    · exact (r.stills_stepLeaderPeer m _).drifting.done

theorem drifting_reactToConfig (r : Raft) : r.Drifting r.reactToConfig self := by
  unfold reactToConfig
  refine .ite ?_ (.ite (.refl r) ?_)
  · show r.Drifts _
    split
    · exact r.drifts_becomeFollower (.inr ⟨rfl, rfl⟩)
    · exact .refl r
  · refine Stills.drifting (r.stills_maybeCommit.bind fun committed => ?_)
    exact (stills_announceCommit _ _).bind fun r => .ite ⟨Nat.le_refl _, rfl, rfl⟩ (Still.refl r)

theorem drifting_switchToConfig (r : Raft) (cfg : TrackerConfig) (trk : ProgressMap)
    : r.Drifting (r.switchToConfig cfg trk) Prod.fst := by
  unfold switchToConfig
  refine Leads.since ((drifting_reactToConfig _).bind fun r => Drifts.refl r) ?_
  exact (.of_same rfl rfl rfl)

theorem drifting_applyConfChange (r : Raft) (cc : ConfChangeV2)
    : r.Drifting (r.applyConfChange cc) Prod.fst :=
  .skip fun _ => r.drifting_switchToConfig _ _

-----------------------------------------------------------------------------------------
-- Messages of a leader
-----------------------------------------------------------------------------------------

omit [Codec] in
theorem louder_send (r : Raft) (m : Message) : Ends (r.send m) r.Louder fun _ => True :=
  (r.noise_send m).mono (fun _ sent => ⟨sent.2, sent.1.term.ge⟩) fun _ _ => trivial

omit [Codec] in
theorem louder_handleAppendEntries (r : Raft) (m : Message)
    : Ends (r.handleAppendEntries m) r.Louder fun _ => True := by
  have send (raftLog : RaftLog) (resp : Message)
      : Ends ({ r with raftLog := raftLog }.send resp) r.Louder fun _ => True :=
    (louder_send _ resp).mono (fun _ louder => ⟨louder.noise, louder.term⟩) fun _ _ => trivial
  unfold handleAppendEntries
  refine Ends.ite (fun _ => r.louder_send _) fun _ => ?_
  refine Ends.bind (q := fun _ => True) (.of_eq (fun _ _ => trivial) fun _ _ => trivial) ?_
  intro res _
  split
  · exact send _ _
  · exact send _ _

omit [Codec] in
theorem louder_handleHeartbeat (r : Raft) (m : Message)
    : Ends (r.handleHeartbeat m) r.Louder fun _ => True := by
  unfold handleHeartbeat
  refine Ends.bind (q := fun _ => True) (.of_eq (fun _ _ => trivial) fun _ _ => trivial) ?_
  intro raftLog _
  exact (louder_send _ _).mono (fun _ louder => ⟨louder.noise, louder.term⟩) fun _ _ => trivial

theorem drifting_restore {r : Raft} (follower : r.state = .stateFollower) (s : Snapshot)
    : r.Drifting (r.restore s) Prod.fst := by
  unfold restore
  rw [if_neg (not_not.mpr follower)]
  refine .ite (.refl r) ?_
  refine .ite (.refl r) (.ite (.skip fun raftLog => ?_) (.skip fun conf => ?_))
  · exact (.of_same rfl rfl rfl)
  · refine Leads.since ((drifting_switchToConfig _ _ _).bind fun switched => ?_) ?_
    · exact .skip fun _ => Drifts.refl _
    · exact (.of_same rfl rfl rfl)

theorem louder_handleSnapshot {r : Raft} (follower : r.state = .stateFollower)
    (m : Message)
    : Ends (r.handleSnapshot m) r.Louder fun _ => True := by
  unfold handleSnapshot
  refine Ends.bind (drifting_restore follower _) fun res drifts => ?_
  split
  all_goals
    exact (louder_send _ _).mono (fun _ louder =>
      ⟨Nat.lt_of_le_of_lt drifts.noise louder.noise, drifts.term.trans louder.term⟩)
      fun _ _ => trivial

-----------------------------------------------------------------------------------------
-- Elections
-----------------------------------------------------------------------------------------

omit [Codec] in
theorem noise_requestVote (t : CampaignType) (r : Raft) (id : Nat)
    : Ends (requestVote t r id) (fun r' => r.Still r' ∧ r.noise < r'.noise) fun _ => True := by
  unfold requestVote
  refine Ends.ite (fun _ => r.noise_send _) fun _ => ?_
  refine Ends.bind (q := fun _ => True) (.of_eq (fun _ _ => trivial) fun _ _ => trivial) ?_
  exact fun last _ => r.noise_send _

omit [Codec] in
theorem stills_requestVotes (t : CampaignType) (r : Raft) (ids : List Nat)
    : r.Stills (ids.foldlM (requestVote t) r) self :=
  .foldlM (.refl r) fun r id =>
    (noise_requestVote t r id).mono (fun _ sent => sent.1) fun _ _ => trivial

omit [Codec] in
/-- A campaign for a pre-vote asks someone, if there are voters. -/
theorem drifting_campaign (r : Raft) (t : CampaignType)
    (voters : t = .campaignPreElection → r.trk.config.voters.ids.keys ≠ [])
    : r.Drifting (r.campaign t) self := by
  unfold campaign becomeCampaigner
  by_cases pre : t = .campaignPreElection
  · rw [if_pos pre]
    have voters := voters pre
    unfold becomePreCandidate
    split
    · trivial
    · show r.Drifting (List.foldlM _ _ r.trk.config.voters.ids.keys) self
      cases ids : r.trk.config.voters.ids.keys with
      | nil => exact absurd ids voters
      | cons id rest =>
          rw [List.foldlM_cons]
          refine Ends.bind (noise_requestVote t _ id) fun r₁ sent => ?_
          refine Ends.mono (stills_requestVotes t r₁ rest) (fun r₂ still => ?_) fun _ _ => trivial
          have louder : r.noise < r₁.noise := sent.2
          have term : r₁.term = r.term := sent.1.term
          exact ⟨louder.le.trans still.noise, (still.term.trans term).ge,
            .inl (Nat.lt_of_lt_of_le louder still.noise)⟩
  · rw [if_neg pre]
    refine Ends.bind (r.ends_becomeCandidate.mono (fun _ h => h) fun _ _ => trivial) ?_
    rintro _ ⟨_, rfl⟩
    refine Leads.since (stills_requestVotes t _ _).drifting ?_
    have noise := r.noise_reset (r.term + 1)
    have term := r.term_reset (r.term + 1)
    refine ⟨noise.ge, ?_, .inr (.inl ?_)⟩
    · show r.term ≤ (r.reset (r.term + 1)).term
      omega
    · show r.term < (r.reset (r.term + 1)).term
      omega

/-- A node that may campaign has someone to ask. -/
def HasVoters (r : Raft) : Prop := r.promotable = true → r.trk.config.voters.ids.keys ≠ []

theorem drifting_hup (r : Raft) (t : CampaignType)
    (voters : r.HasVoters)
    : r.Drifting (r.hup t) self := by
  unfold hup
  refine .ite (.refl r) ?_
  by_cases promotable : r.promotable = true
  · rw [promotable]
    refine .ite (.refl r) (.skip fun unapplied => .ite (.refl r) ?_)
    exact r.drifting_campaign t fun _ => voters promotable
  · rw [Bool.not_eq_true] at promotable
    rw [promotable]
    exact .refl r

omit [Codec] in
theorem takeLeadership_same (r : Raft)
    : Ends r.takeLeadership (fun r' => r'.noise = r.noise ∧ r'.term = r.term) fun _ => True := by
  have noise := r.noise_reset r.term
  have term := r.term_reset r.term
  unfold takeLeadership
  generalize r.reset r.term = r' at *
  dsimp only
  split
  · trivial
  · exact ⟨noise, term⟩

omit [Codec] in
theorem louder_becomeLeader (r : Raft) : Ends r.becomeLeader r.Louder fun _ => True := by
  unfold becomeLeader
  refine Ends.ite (fun _ => trivial) fun _ => ?_
  refine Ends.bind r.takeLeadership_same fun r' same => ?_
  refine Ends.bind (r'.noise_appendEntry _) fun appended known => ?_
  obtain ⟨still, louder⟩ := known
  refine Ends.ite (fun _ => trivial) fun done => ?_
  have louder := louder (by simpa using done)
  exact ⟨same.1 ▸ louder, (still.term.trans same.2).ge⟩

theorem drifting_concludePoll (r : Raft) (res : VoteResult)
    : r.Drifting (r.concludePoll res) Prod.fst := by
  unfold concludePoll
  cases res with
  | voteWon =>
      refine .ite (r.drifting_campaign .campaignElection nofun).done ?_
      refine Ends.bind r.louder_becomeLeader fun r' louder => ?_
      exact (r'.stills_bcastAppend.drifting.done).since
        (louder.drifts (Nat.le_refl _) (Nat.le_refl _))
  | voteLost => exact r.drifts_becomeFollower (.inr ⟨rfl, rfl⟩)
  | votePending => exact .refl r

omit [Codec] in
/-- The message of a leader is handled after the node has changed its soft state. -/
theorem drifting_of_louder {r r₁ : Raft} {x : Result Raft}
    (louder : Ends x r₁.Louder fun _ => True) (noise : r.noise ≤ r₁.noise)
    (term : r.term ≤ r₁.term)
    : r.Drifting (x >>= Raft.done) Prod.fst :=
  Ends.bind louder fun _ louder => louder.drifts noise term

theorem drifting_stepCandidate (r : Raft) (m : Message)
    (current : m.type = .msgApp ∨ m.type = .msgHeartbeat ∨ m.type = .msgSnap → r.term ≤ m.term)
    : r.Drifting (r.stepCandidate m) Prod.fst := by
  have noise := (r.noise_reset m.term).ge
  have term (leader : m.type = .msgApp ∨ m.type = .msgHeartbeat ∨ m.type = .msgSnap)
      : r.term ≤ (r.reset m.term).term := by
    rw [r.term_reset]
    exact current leader
  unfold stepCandidate
  split
  · exact .refl r
  · rename_i type
    exact drifting_of_louder (louder_handleAppendEntries _ m) noise (term (.inl type))
  · rename_i type
    exact drifting_of_louder (louder_handleHeartbeat _ m) noise (term (.inr (.inl type)))
  · rename_i type
    exact drifting_of_louder (louder_handleSnapshot rfl m) noise (term (.inr (.inr type)))
  · refine .ite ?_ (.refl r)
    refine Leads.since (drifting_concludePoll _ _) ?_
    exact (.of_same rfl rfl rfl)

theorem drifting_stepFollower (r : Raft) (m : Message)
    (follower : r.state = .stateFollower) (voters : r.HasVoters)
    : r.Drifting (r.stepFollower m) Prod.fst := by
  have forward : r.Drifting (r.forward m) Prod.fst := (r.stills_send _).drifting.done
  unfold stepFollower
  split
  · exact .ite (.refl r) (.ite (.refl r) forward)
  · exact drifting_of_louder (louder_handleAppendEntries _ m) (Nat.le_refl _) (Nat.le_refl _)
  · exact drifting_of_louder (louder_handleHeartbeat _ m) (Nat.le_refl _) (Nat.le_refl _)
  · exact drifting_of_louder (louder_handleSnapshot (by exact follower) m) (Nat.le_refl _)
      (Nat.le_refl _)
  · exact .ite (.refl r) forward
  · refine .ite (.refl r) ⟨Nat.le_refl _, Nat.le_refl _, .inr (.inr (.inr ?_))⟩
    show SoftState.mk none64 r.state = idle
    rw [follower]
    rfl
  · exact (r.drifting_hup _ voters).done
  · exact .ite (.refl r) forward
  · split
    · refine ⟨?_, Nat.le_refl _, .inr (.inr (.inl rfl))⟩
      simp only [noise, List.length_append]
      omega
    · exact .refl r
  · exact .refl r

-----------------------------------------------------------------------------------------
-- `Step` and `Tick`
-----------------------------------------------------------------------------------------

theorem drifting_appliedTo (r : Raft) (index size : Nat)
    : r.Drifting (r.appliedTo index size) self := by
  unfold appliedTo
  refine .skip fun raftLog => ?_
  refine Leads.since (.ite ((drifting_stepLeader _ _).bind fun stepped => Drifts.refl _) ?_)
    (.of_same rfl rfl rfl)
  exact Drifts.refl _

theorem drifting_appliedSnapOf (r : Raft) (snap : Option Snapshot)
    : r.Drifting (r.appliedSnapOf snap) self := by
  unfold appliedSnapOf
  split
  · exact (drifting_appliedTo _ _ _).since (.of_same rfl rfl rfl)
  · exact .refl r

omit [Codec] in
theorem stills_handleVote (r : Raft) (m : Message) : r.Stills (r.handleVote m) self := by
  unfold handleVote
  refine .skip fun upToDate => .ite ((r.stills_send _).bind fun r => ?_) (r.stills_send _)
  show r.Still _
  split
  · exact ⟨Nat.le_refl _, rfl, rfl⟩
  · exact .refl r

theorem drifting_stepMessage (r : Raft) (m : Message)
    (current : m.type = .msgApp ∨ m.type = .msgHeartbeat ∨ m.type = .msgSnap → r.term ≤ m.term)
    (voters : r.HasVoters)
    : r.Drifting (r.stepMessage m) Prod.fst := by
  unfold stepMessage
  split
  · exact (r.drifting_hup _ voters).done
  · dsimp only
    refine Leads.since (drifting_appliedSnapOf _ _).done ?_
    split
    · exact (.of_same rfl rfl rfl)
    · exact .refl r
  · split
    · exact .refl r
    · refine (r.drifting_appliedTo _ _).bind fun r => ?_
      exact (.of_same rfl rfl rfl)
  · exact (r.stills_handleVote m).drifting.done
  · exact (r.stills_handleVote m).drifting.done
  · unfold stepRole
    split
    · rename_i follower
      exact r.drifting_stepFollower m follower voters
    · exact r.drifting_stepCandidate m current
    · exact r.drifting_stepCandidate m current
    · exact r.drifting_stepLeader m

omit [Codec] in
theorem promotable_eq (r : Raft)
    : r.promotable
      = ((r.core.progress r.id).any (fun pr => !pr.2)
        && !r.raftLog.hasNextOrInProgressSnapshot) := by
  simp only [promotable, core, progressOf]
  cases r.trk.progress.get? r.id <;> simp

omit [Codec] in
theorem HasVoters.becomeFollower {r : Raft} (voters : r.HasVoters) (term lead : Nat)
    : (r.becomeFollower term lead).HasVoters := by
  have core := r.core_reset term
  have config : (r.becomeFollower term lead).trk.config = r.trk.config :=
    congrArg Core.config core
  have raftLog : (r.becomeFollower term lead).raftLog = r.raftLog :=
    congrArg Core.raftLog core
  have progress : (r.becomeFollower term lead).core.progress (r.becomeFollower term lead).id
      = (r.core.progress r.id).map fun pr => (r.raftLog.lastIndex, pr.2) := by
    have id : (r.becomeFollower term lead).id = r.id := congrArg Core.id core
    rw [id]
    refine (congrFun (congrArg Core.progress core) r.id).trans ?_
    simp only [Core.reset, Raft.core, if_true]
  unfold HasVoters at *
  rw [promotable_eq, progress, raftLog, config]
  rw [promotable_eq] at voters
  cases found : r.core.progress r.id <;> simp_all

theorem drifting_stepLowerTerm (r : Raft) (m : Message)
    : r.Drifting (r.stepLowerTerm m) self := by
  unfold stepLowerTerm
  refine .ite (r.stills_send _).drifting (.ite (r.stills_send _).drifting ?_)
  exact .ite (r.drifting_appliedSnapOf _) (.refl r)

omit [Codec] in
/-- A message of a higher term makes the node a follower in that term, unless it is about
a pre-vote.
-/
theorem adoptTerm_cases (r : Raft) (m : Message)
    : (r.adoptTerm m = r ∧ (m.type = .msgPreVote ∨ m.type = .msgPreVoteResp))
      ∨ ∃ lead, r.adoptTerm m = r.becomeFollower m.term lead := by
  unfold adoptTerm
  split
  · rename_i type
    exact .inl ⟨rfl, .inl type⟩
  split
  · rename_i granted
    exact .inl ⟨rfl, .inr granted.1⟩
  split
  · exact .inr ⟨m.fromId, rfl⟩
  · exact .inr ⟨none64, rfl⟩

theorem drifting_step (r : Raft) (m : Message)
    (termed : m.type.termed = true → m.term ≠ 0) (voters : r.HasVoters)
    : r.Drifting (r.step m) Prod.fst := by
  unfold step
  by_cases none : m.term = 0
  · rw [if_pos none]
    refine r.drifting_stepMessage m (fun leader => absurd none (termed ?_)) voters
    rcases leader with type | type | type <;> rw [type] <;> rfl
  rw [if_neg none]
  by_cases newer : m.term > r.term
  · rw [if_pos newer]
    refine .ite (.refl r) ?_
    rcases r.adoptTerm_cases m with ⟨same, type⟩ | ⟨lead, adopted⟩
    · rw [same]
      refine r.drifting_stepMessage m (fun leader => ?_) voters
      rcases type with type | type <;> rw [type] at leader <;> simp at leader
    · rw [adopted]
      refine Leads.since (drifting_stepMessage _ m (fun _ => ?_) (voters.becomeFollower _ _))
        (r.drifts_becomeFollower (.inl newer))
      exact (r.term_reset m.term).le
  · rw [if_neg newer]
    by_cases older : m.term < r.term
    · rw [if_pos older]
      exact (r.drifting_stepLowerTerm m).done
    · rw [if_neg older]
      exact r.drifting_stepMessage m (fun _ => Nat.le_of_not_lt older) voters

theorem drifting_stepLocal (r : Raft) {type : MessageType}
    (untermed : type.termed = false) (voters : r.HasVoters)
    : r.Drifting (r.stepLocal type) self := by
  refine (r.drifting_step { type := type, fromId := r.id } (fun termed => ?_) voters).bind
    fun stepped => Drifts.refl _
  exact absurd (untermed.symm.trans termed) nofun

/-- The two messages of a leader's tick. -/
theorem drifting_stepLocal_leader (r : Raft) {type : MessageType}
    (tick : type = .msgBeat ∨ type = .msgCheckQuorum) (leads : r.state = .stateLeader)
    : r.Drifting (r.stepLocal type) self := by
  have steps : r.step { type := type, fromId := r.id }
      = r.stepLeader { type := type, fromId := r.id } := by
    unfold step stepMessage stepRole
    rcases tick with rfl | rfl <;> simp [leads]
  unfold stepLocal
  rw [steps]
  exact (r.drifting_stepLeader _).bind fun stepped => Drifts.refl _

theorem drifting_checkLeadership (r : Raft) (leads : r.state = .stateLeader)
    : r.Drifting r.checkLeadership self := by
  have reset : r.Drifts { r with electionElapsed := 0 } :=
    (.of_same rfl rfl rfl)
  have abort (r : Raft) : r.Drifts (if r.state = .stateLeader ∧ r.leadTransferee ≠ none64 then
      r.abortLeaderTransfer else r) := by
    split
    · exact .of_same rfl rfl rfl
    · exact .refl r
  unfold checkLeadership
  dsimp only
  refine .ite ?_ (reset.trans (abort _))
  have steps := drifting_stepLocal_leader { r with electionElapsed := 0 } (.inr rfl) leads
  exact Leads.since (steps.bind fun r => by exact abort r) reset

theorem drifting_beat (r : Raft) : r.Drifting r.beat self := by
  unfold beat
  by_cases leads : r.state = .stateLeader
  · rw [if_neg (not_not.mpr leads)]
    dsimp only
    refine .ite ?_ (.refl r)
    exact (drifting_stepLocal_leader _ (.inl rfl) (by exact leads)).since (.of_same rfl rfl rfl)
  · rw [if_pos leads]
    exact .refl r

theorem drifting_tick (r : Raft) (voters : r.HasVoters) : r.Drifting r.tick self := by
  have election : r.Drifting r.tickElection self := by
    unfold tickElection
    dsimp only
    refine .ite ?_ (.of_same rfl rfl rfl)
    exact (drifting_stepLocal _ (by rfl) (by exact voters)).since (.of_same rfl rfl rfl)
  unfold tick
  split
  · rename_i leads
    unfold tickHeartbeat
    dsimp only
    refine .ite ?_ ?_
    · exact ((drifting_checkLeadership _ (by exact leads)).bind drifting_beat).since
        (.of_same rfl rfl rfl)
    · exact (drifting_beat _).since (.of_same rfl rfl rfl)
  · exact election

end Raft

end EtcdRaft
