import EtcdRaft.Refinement.Keeps
import EtcdRaft.Refinement.Steps
import EtcdRaft.Runs.SoftState
import EtcdRaft.Tracking.Books

/-! Whatever a leader does, it does its duties: each function of a leader changes the
books by a sequence of them.
-/

namespace EtcdRaft

namespace Raft

variable [Codec] {heard : Message → Prop} {beats : ProgressState → Prop} {changes : Prop}
  {r r' : Raft} {m : Message}
  {pr pr' : Progress}

-----------------------------------------------------------------------------------------
-- Duties
-----------------------------------------------------------------------------------------

/-- The call changes the books by duties. -/
abbrev Minds (heard : Message → Prop) (beats : ProgressState → Prop) (changes : Prop) {α : Type}
    (r : Raft) (x : Result α)
    (node : α → Raft) : Prop :=
  Leads (Duties heard beats changes) r x node

/-- The books are the same. -/
def Spared (r r' : Raft) : Prop := r'.books = r.books

instance : IsTrans Raft Spared := ⟨fun _ _ _ first second => Eq.trans second first⟩

/-- The call does not touch the books. -/
abbrev Spares {α : Type} (r : Raft) (x : Result α) (node : α → Raft) : Prop := Leads Spared r x node

theorem Spares.minds {α : Type} {x : Result α} {node : α → Raft} (hx : r.Spares x node)
    : r.Minds heard beats changes x node :=
  hx.mono fun _ same => .of_books same

theorem Minds.done {x : Result Raft} (hx : r.Minds heard beats changes x self)
    : r.Minds heard beats changes (x >>= Raft.done) Prod.fst :=
  hx.bind fun r => Duties.refl r

-----------------------------------------------------------------------------------------
-- Sending
-----------------------------------------------------------------------------------------

omit [Codec] in
theorem spares_send (r : Raft) (m : Message) : r.Spares (r.send m) self := by
  unfold send
  refine .skip fun m => .ite rfl (.ite trivial rfl)

theorem minds_maybeSendSnapshot {toId : Nat} (found : r.trk.progress.get? toId = some pr)
    (awake : pr.isPaused = false)
    (missing : (∃ err, r.raftLog.term (pr.next - 1) = .error err)
      ∨ ∃ maxSize err, r.raftLog.entries pr.next maxSize = .ok (.error err))
    : r.Minds heard beats changes (r.maybeSendSnapshot toId pr) Prod.fst := by
  unfold maybeSendSnapshot
  refine Ends.ite (fun _ => .refl r) fun active => ?_
  dsimp only
  refine Ends.ite (fun _ => trivial) fun _ => ?_
  have tend := @Duties.tend _ heard beats changes r _ _ _ found
    (.snapshot awake (by simpa using active) missing)
  exact Leads.since ((spares_send _ _).minds.bind fun r => Duties.refl r) tend

theorem minds_sendEntries {toId prevTerm : Nat} {sendIfEmpty : Bool}
    {ents : Except StorageError (List Entry)} (found : r.trk.progress.get? toId = some pr)
    (awake : pr.isPaused = false) (prev : r.raftLog.term (pr.next - 1) = .ok prevTerm)
    (read : ents = .ok [] ∨ ((pr.state ≠ .stateReplicate ∨ pr.inflights.full = false)
      ∧ ∃ maxSize, r.raftLog.entries pr.next maxSize = .ok ents))
    : r.Minds heard beats changes (r.sendEntries toId pr prevTerm sendIfEmpty ents) Prod.fst := by
  unfold sendEntries
  cases ents with
  | error err =>
      refine .ite (.refl r) (minds_maybeSendSnapshot found awake (.inr ?_))
      rcases read with none | ⟨_, maxSize, read⟩
      · cases none
      · exact ⟨maxSize, err, read⟩
  | ok ents =>
      refine .ite (.refl r) (Ends.bind (r.spares_send _) fun r' same => ?_)
      refine Ends.bind (q := fun pr' => pr.sentEntries ents.length (payloadsSize ents) = .ok pr')
        (.of_eq (fun _ sent => sent) fun _ _ => trivial) fun pr' sent => ?_
      have read : ents = [] ∨ ((pr.state ≠ .stateReplicate ∨ pr.inflights.full = false)
          ∧ ∃ maxSize, r.raftLog.entries pr.next maxSize = .ok (.ok ents)) :=
        read.imp_left fun none => by cases none; rfl
      have found' : r'.trk.progress.get? toId = some pr := by
        rw [show r'.trk.progress = r.trk.progress from congrArg Books.progress same]
        exact found
      have log : r'.raftLog = r.raftLog := congrArg Books.raftLog same
      refine Duties.trans (.of_books same) (.tend found' ?_)
      rw [← log] at prev read
      exact .send awake prev read sent

theorem minds_maybeSendAppend (r : Raft) (toId : Nat) (sendIfEmpty : Bool)
    : r.Minds heard beats changes (r.maybeSendAppend toId sendIfEmpty) Prod.fst := by
  unfold maybeSendAppend
  cases found : r.trk.progress.get? toId with
  | none => trivial
  | some pr =>
      refine Ends.ite (fun _ => .refl r) fun awake => ?_
      have awake : pr.isPaused = false := by simpa using awake
      cases prev : r.raftLog.term (pr.next - 1) with
      | error err => exact minds_maybeSendSnapshot found awake (.inl ⟨err, prev⟩)
      | ok prevTerm =>
          refine Ends.ite (fun free => ?_) fun _ => minds_sendEntries found awake prev (.inl rfl)
          refine Ends.bind (q := fun ents => r.raftLog.entries pr.next r.maxMsgSize = .ok ents)
            (.of_eq (fun _ read => read) fun _ _ => trivial) fun ents read => ?_
          exact minds_sendEntries found awake prev
            (.inr ⟨free.imp_right fun room => by simpa using room, _, read⟩)

theorem minds_sendAppend (r : Raft) (toId : Nat)
    : r.Minds heard beats changes (r.sendAppend toId) self :=
  (r.minds_maybeSendAppend toId true).bind fun sent => .refl sent.1

theorem minds_sendAppendLoop (toId fuel : Nat) (r : Raft)
    : r.Minds heard beats changes (sendAppendLoop toId fuel r) self := by
  induction fuel generalizing r with
  | zero => exact .refl r
  | succ fuel ih =>
      unfold sendAppendLoop
      exact (r.minds_maybeSendAppend toId false).bind fun sent => .ite (ih _) (.refl _)

omit [Codec] in
theorem leads_visitPeers {R : Raft → Raft → Prop} [IsTrans Raft R] (r : Raft)
    {f : Raft → Nat → Result Raft} (refl : ∀ r, R r r)
    (each : ∀ r id, Leads R r (f r id) self)
    : Leads R r (r.visitPeers f) self := by
  unfold visitPeers
  exact .foldlM (refl r) fun r peer => .ite (refl r) (each r peer)

theorem minds_bcastAppend (r : Raft) : r.Minds heard beats changes r.bcastAppend self :=
  r.leads_visitPeers Duties.refl minds_sendAppend

/-- Heartbeats may go to all the peers, before and after. -/
def Pulses (heard : Message → Prop) (beats : ProgressState → Prop) (changes : Prop) (r r' : Raft)
    : Prop :=
  r.books.Within beats → r.Duties heard beats changes r' ∧ r'.books.Within beats

instance : IsTrans Raft (Pulses heard beats changes) where
  trans _ _ _ first second := fun may => by
    obtain ⟨duties, may⟩ := first may
    obtain ⟨duties', may⟩ := second may
    exact ⟨duties.trans duties', may⟩

theorem Pulses.of_books (same : r'.books = r.books) : r.Pulses heard beats changes r' :=
  fun may => ⟨.of_books same, same ▸ may⟩

theorem Spares.pulses {α : Type} {x : Result α} {node : α → Raft} (hx : r.Spares x node)
    : Leads (Pulses heard beats changes) r x node :=
  hx.mono fun _ same => .of_books same

theorem minds_of_pulses {α : Type} {x : Result α} {node : α → Raft}
    (hx : Leads (Pulses heard beats changes) r x node) (may : r.books.Within beats)
    : r.Minds heard beats changes x node :=
  hx.mono fun _ pulses => (pulses may).1

theorem pulses_sendHeartbeat (r : Raft) (toId : Nat) (ctx : List UInt8)
    : Leads (Pulses heard beats changes) r (r.sendHeartbeat toId ctx) self := by
  unfold sendHeartbeat
  cases found : r.trk.progress.get? toId with
  | none => trivial
  | some pr =>
      refine Ends.bind (r.spares_send _) fun r' same may => ?_
      have found' : r'.trk.progress.get? toId = some pr := by
        rw [show r'.trk.progress = r.trk.progress from congrArg Books.progress same]
        exact found
      have log : r'.raftLog = r.raftLog := congrArg Books.raftLog same
      have beats := may.peers toId pr found
      rw [← log]
      exact ⟨Duties.trans (.of_books same) (.tend found' (.heartbeat beats)),
        (same ▸ may).setProgress beats⟩

theorem pulses_bcastHeartbeatWithCtx (r : Raft) (ctx : List UInt8)
    : Leads (Pulses heard beats changes) r (r.bcastHeartbeatWithCtx ctx) self :=
  r.leads_visitPeers (fun _ => .of_books rfl) fun r id => r.pulses_sendHeartbeat id ctx

-----------------------------------------------------------------------------------------
-- Reads
-----------------------------------------------------------------------------------------

omit [Codec] in
theorem spares_answerReadIndexReq (r : Raft) (req : Message) (readIndex : Nat)
    : r.Spares (r.answerReadIndexReq req readIndex) self := by
  have responds : r.Spares (r.responseToReadIndexReq req readIndex) Prod.fst := by
    unfold responseToReadIndexReq
    refine .ite ?_ rfl
    split
    · trivial
    · rfl
  refine responds.bind fun answer => ?_
  split
  · exact rfl
  · exact spares_send _ _

theorem pulses_sendMsgReadIndexResponse (r : Raft) (m : Message)
    : Leads (Pulses heard beats changes) r (r.sendMsgReadIndexResponse m) self := by
  unfold sendMsgReadIndexResponse
  split
  · refine .skip fun readOnly => ?_
    exact (pulses_bcastHeartbeatWithCtx _ _).since (.of_books rfl)
  · exact (r.spares_answerReadIndexReq _ _).pulses

omit [Codec] in
theorem spares_confirmReads (r : Raft) (m : Message)
    : r.Spares (r.confirmReads m) self := by
  unfold confirmReads
  refine .skip fun readOnly => .skip fun reads => ?_
  refine Leads.since (Leads.foldlM rfl fun r rs => ?_) rfl
  exact r.spares_answerReadIndexReq _ _

theorem minds_stepLeaderReadIndex (r : Raft) (hears : heard m)
    (type : m.type = .msgReadIndex) (may : r.books.Within beats)
    : r.Minds heard beats changes (r.stepLeaderReadIndex m) self := by
  unfold stepLeaderReadIndex
  refine .ite (r.spares_answerReadIndexReq _ _).minds (Ends.ite (fun early => ?_) fun _ => ?_)
  · exact .single (.park hears type ((Bool.not_eq_true' _).mp early))
  · exact minds_of_pulses (r.pulses_sendMsgReadIndexResponse m) may

-----------------------------------------------------------------------------------------
-- Acknowledgements and commits
-----------------------------------------------------------------------------------------

omit [Codec] in
/-- A commit that does not happen leaves the node as it is. -/
theorem maybeCommit_cases (r : Raft)
    : Ends r.maybeCommit (fun res => (res.2 = false ∧ res.1 = r)
        ∨ (res.2 = true ∧ ∃ raftLog, res.1 = { r with raftLog := raftLog }
          ∧ r.raftLog.maybeCommit { term := r.term, index := r.trk.committed }
            = .ok (raftLog, true))) fun _ => True := by
  unfold maybeCommit
  refine Ends.bind
    (q := fun res => r.raftLog.maybeCommit { term := r.term, index := r.trk.committed }
    = .ok res) (.of_eq (fun _ eq => eq) fun _ _ => trivial) ?_
  rintro ⟨raftLog, committed⟩ commits
  cases committed with
  | true => exact .inr ⟨rfl, raftLog, rfl, commits⟩
  | false =>
      refine .inl ⟨rfl, ?_⟩
      unfold RaftLog.maybeCommit at commits
      split at commits
      · obtain ⟨_, _, eq⟩ := except_bind_eq_ok.mp commits
        cases eq
      · cases commits
        rfl

/-- The commit of a leader with the release of the reads that waited for it. -/
theorem minds_releasePendingReadIndexMessages {raftLog : RaftLog}
    (may : r.pendingReadIndexMessages ≠ [] → r.books.Within beats)
    (commits : r.raftLog.maybeCommit { term := r.term, index := r.trk.committed }
      = .ok (raftLog, true))
    : r.Minds heard beats changes { r with raftLog := raftLog }.releasePendingReadIndexMessages
        self := by
  have duty := @Books.Duty.commit _ heard beats changes r.books raftLog commits
  unfold releasePendingReadIndexMessages
  refine Ends.ite (fun none => ?_) fun some_ => Ends.ite (fun early => ?_) fun current => ?_
  · have none : r.pendingReadIndexMessages = [] := List.length_eq_zero_iff.mp none
    refine .single ?_
    convert duty using 1
    unfold books
    dsimp only
    rw [none, ite_self]
  · refine .single ?_
    convert duty using 1
    have early : Books.current { r.books with raftLog := raftLog } = false :=
      (Bool.not_eq_true' _).mp early
    rw [early]
    rfl
  · have may := may fun none => some_ (by rw [none]; rfl)
    have current : Books.current { r.books with raftLog := raftLog } = true :=
      (Bool.not_eq_false' _).mp (Bool.eq_false_of_not_eq_true current)
    rw [current] at duty
    have release (r : Raft) (reads : List Message) (may : r.books.Within beats)
        : r.Minds heard beats changes (reads.foldlM sendMsgReadIndexResponse r) self :=
      minds_of_pulses (Leads.foldlM (.of_books rfl) pulses_sendMsgReadIndexResponse) may
    dsimp only
    refine Leads.since (release _ _ ⟨?_, may.replicate⟩) (.single duty)
    exact may.peers

/-- The peer's progress is changed by its answer at most once, and then by duties of
another kind.
-/
def Answered (heard : Message → Prop) (beats : ProgressState → Prop) (changes : Prop) (m : Message)
    (pr : Progress) (r r' : Raft) : Prop :=
  r.Duties heard beats changes r'
    ∨ ∃ pr', r.books.Tends (· = m) (fun _ => False) m.fromId pr pr'
      ∧ (r.setProgress m.fromId pr').Duties heard beats changes r'

theorem Minds.answered {x : Result Raft}
    (tends : r.books.Tends (· = m) (fun _ => False) m.fromId pr pr')
    (hx : (r.setProgress m.fromId pr').Minds heard beats changes x self)
    : Leads (Answered heard beats changes m pr) r x self :=
  Ends.mono hx (fun _ duties => .inr ⟨pr', tends, duties⟩) fun _ _ => trivial

theorem answered_stepLeaderAppReject (type : m.type = .msgAppResp)
    (rejects : m.reject = true)
    : Leads (Answered heard beats changes m pr) r (r.stepLeaderAppReject m pr) self := by
  unfold stepLeaderAppReject
  generalize (if m.logTerm > 0 then (r.raftLog.findConflictByTerm m.rejectHint m.logTerm).1
    else m.rejectHint) = hint
  dsimp only
  refine Ends.ite (fun decreased => ?_) fun _ => .inl (.refl r)
  exact Minds.answered (.reject rfl type rfl rejects (Prod.ext_iff.mpr ⟨rfl, decreased⟩))
    (minds_sendAppend _ _)

/-- What follows an acknowledgement. -/
theorem minds_announceAck (r : Raft) (m : Message) (pr : Progress)
    (may : r.pendingReadIndexMessages ≠ [] → r.books.Within beats)
    : Ends r.maybeCommit
        (fun res => r.Minds heard beats changes (res.1.announceAck m pr res.2) self)
        fun _ => True := by
  refine r.maybeCommit_cases.mono ?_ fun _ _ => trivial
  rintro ⟨r', committed⟩ (⟨none, rfl⟩ | ⟨some_, raftLog, rfl, commits⟩)
  · cases none
    unfold announceAck
    exact Ends.ite nofun fun _ => Leads.ite (minds_sendAppend _ _) (.refl _)
  · cases some_
    unfold announceAck
    refine Ends.ite (fun _ => ?_) fun not => absurd rfl not
    exact (minds_releasePendingReadIndexMessages may commits).bind minds_bcastAppend

omit [Codec] in
theorem spares_finishTransfer (r : Raft) (m : Message) (pr : Progress)
    : r.Spares (r.finishTransfer m pr) self := by
  unfold finishTransfer
  exact .ite (r.spares_send _) rfl

omit [Codec] in
theorem progressAfterAck_state (after : r.progressAfterAck m pr = .ok pr')
    : pr'.state = pr.state ∨ pr'.state = .stateReplicate := by
  unfold progressAfterAck at after
  split at after
  · cases after
    exact .inr rfl
  split at after
  · cases after
    exact .inr rfl
  split at after
  · obtain ⟨inflights, _, eq⟩ := except_bind_eq_ok.mp after
    cases eq
    exact .inl rfl
  · cases after
    exact .inl rfl

theorem answered_stepLeaderAppAck (found : r.trk.progress.get? m.fromId = some pr)
    (type : m.type = .msgAppResp) (accepts : m.reject = false)
    (may : r.pendingReadIndexMessages ≠ [] → r.books.Within beats)
    : Leads (Answered heard beats changes m pr) r (r.stepLeaderAppAck m pr) self := by
  unfold stepLeaderAppAck
  dsimp only
  refine Ends.ite (fun news => ?_) fun _ => .inl (.refl r)
  have news : pr.match < m.index ∨ (pr.match = m.index ∧ pr.state = .stateProbe) := by
    unfold Progress.maybeUpdate at news
    split at news
    · exact .inr (by simpa using news)
    · exact .inl (by omega)
  refine Ends.bind (q := fun pr' => r.progressAfterAck m (pr.maybeUpdate m.index).1 = .ok pr')
    (.of_eq (fun _ after => after) fun _ _ => trivial) fun pr' after => ?_
  have state : pr'.state = pr.state ∨ pr'.state = .stateReplicate := by
    rw [← pr.maybeUpdate_state m.index]
    exact progressAfterAck_state after
  have within (reads : r.pendingReadIndexMessages ≠ [])
      : (r.setProgress m.fromId pr').books.Within beats :=
    (may reads).setProgress <| state.elim (fun same => same ▸ (may reads).peers _ _ found)
      fun streams => streams ▸ (may reads).replicate
  have announce :=
    @minds_announceAck _ heard beats changes (r.setProgress m.fromId pr') m pr' within
  refine Ends.bind announce fun res announces => ?_
  refine Minds.answered (.ack rfl type rfl accepts news rfl after) (announces.bind fun r => ?_)
  refine .ite ((minds_sendAppendLoop _ _ _).bind fun r => ?_) (r.spares_finishTransfer _ _).minds
  exact (r.spares_finishTransfer _ _).minds

theorem answered_stepLeaderAppResp (tracked : r.trk.progress.get? m.fromId = some pr)
    (type : m.type = .msgAppResp)
    (may : r.pendingReadIndexMessages ≠ [] → r.books.Within beats)
    : Leads (Answered heard beats changes m { pr with recentActive := true })
        (r.setProgress m.fromId { pr with recentActive := true }) (r.stepLeaderAppResp m pr)
        self := by
  have found := r.get?_setProgress m.fromId { pr with recentActive := true }
  unfold stepLeaderAppResp
  refine Ends.ite (fun rejects => ?_) fun accepts => ?_
  · exact answered_stepLeaderAppReject type rejects
  · refine answered_stepLeaderAppAck found type (by simpa using accepts) fun reads => ?_
    exact (may reads).setProgress ((may reads).peers m.fromId pr tracked)

theorem minds_stepLeaderAppResp (tracked : r.trk.progress.get? m.fromId = some pr)
    (hears : heard m) (type : m.type = .msgAppResp)
    (may : r.pendingReadIndexMessages ≠ [] → r.books.Within beats)
    : r.Minds heard beats changes (r.stepLeaderAppResp m pr) self := by
  have active := @Duties.tend _ heard beats changes r _ _ _ tracked .active
  have found := r.get?_setProgress m.fromId { pr with recentActive := true }
  have answered :=
    @answered_stepLeaderAppResp _ heard beats changes _ _ _ tracked type may
  refine Ends.mono answered (fun _ answered => ?_) fun _ _ => trivial
  rcases answered with duties | ⟨pr', tends, duties⟩
  · exact active.trans duties
  · refine active.trans ((Duties.tend found (tends.mono ?_ nofun)).trans duties)
    exact fun _ same => same ▸ hears

-----------------------------------------------------------------------------------------
-- Other messages of peers
-----------------------------------------------------------------------------------------

theorem minds_stepLeaderHeartbeatResp (found : r.trk.progress.get? m.fromId = some pr)
    : r.Minds heard beats changes (r.stepLeaderHeartbeatResp m pr) self := by
  have resume := @Duties.tend _ heard beats changes r _ _ _ found .resume
  unfold stepLeaderHeartbeatResp catchUp
  refine Leads.since (Leads.bind (.ite (minds_sendAppend _ _) (.refl _)) fun r => ?_) resume
  exact .ite (.refl r) (r.spares_confirmReads m).minds

theorem minds_stepLeaderTransfer (r : Raft) (m : Message) (pr : Progress)
    : r.Minds heard beats changes (r.stepLeaderTransfer m pr) self := by
  unfold stepLeaderTransfer
  dsimp only
  refine .ite (.refl r) (.ite (.refl r) ?_)
  have aborted : r.Spared (if r.leadTransferee ≠ none64 then r.abortLeaderTransfer else r) := by
    split <;> rfl
  refine Leads.since ?_ (.of_books aborted)
  generalize (if r.leadTransferee ≠ none64 then r.abortLeaderTransfer else r) = r
  refine .ite (.refl r) (.ite ?_ ?_)
  · exact (spares_send _ _).minds.since (.of_books rfl)
  · exact (minds_sendAppend _ _).since (.of_books rfl)

theorem minds_stepLeaderPeer (found : r.trk.progress.get? m.fromId = some pr)
    (hears : heard m)
    (may : m.type = .msgAppResp → r.pendingReadIndexMessages ≠ [] → r.books.Within beats)
    : r.Minds heard beats changes (r.stepLeaderPeer m pr) self := by
  unfold stepLeaderPeer
  split
  · rename_i type
    exact minds_stepLeaderAppResp found hears type (may type)
  · exact minds_stepLeaderHeartbeatResp found
  · rename_i type
    show r.Duties _ _ _ (r.stepLeaderSnapStatus m pr)
    unfold stepLeaderSnapStatus
    split
    · exact .refl r
    · rename_i waits
      exact .tend found (.snapStatus hears type rfl (not_not.mp waits))
  · rename_i type
    show r.Duties _ _ _ _
    split
    · rename_i replicates
      exact .tend found (.unreachable hears type rfl replicates)
    · exact .refl r
  · exact r.minds_stepLeaderTransfer m pr
  · exact .refl r

-----------------------------------------------------------------------------------------
-- Proposals
-----------------------------------------------------------------------------------------

theorem minds_appendEntry (r : Raft) (es : List Entry)
    : r.Minds heard beats changes (r.appendEntry es) Prod.fst := by
  unfold appendEntry increaseUncommittedSize
  dsimp only
  split
  · exact .refl r
  · simp only [Bool.not_true, Bool.false_eq_true, if_false]
    refine Ends.bind (q := fun raftLog => r.raftLog.append (r.books.stamped es) = .ok raftLog)
      (.of_eq (fun _ appends => appends) fun _ _ => trivial) fun raftLog appends => ?_
    refine Leads.since ((spares_send _ _).minds.bind fun r => Duties.refl r) ?_
    exact .single (.append es appends)

theorem spares_checkProposals (r : Raft) (i : Nat) (es : List Entry)
    : r.Spares (r.checkProposals i es) Prod.fst := by
  induction es generalizing r i with
  | nil => exact rfl
  | cons e rest ih =>
      have first : r.Spares (r.checkProposal i e) Prod.fst := by
        unfold checkProposal
        refine .skip fun change => ?_
        split
        · exact rfl
        · dsimp only
          exact .ite rfl rfl
      unfold checkProposals
      exact first.bind fun checked => (ih checked.1 (i + 1)).bind fun _ => rfl

theorem minds_stepLeaderProp (r : Raft) (m : Message)
    : r.Minds heard beats changes (r.stepLeaderProp m) Prod.fst := by
  unfold stepLeaderProp
  refine .ite trivial (.ite (.refl r) (.ite (.refl r) ?_))
  refine (r.spares_checkProposals 0 m.entries).minds.bind fun checked => ?_
  refine (minds_appendEntry _ _).bind fun appended => .ite (.refl _) ?_
  exact (minds_bcastAppend _).done

-----------------------------------------------------------------------------------------
-- All messages
-----------------------------------------------------------------------------------------

theorem duties_stepLeaderCheckQuorum (r : Raft)
    : r.Duties heard beats changes r.stepLeaderCheckQuorum := by
  unfold stepLeaderCheckQuorum
  dsimp only
  split
  · exact .single (.stepDown nofun)
  · exact .single .inactive

/-- The messages on which a leader sends heartbeats. -/
def Beats (r : Raft) (m : Message) : Prop :=
  m.type = .msgBeat ∨ m.type = .msgReadIndex
    ∨ (m.type = .msgAppResp ∧ r.pendingReadIndexMessages ≠ [])

theorem minds_stepLeader (r : Raft)
    (hears : m.type ≠ .msgBeat → m.type ≠ .msgCheckQuorum → heard m)
    (may : r.Beats m → r.books.Within beats)
    : r.Minds heard beats changes (r.stepLeader m) Prod.fst := by
  unfold stepLeader
  split
  · rename_i type
    exact (minds_of_pulses (r.pulses_bcastHeartbeatWithCtx _) (may (.inl type))).done
  · exact r.duties_stepLeaderCheckQuorum
  · exact r.minds_stepLeaderProp m
  · rename_i type
    have hears := hears (fun same => nomatch type.symm.trans same)
      fun same => nomatch type.symm.trans same
    exact (r.minds_stepLeaderReadIndex hears type (may (.inr (.inl type)))).done
  · exact .refl r
  · rename_i notBeat notCheck _ _ _
    cases found : r.trk.progress.get? m.fromId with
    | none => exact .refl r
    | some pr =>
        exact (minds_stepLeaderPeer found (hears notBeat notCheck)
          fun type reads => may (.inr (.inr ⟨type, reads⟩))).done

-----------------------------------------------------------------------------------------
-- Configurations
-----------------------------------------------------------------------------------------

theorem minds_reactToConfig (r : Raft) (may : changes)
    : r.Minds heard beats changes r.reactToConfig self := by
  unfold reactToConfig
  refine .ite ?_ (.ite (.refl r) ?_)
  · show r.Duties _ _ _ _
    split
    · exact .single (.stepDown nofun)
    · exact .refl r
  · have commits : r.Minds heard beats changes r.maybeCommit Prod.fst := by
      refine r.maybeCommit_cases.mono ?_ fun _ _ => trivial
      rintro ⟨r', committed⟩ (⟨_, rfl⟩ | ⟨_, raftLog, rfl, commits⟩)
      · exact .refl _
      · exact .single (.commitOnChange may commits)
    have announces (r : Raft) (committed : Bool)
        : r.Minds heard beats changes (r.announceCommit committed) self := by
      unfold announceCommit
      refine .ite r.minds_bcastAppend (r.leads_visitPeers Duties.refl fun r id => ?_)
      exact (r.minds_maybeSendAppend id false).bind fun sent => .refl sent.1
    refine commits.bind fun committed => (announces _ _).bind fun r => ?_
    exact .ite (.of_books rfl) (.refl r)

/-- The leader takes over a configuration and reacts to it. -/
def Reacts (heard : Message → Prop) (beats : ProgressState → Prop) (r : Raft)
    (cc : ConfChangeV2) (r' : Raft)
    : Prop :=
  ∃ config progress, r.changedConfig cc = .ok (config, progress)
    ∧ Relation.ReflTransGen (Books.Duty heard beats True)
      { r.books with config := config, progress := progress } r'.books

theorem reacts_applyConfChange (r : Raft) (cc : ConfChangeV2)
    : Ends (r.applyConfChange cc) (fun res => r.Reacts heard beats cc res.1) fun _ => True := by
  unfold applyConfChange
  refine Ends.bind (q := fun res => r.changedConfig cc = .ok res)
    (.of_eq (fun _ changed => changed) fun _ _ => trivial) fun res changed => ?_
  unfold switchToConfig
  refine Ends.bind (@minds_reactToConfig _ heard beats True _ trivial) fun r' duties => ?_
  exact ⟨res.1, res.2, changed, duties⟩

-----------------------------------------------------------------------------------------
-- Nodes that do not lead
-----------------------------------------------------------------------------------------

/-- The node does not become the leader. -/
def Modest (r r' : Raft) : Prop := r'.state = .stateLeader → r.state = .stateLeader

instance : IsTrans Raft Modest := ⟨fun _ _ _ first second leads => first (second leads)⟩

omit [Codec] in
theorem Modest.refl (r : Raft) : r.Modest r := fun leads => leads

/-- The call does not make the node the leader. -/
abbrev Defers {α : Type} (r : Raft) (x : Result α) (node : α → Raft) : Prop := Leads Modest r x node

omit [Codec] in
theorem Spares.defers {α : Type} {x : Result α} {node : α → Raft} (hx : r.Spares x node)
    : r.Defers x node :=
  hx.mono fun _ same leads => (congrArg Books.state same).symm.trans leads

omit [Codec] in
theorem Stills.defers {α : Type} {x : Result α} {node : α → Raft} (hx : r.Stills x node)
    : r.Defers x node :=
  hx.mono fun _ still leads => (congrArg SoftState.raftState still.soft).symm.trans leads

omit [Codec] in
theorem Defers.done {x : Result Raft} (hx : r.Defers x self)
    : r.Defers (x >>= Raft.done) Prod.fst :=
  hx.bind fun r => Modest.refl r

omit [Codec] in
theorem defers_handleAppendEntries (r : Raft) (m : Message)
    : r.Defers (r.handleAppendEntries m) self := by
  unfold handleAppendEntries
  refine .ite (r.spares_send _).defers (.skip fun res => ?_)
  split
  · exact (spares_send _ _).defers.since (.refl r)
  · exact (spares_send _ _).defers.since (.refl r)

omit [Codec] in
theorem defers_handleHeartbeat (r : Raft) (m : Message)
    : r.Defers (r.handleHeartbeat m) self := by
  unfold handleHeartbeat
  exact .skip fun raftLog => (spares_send _ _).defers.since (.refl r)

theorem defers_switchToConfig (r : Raft) (cfg : TrackerConfig) (trk : ProgressMap)
    : r.Defers (r.switchToConfig cfg trk) Prod.fst := by
  unfold switchToConfig
  refine Leads.since (Leads.bind ?_ fun r => Modest.refl r) (.refl r)
  unfold reactToConfig
  refine .ite ?_ (.ite (.refl _) ?_)
  · show Modest _ _
    split
    · exact nofun
    · exact .refl _
  · refine (stills_maybeCommit _).defers.bind fun committed => ?_
    exact (stills_announceCommit _ _).defers.bind fun r => .ite (.refl r) (.refl r)

theorem defers_handleSnapshot (r : Raft) (m : Message)
    : r.Defers (r.handleSnapshot m) self := by
  have restores (s : Snapshot) : r.Defers (r.restore s) Prod.fst := by
    unfold restore
    refine .ite (.refl r) (.ite nofun (.ite (.refl r) (.ite ?_ (.skip fun conf => ?_))))
    · exact .skip fun _ => Modest.refl r
    · refine Leads.since ((defers_switchToConfig _ _ _).bind fun switched => ?_) (.refl r)
      exact .skip fun _ => Modest.refl _
  unfold handleSnapshot
  refine (restores _).bind fun res => ?_
  split
  · exact (spares_send _ _).defers
  · exact (spares_send _ _).defers

omit [Codec] in
theorem defers_campaign (r : Raft) (t : CampaignType) : r.Defers (r.campaign t) self := by
  have ask (r : Raft) (id : Nat) : r.Defers (requestVote t r id) self := by
    unfold requestVote
    exact .ite (r.spares_send _).defers (.skip fun last => (r.spares_send _).defers)
  unfold campaign becomeCampaigner becomePreCandidate becomeCandidate
  refine Leads.bind ?_ fun r => Leads.foldlM (.refl r) ask
  exact .ite (.ite trivial nofun) (.ite trivial (.ite trivial nofun))

theorem defers_hup (r : Raft) (t : CampaignType) : r.Defers (r.hup t) self := by
  unfold hup
  refine .ite (.refl r) (.ite (.refl r) (.skip fun unapplied => .ite (.refl r) ?_))
  exact r.defers_campaign t

theorem defers_stepFollower (r : Raft) (m : Message)
    : r.Defers (r.stepFollower m) Prod.fst := by
  have forward : r.Defers (r.forward m) Prod.fst := (r.spares_send _).defers.done
  unfold stepFollower
  split
  · exact .ite (.refl r) (.ite (.refl r) forward)
  · exact ((defers_handleAppendEntries _ m).done).since (.refl r)
  · exact ((defers_handleHeartbeat _ m).done).since (.refl r)
  · exact ((defers_handleSnapshot _ m).done).since (.refl r)
  · exact .ite (.refl r) forward
  · exact .ite (.refl r) (.refl r)
  · exact (r.defers_hup _).done
  · exact .ite (.refl r) forward
  · split <;> exact .refl r
  · exact .refl r

-----------------------------------------------------------------------------------------
-- Elections
-----------------------------------------------------------------------------------------

omit [Codec] in
/-- `reset` with the same term. -/
theorem books_reset (r : Raft)
    : (r.reset r.term).books = { r.books with
        progress := r.books.progress.mapValues r.books.blankProgress
        uncommittedSize := 0 } := by
  unfold reset resetRandomizedElectionTimeout intn
  dsimp only
  rw [if_neg (not_not.mpr rfl)]
  split <;> rfl

omit [Codec] in
theorem takeLeadership_books (r : Raft)
    : Ends r.takeLeadership (fun r' => ∃ own, r.trk.progress.get? r.id = some own
        ∧ r'.books = r.books.takenOver own) fun _ => True := by
  have books := r.books_reset
  unfold takeLeadership
  generalize r.reset r.term = r₁ at *
  have id : r₁.id = r.id := congrArg Books.id books
  have progress : r₁.trk.progress = r.trk.progress.mapValues r.books.blankProgress :=
    congrArg Books.progress books
  dsimp only
  cases found : r₁.trk.progress.get? r₁.id with
  | none => trivial
  | some pr =>
      rw [progress, id, IdMap.get?_mapValues] at found
      obtain ⟨own, tracked, rfl⟩ := Option.map_eq_some_iff.mp found
      refine ⟨own, tracked, Eq.trans (b := { r₁.books with
        state := .stateLeader
        progress := r₁.books.progress.insert r₁.books.id
          { (r.books.blankProgress r.id own).becomeReplicate with recentActive := true } }) rfl ?_⟩
      rw [books]
      rfl

/-- A node that leads after a call has led before, or it was a candidate and has taken
over.
-/
inductive Conducts (heard : Message → Prop) (beats : ProgressState → Prop)
    (changes : Prop) (r r' : Raft)
    : Prop where
  | leads (leads : r.state = .stateLeader) (duties : r.Duties heard beats changes r')
  | risen {own : Progress} (candidate : r.state = .stateCandidate)
      (found : r.trk.progress.get? r.id = some own)
      (duties : Relation.ReflTransGen (Books.Duty (fun _ => False) (fun _ => False) False)
        (r.books.takenOver own) r'.books)
  | other (state : r'.state ≠ .stateLeader)

/-- A node that leads only if it does already. -/
theorem Defers.conducts {α : Type} {x : Result α} {node : α → Raft} (hx : r.Defers x node)
    (lowly : r.state ≠ .stateLeader)
    : Ends x (fun a => r.Conducts heard beats changes (node a)) fun _ => True :=
  Ends.mono hx (fun _ modest => .other fun leads => lowly (modest leads)) fun _ _ => trivial

theorem Minds.conducts {α : Type} {x : Result α} {node : α → Raft}
    (hx : r.Minds heard beats changes x node) (leads : r.state = .stateLeader)
    : Ends x (fun a => r.Conducts heard beats changes (node a)) fun _ => True :=
  Ends.mono hx (fun _ duties => .leads leads duties) fun _ _ => trivial

/-- A call that does not touch the books. -/
theorem Spares.conducts {α : Type} {x : Result α} {node : α → Raft} (hx : r.Spares x node)
    : Ends x (fun a => r.Conducts heard beats changes (node a)) fun _ => True := by
  by_cases leads : r.state = .stateLeader
  · exact hx.minds.conducts leads
  · exact hx.defers.conducts leads

theorem conducts_becomeLeader {r₀ : Raft} (books : r.books = r₀.books)
    (candidate : r₀.state = .stateCandidate)
    : Ends (do (← (← r.becomeLeader).bcastAppend).done)
        (fun res => r₀.Conducts heard beats changes res.1) fun _ => True := by
  unfold becomeLeader
  refine Ends.bind (q := fun r' => ∃ own, r.trk.progress.get? r.id = some own
    ∧ Relation.ReflTransGen (Books.Duty (fun _ => False) (fun _ => False) False)
      (r.books.takenOver own) r'.books) ?_ ?_
  · refine Ends.ite (fun _ => trivial) fun _ => ?_
    refine Ends.bind r.takeLeadership_books ?_
    rintro r₁ ⟨own, found, takes⟩
    refine Ends.bind (@minds_appendEntry _ (fun _ => False) (fun _ => False) False r₁ _)
      fun res duties => ?_
    refine Ends.ite (fun _ => trivial) fun _ => ⟨own, found, ?_⟩
    rw [← takes]
    exact duties
  · rintro r₁ ⟨own, found, duties⟩
    refine Ends.mono (@minds_bcastAppend _ (fun _ => False) (fun _ => False) False r₁).done
      (fun res later => ?_) fun _ _ => trivial
    have found : r₀.trk.progress.get? r₀.id = some own := by
      rw [← show r.trk.progress = r₀.trk.progress from congrArg Books.progress books,
        ← show r.id = r₀.id from congrArg Books.id books]
      exact found
    exact .risen candidate found (books ▸ duties.trans later)

theorem conducts_stepCandidate (r : Raft) (m : Message)
    (campaigns : r.state = .statePreCandidate ∨ r.state = .stateCandidate)
    : Ends (r.stepCandidate m) (fun res => r.Conducts heard beats changes res.1) fun _ => True := by
  have lowly : r.state ≠ .stateLeader := by
    rcases campaigns with pre | candidate
    · exact fun leads => nomatch pre.symm.trans leads
    · exact fun leads => nomatch candidate.symm.trans leads
  have follows {x : Result Raft} (term lead : Nat)
      (hx : (r.becomeFollower term lead).Defers x self)
      : Ends (x >>= Raft.done) (fun res => r.Conducts heard beats changes res.1) fun _ => True :=
    Ends.mono hx.done (fun _ modest => .other fun leads => nomatch modest leads) fun _ _ => trivial
  unfold stepCandidate
  split
  · exact .other lowly
  · exact follows _ _ (defers_handleAppendEntries _ m)
  · exact follows _ _ (defers_handleHeartbeat _ m)
  · exact follows _ _ (defers_handleSnapshot _ m)
  · refine Ends.ite (fun _ => ?_) fun _ => .other lowly
    have books : (r.poll m.fromId (!m.reject)).1.books = r.books := by
      unfold poll ProgressTracker.recordVote
      dsimp only
      split <;> rfl
    have state : (r.poll m.fromId (!m.reject)).1.state = r.state :=
      congrArg Books.state books
    dsimp only
    generalize r.poll m.fromId (!m.reject) = polled at *
    obtain ⟨r', res⟩ := polled
    unfold concludePoll
    cases res with
    | voteWon =>
        refine Ends.ite (fun _ => ?_) fun notPre => ?_
        · refine Ends.mono (defers_campaign _ _).done (fun _ modest => .other fun leads => ?_)
            fun _ _ => trivial
          exact lowly (state.symm.trans (modest leads))
        · exact conducts_becomeLeader books
            (campaigns.resolve_left fun pre => notPre (state.trans pre))
    | voteLost => exact .other nofun
    | votePending => exact .other fun leads => lowly (state.symm.trans leads)

-----------------------------------------------------------------------------------------
-- `Step` and `Tick`
-----------------------------------------------------------------------------------------

omit [Codec] in
theorem spares_handleVote (r : Raft) (m : Message) : r.Spares (r.handleVote m) self := by
  unfold handleVote
  refine .skip fun upToDate => .ite ((r.spares_send _).bind fun r => ?_) (r.spares_send _)
  show r.Spared _
  split <;> rfl

theorem conducts_stepMessage (r : Raft) (remote : m.type.isStored = false)
    (hears : heard m) (may : r.Beats m → r.books.Within beats)
    : Ends (r.stepMessage m) (fun res => r.Conducts heard beats changes res.1) fun _ => True := by
  unfold stepMessage
  split
  · by_cases leads : r.state = .stateLeader
    · unfold hup
      rw [if_pos leads]
      exact .leads leads (.refl r)
    · exact (r.defers_hup _).done.conducts leads
  · rename_i type
    rw [type] at remote
    cases remote
  · rename_i type
    rw [type] at remote
    cases remote
  · exact Spares.conducts ((r.spares_handleVote m).bind fun r => rfl)
  · exact Spares.conducts ((r.spares_handleVote m).bind fun r => rfl)
  · unfold stepRole
    split
    · rename_i follower
      exact (r.defers_stepFollower m).conducts fun leads => nomatch follower.symm.trans leads
    · rename_i candidate
      exact r.conducts_stepCandidate m (.inr candidate)
    · rename_i pre
      exact r.conducts_stepCandidate m (.inl pre)
    · rename_i leads
      exact (r.minds_stepLeader (fun _ _ => hears) may).conducts leads

theorem spares_stepLowerTerm (remote : m.type.isStored = false)
    : r.Spares (r.stepLowerTerm m) self := by
  unfold stepLowerTerm
  refine .ite (r.spares_send _) (.ite (r.spares_send _) (Ends.ite (fun type => ?_) fun _ => rfl))
  rw [type] at remote
  cases remote

/-- Every step of a node, apart from the answers of the local threads. -/
theorem conducts_step (r : Raft) (remote : m.type.isStored = false) (hears : heard m)
    (may : r.Beats m → r.books.Within beats)
    : Ends (r.step m) (fun res => r.Conducts heard beats changes res.1) fun _ => True := by
  unfold step
  refine Ends.ite (fun _ => r.conducts_stepMessage remote hears may) fun _ => ?_
  refine Ends.ite (fun _ => Ends.ite (fun _ => ?_) fun _ => ?_) fun _ => ?_
  · exact Spares.conducts rfl
  · rcases r.adoptTerm_cases m with ⟨same, _⟩ | ⟨lead, same⟩
    · rw [same]
      exact r.conducts_stepMessage remote hears may
    · rw [same]
      have conducts := @conducts_stepMessage _ (fun _ => True) (fun _ => True) False m
        (r.becomeFollower m.term lead) remote trivial fun _ => Books.within_all _
      refine conducts.mono (fun res conducts => ?_) fun _ _ => trivial
      -- a follower does not win within the same step
      cases conducts with
      | leads leads duties => cases leads
      | risen candidate found duties => cases candidate
      | other state => exact .other state
  · refine Ends.ite (fun _ => Spares.conducts (Leads.bind ?_ fun r => rfl))
      fun _ => r.conducts_stepMessage remote hears may
    exact spares_stepLowerTerm remote

/-- A node that leads before and after a step has handled the message as a leader, if at
all.
-/
theorem step_leads {err : Option StepError} (remote : m.type.isStored = false)
    (steps : r.step m = .ok (r', err)) (leads : r.state = .stateLeader)
    (leads' : r'.state = .stateLeader)
    : r'.books = r.books ∨ r.stepLeader m = .ok (r', err) := by
  have votes : r.Spares (do (← r.handleVote m).done) Prod.fst :=
    (r.spares_handleVote m).bind fun r => rfl
  have handles (steps : r.stepMessage m = .ok (r', err))
      : r'.books = r.books ∨ r.stepLeader m = .ok (r', err) := by
    unfold stepMessage at steps
    split at steps
    · unfold hup at steps
      rw [if_pos leads] at steps
      cases steps
      exact .inl rfl
    · rename_i type
      rw [type] at remote
      cases remote
    · rename_i type
      rw [type] at remote
      cases remote
    · exact .inl (votes.result steps)
    · exact .inl (votes.result steps)
    · unfold stepRole at steps
      rw [leads] at steps
      exact .inr steps
  unfold step at steps
  split at steps
  · exact handles steps
  split at steps
  · split at steps
    · cases steps
      exact .inl rfl
    · rcases r.adoptTerm_cases m with ⟨same, _⟩ | ⟨lead, same⟩
      · rw [same] at steps
        exact handles steps
      · rw [same] at steps
        have conducts := @conducts_stepMessage _ (fun _ => True) (fun _ => True) False m
          (r.becomeFollower m.term lead) remote trivial fun _ => Books.within_all _
        cases conducts.result steps with
        | leads leads duties => cases leads
        | risen candidate found duties => cases candidate
        | other state => exact absurd leads' state
  split at steps
  · have lower : r.Spares (do (← r.stepLowerTerm m).done) Prod.fst :=
      (spares_stepLowerTerm remote).bind fun r => rfl
    exact .inl (lower.result steps)
  · exact handles steps

theorem minds_stepLocal (r : Raft) {type : MessageType} (leads : r.state = .stateLeader)
    (own : type = .msgBeat ∨ type = .msgCheckQuorum)
    (may : type = .msgBeat → r.books.Within beats)
    : r.Minds heard beats changes (r.stepLocal type) self := by
  rw [stepLocal_leader leads own]
  refine Leads.bind (r.minds_stepLeader (fun notBeat notCheck => ?_) ?_)
    fun res => Duties.refl res.1
  · exact absurd own (not_or.mpr ⟨notBeat, notCheck⟩)
  · rintro (beat | read | ⟨ack, _⟩)
    · exact may beat
    · rcases own with rfl | rfl <;> cases read
    · rcases own with rfl | rfl <;> cases ack

theorem minds_beat (r : Raft)
    (may : r.heartbeatTimeout ≤ r.heartbeatElapsed → r.books.Within beats)
    : r.Minds heard beats changes r.beat self := by
  unfold beat
  refine Ends.ite (fun _ => .refl r) fun leads => Ends.ite (fun due => ?_) fun _ => .refl r
  exact (minds_stepLocal { r with heartbeatElapsed := 0 } (not_not.mp leads) (.inl rfl)
    fun _ => may due).since (.of_books rfl)

/-- As far as heartbeats are concerned, nothing changes. -/
structure Beating (beats : ProgressState → Prop) (r r' : Raft) : Prop where
  elapsed : r'.heartbeatElapsed = r.heartbeatElapsed
  timeout : r'.heartbeatTimeout = r.heartbeatTimeout
  within : r.books.Within beats → r'.books.Within beats

omit [Codec] in
theorem beating_stepLeaderCheckQuorum (r : Raft)
    (leads : r.stepLeaderCheckQuorum.state = .stateLeader)
    : r.Beating beats r.stepLeaderCheckQuorum := by
  unfold stepLeaderCheckQuorum at leads ⊢
  dsimp only at leads ⊢
  split at leads
  · cases leads
  · rename_i active
    rw [if_neg active]
    refine ⟨rfl, rfl, fun within => ⟨fun id pr found => ?_, within.replicate⟩⟩
    have found : (r.trk.progress.mapValues fun id pr =>
      if id ≠ r.id then { pr with recentActive := false } else pr).get? id = some pr := found
    rw [IdMap.get?_mapValues] at found
    obtain ⟨pr₀, known, rfl⟩ := Option.map_eq_some_iff.mp found
    have state := within.peers id pr₀ known
    split <;> exact state

/-- The check of the quorum, after which the leader may have stepped down. -/
theorem minds_checkLeadership (r : Raft) (leads : r.state = .stateLeader)
    : Ends r.checkLeadership (fun r' => r.Duties heard beats changes r'
        ∧ (r'.state = .stateLeader → r.Beating beats r')) fun _ => True := by
  have finish (r' : Raft) (known : r.Duties heard beats changes r'
        ∧ (r'.state = .stateLeader → r.Beating beats r'))
      : Ends (pure (if r'.state = .stateLeader ∧ r'.leadTransferee ≠ none64
          then r'.abortLeaderTransfer else r'))
        (fun r' => r.Duties heard beats changes r' ∧ (r'.state = .stateLeader → r.Beating beats r'))
        fun (_ : Panic) => True := by
    refine Ends.pure ?_
    split
    · refine ⟨known.1.trans (.of_books rfl), fun leads => ?_⟩
      obtain ⟨elapsed, timeout, within⟩ := known.2 leads
      exact ⟨elapsed, timeout, within⟩
    · exact known
  unfold checkLeadership
  refine Ends.ite (fun _ => ?_) fun _ =>
    finish _ ⟨.of_books rfl, fun _ => ⟨rfl, rfl, fun within => within⟩⟩
  rw [stepLocal_leader (by exact leads) (.inr rfl)]
  have same : r.Duties heard beats changes { r with electionElapsed := 0 } :=
    .of_books rfl
  refine finish _ ⟨same.trans (duties_stepLeaderCheckQuorum _), fun still => ?_⟩
  obtain ⟨elapsed, timeout, within⟩ := beating_stepLeaderCheckQuorum _ still
  exact ⟨elapsed, timeout, within⟩

/-- Ticks of a leader; the heartbeat is sent when it is due. -/
theorem minds_tickHeartbeat (r : Raft) (leads : r.state = .stateLeader)
    (may : r.heartbeatTimeout ≤ r.heartbeatElapsed + 1 → r.books.Within beats)
    : r.Minds heard beats changes r.tickHeartbeat self := by
  unfold tickHeartbeat
  refine Ends.ite (fun _ => ?_) fun _ => ?_
  · refine Ends.bind (@minds_checkLeadership _ heard beats changes _ leads) fun r' known => ?_
    by_cases still : r'.state = .stateLeader
    · obtain ⟨elapsed, timeout, within⟩ := known.2 still
      refine (r'.minds_beat ?_).since (Duties.trans (.of_books rfl) known.1)
      rw [elapsed, timeout]
      exact fun due => within (may due)
    · unfold beat
      refine Ends.ite (fun _ => ?_) fun leads => absurd still leads
      exact Duties.trans (.of_books rfl) known.1
  · exact (minds_beat _ may).since (.of_books rfl)

theorem conducts_tick (r : Raft)
    (may : r.heartbeatTimeout ≤ r.heartbeatElapsed + 1 → r.books.Within beats)
    : Ends r.tick (r.Conducts heard beats changes) fun _ => True := by
  have election : r.Defers r.tickElection self := by
    unfold tickElection
    refine .ite ?_ (.refl r)
    refine Leads.since (Leads.bind (Defers.done (defers_hup _ _)) fun res => Modest.refl res.1) ?_
    exact .refl r
  unfold tick
  split
  · rename_i leads
    exact (r.minds_tickHeartbeat leads may).conducts leads
  · rename_i lowly
    exact election.conducts lowly

theorem duties_applyConfChange (r : Raft) (cc : ConfChangeV2)
    : Ends (r.applyConfChange cc) (fun res => res.1.state = .stateLeader
        → r.state = .stateLeader ∧ r.Reacts heard beats cc res.1) fun _ => True := by
  by_cases leads : r.state = .stateLeader
  · exact Ends.mono (r.reacts_applyConfChange cc) (fun _ reacts _ => ⟨leads, reacts⟩)
      fun _ _ => trivial
  · have defers : r.Defers (r.applyConfChange cc) Prod.fst :=
      .skip fun _ => r.defers_switchToConfig _ _
    exact Ends.mono defers (fun _ modest leads' => absurd (modest leads') leads) fun _ _ => trivial

-----------------------------------------------------------------------------------------
-- Answers of the local threads
-----------------------------------------------------------------------------------------

/-- The log changes as `log` says, and then the leader does its duties. -/
abbrev Adjusts (heard : Message → Prop) (beats : ProgressState → Prop) (changes : Prop)
    {α : Type} (r : Raft)
    (log : Result RaftLog) (x : Result α) (node : α → Raft) : Prop :=
  Ends x (fun a => ∃ l, log = .ok l ∧ { r with raftLog := l }.Duties heard beats changes (node a))
    fun _ => True

/-- After an application the leader may propose to leave a joint configuration. -/
theorem adjusts_appliedTo (r : Raft) (index size : Nat)
    : r.Adjusts heard beats changes (r.raftLog.appliedTo (max index r.raftLog.applied) size)
        (r.appliedTo index size) self := by
  unfold appliedTo
  refine Ends.bind (Ends.of_eq (fun _ eq => eq) fun _ _ => trivial) fun l applies => ?_
  refine Ends.ite (fun _ => ?_) fun _ => ⟨l, applies, .refl _⟩
  have proposes :=
    @minds_stepLeaderProp _ heard beats changes { r with raftLog := l } leaveJointMsg
  exact Ends.bind proposes fun res duties => ⟨l, applies, duties⟩

theorem adjusts_appliedSnapOf {l : RaftLog} {current : Bool}
    (log : l = if current = true ∧ m.index ≠ 0
      then r.raftLog.stableTo { term := m.logTerm, index := m.index } else r.raftLog)
    : r.Adjusts heard beats changes (r.raftLog.stored current m)
        ({ r with raftLog := l }.appliedSnapOf m.snapshot) self := by
  unfold appliedSnapOf RaftLog.stored
  rw [← log]
  cases m.snapshot with
  | none => exact ⟨l, rfl, .refl _⟩
  | some s =>
      exact adjusts_appliedTo { r with raftLog := l.stableSnapTo s.metadata.index } _ _

/-- The node handles an answer of the append thread. -/
theorem adjusts_stored (type : m.type = .msgStorageAppendResp) (nonzero : m.term ≠ 0)
    (older : m.term ≤ r.term)
    : ∃ current : Bool, (current = true → m.term = r.term)
      ∧ r.Adjusts heard beats changes (r.raftLog.stored current m) (r.step m) Prod.fst := by
  have done {log : Result RaftLog} {x : Result Raft} (hx : r.Adjusts heard beats changes log x self)
      : r.Adjusts heard beats changes log (x >>= Raft.done) Prod.fst :=
    Ends.bind hx fun _ adjusted => adjusted
  unfold step
  rw [if_neg nonzero, if_neg (Nat.not_lt.mpr older)]
  by_cases lower : m.term < r.term
  · rw [if_pos lower]
    have lowerTerm : r.stepLowerTerm m = r.appliedSnapOf m.snapshot := by
      unfold stepLowerTerm
      rw [type, show (MessageType.msgStorageAppendResp == .msgHeartbeat
        || MessageType.msgStorageAppendResp == .msgApp) = false from rfl, Bool.and_false]
      rfl
    rw [lowerTerm]
    exact ⟨false, nofun, done (@adjusts_appliedSnapOf _ heard beats changes r m r.raftLog false
      (by simp))⟩
  · rw [if_neg lower]
    refine ⟨true, fun _ => by omega, ?_⟩
    have log : (if m.index ≠ 0 then { r with
          raftLog := r.raftLog.stableTo { term := m.logTerm, index := m.index } } else r)
        = { r with raftLog := if true = true ∧ m.index ≠ 0
          then r.raftLog.stableTo { term := m.logTerm, index := m.index } else r.raftLog } := by
      by_cases zero : m.index = 0 <;> simp [zero]
    unfold stepMessage
    simp only [type]
    rw [log]
    exact done (adjusts_appliedSnapOf rfl)

/-- The node handles an answer of the apply thread, after which the quota is reduced. -/
theorem adjusts_applied (type : m.type = .msgStorageApplyResp) (zero : m.term = 0)
    : Ends (r.step m) (fun res => (m.entries = [] ∧ res.1 = r)
        ∨ ∃ e l r', m.entries.getLast? = some e
          ∧ r.raftLog.appliedTo (max e.index r.raftLog.applied) (entsSize m.entries) = .ok l
          ∧ { r with raftLog := l }.Duties heard beats changes r'
          ∧ res.1 = r'.reduceUncommittedSize (payloadsSize m.entries)) fun _ => True := by
  unfold step
  rw [if_pos zero]
  unfold stepMessage
  simp only [type]
  cases last : m.entries.getLast? with
  | none => exact .inl ⟨List.getLast?_eq_none_iff.mp last, rfl⟩
  | some e =>
      refine Ends.bind (@adjusts_appliedTo _ heard beats changes r e.index (entsSize m.entries)) ?_
      rintro r' ⟨l, applies, duties⟩
      exact .inr ⟨e, l, r', rfl, applies, duties, rfl⟩

end Raft

end EtcdRaft
