import EtcdRaft.Membership.Dropped
import EtcdRaft.Refinement.Followers

/-! The steps of a leader as sequences of small actions. -/

namespace EtcdRaft

-----------------------------------------------------------------------------------------
-- Proposals
-----------------------------------------------------------------------------------------

namespace Proposal

variable {c : Core} {first index : Nat} {e : Entry} {es : List Entry}

/-- A normal entry in front of the others. -/
theorem cons_normal (normal : e.isConfChange = false)
    (proposal : Proposal c (first + 1) es index)
    : Proposal c first (e :: es) index := by
  cases proposal with
  | plain others same => exact .plain (by simpa [normal] using others) same
  | change settled position one pending =>
      refine .change settled (position + 1) ?_ (by omega)
      intro j e' found conf
      cases j with
      | zero =>
          simp only [List.getElem?_cons_zero, Option.some.injEq] at found
          rw [← found, normal] at conf
          cases conf
      | succ j => rw [one j e' found conf]
  | unchecked off last beyond =>
      refine .unchecked off (fun j e' found conf => ?_) (by omega)
      cases j with
      | zero =>
          simp only [List.getElem?_cons_zero, Option.some.injEq] at found
          rw [← found, normal] at conf
          cases conf
      | succ j =>
          have bound := last j e' found conf
          omega
  | absurd ahead => exact .absurd ahead

/-- An accepted change in front of the others. -/
theorem cons_change (allowed : c.pendingConfIndex ≤ c.raftLog.applied ∨ c.validation = false)
    (proposal : Proposal { c with pendingConfIndex := c.raftLog.lastIndex + first + 1 } (first + 1)
      es index)
    : Proposal c first (e :: es) index := by
  cases proposal with
  | plain others same =>
      cases allowed with
      | inl settled =>
          refine .change settled 0 ?_ same
          intro j e' found conf
          cases j with
          | zero => rfl
          | succ j =>
              rw [others e' (List.mem_of_getElem? found)] at conf
              cases conf
      | inr off =>
          simp only at same
          refine .unchecked off (fun j e' found conf => ?_) (.inr (by omega))
          cases j with
          | zero => exact same.ge
          | succ j =>
              rw [others e' (List.mem_of_getElem? found)] at conf
              cases conf
  | change settled => exact .absurd (by simp only at settled; omega)
  | unchecked off last beyond =>
      simp only at last beyond
      refine .unchecked off (fun j e' found conf => ?_) (.inr (by omega))
      cases j with
      | zero => omega
      | succ j =>
          have bound := last j e' found conf
          omega
  | absurd ahead => exact .absurd ahead

end Proposal

namespace Answers

variable {states states' : List ReadState} {msgs msgs' : List Message}
  {p p' : Nat → Nat → Prop}

theorem mono (answers : Answers states msgs p)
    (implied : ∀ index stamp, p index stamp → p' index stamp)
    : Answers states msgs p' :=
  ⟨fun rs member => implied _ _ (answers.1 rs member),
    fun m member => ⟨(answers.2 m member).1, implied _ _ (answers.2 m member).2⟩⟩

theorem append (answers : Answers states msgs p) (answers' : Answers states' msgs' p)
    : Answers (states ++ states') (msgs ++ msgs') p := by
  constructor
  · intro rs member
    exact (List.mem_append.mp member).elim (answers.1 rs) (answers'.1 rs)
  · intro m member
    exact (List.mem_append.mp member).elim (answers.2 m) (answers'.2 m)

end Answers

namespace Raft

theorem ends_takeLeadership (r : Raft)
    : Ends r.takeLeadership
        (fun r' => r'.core = { r.core.reset r.core.term with
          state := .stateLeader
          pendingConfIndex := r.core.raftLog.lastIndex })
        Benign := by
  unfold takeLeadership
  dsimp only
  split
  · exact rfl
  · rename_i pr found
    have progress := core_setProgress (p := { pr.becomeReplicate with recentActive := true })
      found rfl rfl
    rw [core_reset] at progress
    have log : (r.reset r.term).raftLog = r.core.raftLog :=
      congrArg Core.raftLog (r.core_reset _)
    rw [← log]
    exact congrArg (fun c : Core => { c with
      state := .stateLeader
      pendingConfIndex := (r.reset r.term).raftLog.lastIndex }) progress

theorem ends_answerReadIndexReq (r : Raft) (req : Message) (readIndex : Nat)
    : Ends (r.answerReadIndexReq req readIndex)
        (fun r' => ∃ states msgs, r'.core = r.core.answered states msgs
          ∧ Answers states msgs fun index stamp => index = readIndex ∧ stamp = req.stamp)
        Benign := by
  unfold answerReadIndexReq responseToReadIndexReq
  by_cases own : req.fromId = none64 ∨ req.fromId = r.id
  · simp only [own, ↓reduceIte]
    cases req.entries with
    | nil => exact rfl
    | cons e rest =>
        refine ⟨[{ index := readIndex, requestCtx := e.data, stamp := req.stamp }], [], ?_, ?_⟩
        · simp [Core.answered, core]
        · simp [Answers]
  · simp only [own, ↓reduceIte, except_pure, except_ok_bind]
    refine (send_atOnce rfl).mono ?_ fun _ h => h
    intro r' sent
    obtain ⟨sent, type, _, index, stamp, rfl⟩ := sent
    refine ⟨[], [sent], ?_, ?_⟩
    · simp [Core.answered, core]
    · simp [Answers, type, index, stamp]

theorem current_of_check {r : Raft} (current : r.committedEntryInCurrentTerm = true)
    : r.core.Current :=
  beq_iff_eq.mp current

theorem benign_recvAck (ro : ReadOnly) (id : Nat) (ctx : List UInt8)
    : Ends (ro.recvAck id ctx) (fun ro' => ro.recvAck id ctx = .ok ro') Benign := by
  have benign : Ends (ro.recvAck id ctx) (fun _ => True) Benign := by
    unfold ReadOnly.recvAck uint64
    refine Ends.ite (fun _ => Ends.bind (q := fun _ => True) ?_ fun _ _ => trivial) fun _ => trivial
    exact Ends.ite (fun _ => rfl) fun _ => trivial
  exact Ends.of_eq (fun _ eq => eq) fun p fails => benign.failure fails

theorem benign_maybeAdvance (ro : ReadOnly) (voters : JointConfig)
    : Ends (ro.maybeAdvance voters) (fun res => ro.maybeAdvance voters = .ok res) Benign := by
  have benign : Ends (ro.maybeAdvance voters) (fun _ => True) Benign := by
    unfold ReadOnly.maybeAdvance
    dsimp only
    refine Ends.ite (fun _ => trivial) fun _ => ?_
    exact Ends.ite (fun _ => rfl) fun _ => trivial
  exact Ends.of_eq (fun _ eq => eq) fun p fails => benign.failure fails

variable [Codec] {now : Nat} {m : Message}

theorem benign_confChangeOf (e : Entry)
    : Ends (confChangeOf e) (fun cc => confChangeOf e = .ok cc) Benign := by
  refine Ends.of_eq (fun _ eq => eq) fun p fails => ?_
  unfold confChangeOf at fails
  split at fails
  · cases fails
  · split at fails <;> cases fails
    rfl
  · split at fails <;> cases fails
    rfl

/-- One proposed entry is kept, which may make it the pending change, or becomes an empty
one.
-/
theorem ends_checkProposal (r : Raft) (i : Nat) (e : Entry)
    : Ends (r.checkProposal i e)
        (fun res =>
          res.1 = r ∧ res.2.isConfChange = false
            ∨ res.1 = { r with pendingConfIndex := r.raftLog.lastIndex + i + 1 } ∧ res.2 = e
              ∧ (r.pendingConfIndex ≤ r.raftLog.applied ∨ r.core.validation = false))
        Benign := by
  unfold checkProposal
  refine Ends.bind (benign_confChangeOf e) fun cc decoded => ?_
  cases cc with
  | none => exact .inl ⟨rfl, confChangeOf_none decoded⟩
  | some cc =>
      refine Ends.ite (fun _ => .inl ⟨rfl, by simp [Entry.isConfChange]⟩) fun passed => ?_
      refine .inr ⟨rfl, rfl, ?_⟩
      simp only [Bool.not_eq_true', not_and_or, not_or, Nat.not_lt] at passed
      exact passed.imp And.left fun off => by simpa [core] using off

theorem ends_checkProposals {r : Raft} {i : Nat} {es : List Entry}
    : Ends (r.checkProposals i es)
        (fun res => ∃ index, res.1 = { r with pendingConfIndex := index }
          ∧ Proposal r.core i res.2 index
          ∧ (index = r.pendingConfIndex ∨ r.raftLog.lastIndex ≤ index)
          ∧ res.2.length = es.length ∧ ∀ e ∈ res.2, e.isConfChange = true → e ∈ es)
        Benign := by
  induction es generalizing r i with
  | nil => exact ⟨_, rfl, .plain (by simp) rfl, .inl rfl, rfl, by simp⟩
  | cons e rest ih =>
      unfold checkProposals
      refine Ends.bind (r.ends_checkProposal i e) ?_
      intro first checked
      obtain ⟨r1, e1⟩ := first
      dsimp only at checked ⊢
      refine Ends.bind ih ?_
      intro others known
      obtain ⟨r2, rest1⟩ := others
      obtain ⟨index, same, proposal, beyond, length, source⟩ := known
      dsimp only at same proposal length source
      subst same
      rcases checked with ⟨same, normal⟩ | ⟨same, kept, allowed⟩
      · subst same
        refine ⟨index, rfl, proposal.cons_normal normal, beyond, congrArg (· + 1) length, ?_⟩
        intro e' member conf
        rcases List.mem_cons.mp member with rfl | member
        · rw [normal] at conf
          cases conf
        · exact List.mem_cons_of_mem _ (source e' member conf)
      · subst same kept
        refine ⟨index, rfl, proposal.cons_change allowed, ?_, congrArg (· + 1) length, ?_⟩
        · simp only at beyond
          omega
        · intro e' member conf
          rcases List.mem_cons.mp member with rfl | member
          · exact List.mem_cons_self
          · exact List.mem_cons_of_mem _ (source e' member conf)

theorem ends_appendEntry {r : Raft} {es : List Entry} (leads : r.state = .stateLeader)
    : Ends (r.appendEntry es)
        (fun res => if res.2
          then ∃ raftLog, r.raftLog.append (r.core.stamped es) = .ok raftLog
            ∧ res.1.core = r.core.appended raftLog
          else res.1.core = r.core)
        (Fails now m r.core) := by
  unfold appendEntry increaseUncommittedSize
  dsimp only
  split
  · exact rfl
  · refine Ends.bind (Ends.of_eq (fun _ eq => eq) fun p fails =>
      .of_corrupt (.append leads es fails)) ?_
    intro raftLog appends
    rw [send_appResp rfl rfl rfl]
    exact ⟨raftLog, appends, rfl⟩

/-- A proposal, of a client or of the leader itself. -/
theorem finishes_stepLeaderProp {r : Raft} {prop : Message}
    (leads : r.state = .stateLeader)
    (source : ∀ e ∈ prop.entries, e.isConfChange = true
      → (∃ e' ∈ m.entries, e'.isConfChange = true) ∨ r.trk.config.autoLeave = true)
    : Finishes now m r.core (r.stepLeaderProp prop) fun res => res.1.core := by
  unfold stepLeaderProp
  refine Ends.ite (fun _ => .of_benign rfl) fun nonempty => ?_
  refine Ends.ite (fun _ => .of_acts .refl) fun _ => ?_
  refine Ends.ite (fun _ => .of_acts .refl) fun _ => ?_
  refine Ends.bind (ends_checkProposals.mono (fun _ h => h) fun _ => .of_benign) ?_
  intro checked known
  obtain ⟨r1, es⟩ := checked
  obtain ⟨index, same, proposal, beyond, length, kept⟩ := known
  dsimp only at same proposal length kept ⊢
  subst same
  have pending : Acts now m r.core { r with pendingConfIndex := index }.core := by
    rcases beyond with unchanged | beyond
    · subst unchanged
      exact .refl
    · exact .single (.setPending index beyond)
  refine Ends.bind (Ends.mono (ends_appendEntry leads) (fun _ h => h) fun _ fails =>
    fails.after pending) ?_
  intro res appended
  obtain ⟨r2, ok⟩ := res
  cases ok with
  | false =>
      simp only [Bool.false_eq_true, ↓reduceIte] at appended
      refine Steps.of_acts ?_
      rw [appended]
      exact pending
  | true =>
      simp only [↓reduceIte] at appended
      obtain ⟨raftLog, appends, same⟩ := appended
      have leads2 : r2.state = .stateLeader := by
        have := congrArg Core.state same
        exact this.trans leads
      have some : es ≠ [] := by
        intro empty
        rw [empty, List.length_nil] at length
        exact nonempty length.symm
      have appended : Appends m r.core r2.core := by
        rw [same]
        exact .mk leads es some index proposal
          (fun e member conf => source e (kept e member conf) conf) raftLog appends
      exact Finishes.of_appends .refl appended
        ((onlySends_bcastAppend leads2).bind fun r3 _ => .refl m r3.core)

/-- A candidate that has won becomes the leader and appends an empty entry. -/
theorem ends_becomeLeader {r : Raft} (candidate : r.state = .stateCandidate)
    (won : r.core.config.voters.voteResult r.core.votes = .voteWon)
    (type : m.type = .msgVoteResp)
    : Ends r.becomeLeader
        (fun r' => r'.state = .stateLeader ∧ ∃ c, Acts now m r.core c ∧ Appends m c r'.core)
        (Fails now m r.core) := by
  unfold becomeLeader
  refine Ends.ite (fun _ => .of_benign rfl) fun _ => ?_
  refine Ends.bind (r.ends_takeLeadership.mono (fun _ h => h) fun _ => .of_benign) ?_
  intro r2 same2
  have win : Act now m r.core r2.core := by
    rw [same2]
    exact .win candidate won type
  have leads : r2.state = .stateLeader := congrArg Core.state same2
  refine Ends.bind (Ends.mono (ends_appendEntry leads) (fun _ h => h) fun _ fails =>
    fails.after (.single win)) ?_
  intro res appended
  obtain ⟨r3, ok⟩ := res
  cases ok with
  | false => exact .of_benign rfl
  | true =>
      simp only [↓reduceIte] at appended
      obtain ⟨raftLog, appends, same3⟩ := appended
      refine ⟨(congrArg Core.state same3).trans leads, r2.core, .single win, ?_⟩
      show Appends m r2.core r3.core
      rw [same3]
      exact .mk leads [{}] (by simp) r2.core.pendingConfIndex
        (.plain (by simp [Entry.isConfChange]) rfl) (by simp [Entry.isConfChange]) raftLog appends

-----------------------------------------------------------------------------------------
-- Reads
-----------------------------------------------------------------------------------------

/-- A read request at a leader that has committed an entry of its term. The requests that
wait are `r.pendingReadIndexMessages` for the code, which forgets them first; in `c` they
are still there.
-/
theorem ends_sendMsgReadIndexResponse {r : Raft} {c : Core} {req : Message}
    (same : r.core = { c with pendingReads := r.pendingReadIndexMessages })
    (leads : c.state = .stateLeader) (current : c.Current) (received : req.stamp ≤ now)
    (source : m.TakesRead c req)
    : Ends (r.sendMsgReadIndexResponse req)
        (fun r' => ∃ c', Acts now m c c'
          ∧ r'.core = { c' with pendingReads := r.pendingReadIndexMessages }
          ∧ c'.state = .stateLeader ∧ c'.Current ∧ c'.pendingReads = c.pendingReads)
        (Fails now m r.core) := by
  have state : r.state = .stateLeader := (congrArg Core.state same).trans leads
  have reads : r.readOnly = c.readOnly := congrArg Core.readOnly same
  unfold sendMsgReadIndexResponse
  cases option : r.readOnly.option with
  | readOnlySafe =>
      refine Ends.bind ((benign_recvAck _ _ _).mono (fun _ h => h) fun _ => .of_benign) ?_
      intro readOnly own
      have id : r.id = c.id := congrArg Core.id same
      have log : r.raftLog = c.raftLog := congrArg Core.raftLog same
      dsimp only at own
      rw [reads, id, log] at own
      rw [reads] at option
      have act : Act now m c { c with readOnly := readOnly } :=
        .register leads current option req received readOnly own source
      have same₁ : { r with readOnly := readOnly }.core
          = { c with readOnly := readOnly, pendingReads := r.pendingReadIndexMessages } :=
        congrArg (fun c : Core => { c with readOnly := readOnly }) same
      have sends := @onlySends_bcastHeartbeat _ m { r with readOnly := readOnly } state
      refine sends.mono ?_ fun p stops => stops.elim .of_benign fun misread => ?_
      · rintro r' ⟨new, same', may⟩
        rw [same₁] at same' may
        have sends : Sends m { c with readOnly := readOnly } { c with
            readOnly := readOnly
            msgs := c.msgs ++ new } :=
          ⟨new, rfl, fun sent member => (may sent member).congr⟩
        exact ⟨_, .head act sends.acts, same', leads, current, rfl⟩
      · exact .of_corrupt (.read misread)
  | readOnlyLeaseBased =>
      refine (r.ends_answerReadIndexReq _ _).mono ?_ fun _ => .of_benign
      rintro r' ⟨states, msgs, same', answers⟩
      have log : r.raftLog = c.raftLog := congrArg Core.raftLog same
      rw [reads] at option
      rw [same] at same'
      have act : Act now m c (c.answered states msgs) := by
        refine .answerAtOnce leads (.inr option) states msgs ?_
        exact answers.mono fun index stamp known => ⟨log ▸ known.1, known.2 ▸ received⟩
      exact ⟨_, .single act, same', leads, current, rfl⟩

theorem reaches_releasePendingReadIndexMessages {r : Raft} (type : m.type = .msgAppResp)
    (leads : r.state = .stateLeader)
    (received : ∀ q ∈ r.pendingReadIndexMessages, q.stamp ≤ now)
    : Reaches now m r.core r.releasePendingReadIndexMessages core fun r' =>
        r'.core.state = .stateLeader := by
  unfold releasePendingReadIndexMessages
  refine Ends.ite (fun _ => ⟨.refl, leads⟩) fun _ => ?_
  refine Ends.ite (fun _ => ⟨.refl, leads⟩) fun current => ?_
  have current : r.core.Current := current_of_check (by simpa using current)
  refine Ends.mono (Ends.foldlM (q := fun r' => ∃ c, Acts now m r.core c
    ∧ r'.core = { c with pendingReads := [] } ∧ c.state = .stateLeader ∧ c.Current
    ∧ c.pendingReads = r.pendingReadIndexMessages) ⟨r.core, .refl, rfl, leads, current, rfl⟩ ?_)
    ?_ fun _ fails => fails
  · rintro r' req member ⟨c, acts, same, leads, current, waiting⟩
    have none : r'.pendingReadIndexMessages = [] := congrArg Core.pendingReads same
    have known := @ends_sendMsgReadIndexResponse _ now m r' c req (none ▸ same) leads current
      (received req member) (.inr ⟨type, waiting ▸ member⟩)
    refine known.mono ?_ fun p fails => ?_
    · rintro r'' ⟨c', acts', same', leads', current', waiting'⟩
      exact ⟨c', acts.trans acts', none ▸ same', leads', current', waiting'.trans waiting⟩
    · rw [same] at fails
      exact fails.after (acts.tail .unpark)
  · rintro r' ⟨c, acts, same, leads, _, _⟩
    exact ⟨same ▸ acts.tail .unpark, (congrArg Core.state same).trans leads⟩

theorem reaches_stepLeaderReadIndex {r : Raft} (type : m.type = .msgReadIndex)
    (leads : r.state = .stateLeader) (received : m.stamp ≤ now)
    : Reaches now m r.core (r.stepLeaderReadIndex m) core fun _ => True := by
  unfold stepLeaderReadIndex
  refine Ends.ite (fun alone => ?_) fun several => ?_
  · have alone : r.core.isSingleton = true := alone
    refine Reaches.of_act ((r.ends_answerReadIndexReq _ _).mono ?_ fun _ h => h)
    intro r' answers
    obtain ⟨states, msgs, same, answers⟩ := answers
    rw [same]
    refine ⟨.answerAtOnce leads (.inl ⟨type, alone⟩) states msgs ?_, trivial⟩
    exact answers.mono fun index stamp known => ⟨known.1, known.2 ▸ received⟩
  · refine Ends.ite (fun _ => ⟨.single (.park type leads), trivial⟩) fun current => ?_
    have current : r.core.Current := current_of_check (by simpa using current)
    have several : r.core.isSingleton = false := Bool.eq_false_of_not_eq_true several
    have known := @ends_sendMsgReadIndexResponse _ now m r r.core m rfl leads current received
      (.inl ⟨type, several⟩)
    refine known.mono ?_ fun _ fails => fails
    rintro r' ⟨c, acts, same, _, _, waiting⟩
    have waiting : c.pendingReads = r.pendingReadIndexMessages := waiting
    rw [← waiting] at same
    exact ⟨same ▸ acts, trivial⟩

theorem reaches_confirmReads {r : Raft} (type : m.type = .msgHeartbeatResp)
    (leads : r.state = .stateLeader) (term : m.term = r.term)
    (safe : r.readOnly.option = .readOnlySafe)
    : Reaches now m r.core (r.confirmReads m) core fun _ => True := by
  unfold confirmReads
  refine Ends.bind ((benign_recvAck _ _ _).mono (fun _ h => h) fun _ => .of_benign) ?_
  intro acked acks
  refine Ends.bind ((benign_maybeAdvance _ _).mono (fun _ h => h) fun _ => .of_benign) ?_
  intro res advances
  obtain ⟨readOnly, reads⟩ := res
  refine Reaches.of_act (Ends.mono (Ends.foldlM (q := fun r' => ∃ states msgs,
    r'.core = { r.core with readOnly := readOnly }.answered states msgs
      ∧ Answers states msgs fun index stamp => ∃ q ∈ reads, index = q.index ∧ stamp = q.req.stamp)
    ⟨[], [], by simp [Core.answered, core], by simp [Answers]⟩ ?_) ?_ fun _ h => h)
  · intro r' read member reached
    obtain ⟨states, msgs, same, answers⟩ := reached
    refine (r'.ends_answerReadIndexReq _ _).mono ?_ fun _ h => h
    intro r'' more
    obtain ⟨states', msgs', same', answers'⟩ := more
    refine ⟨states ++ states', msgs ++ msgs', ?_, answers.append (answers'.mono ?_)⟩
    · rw [same', same]
      simp [Core.answered]
    · exact fun index stamp known => ⟨read, member, known⟩
  · intro r' reached
    obtain ⟨states, msgs, same, answers⟩ := reached
    rw [same]
    exact ⟨.confirm type leads term safe acked acks readOnly reads advances states msgs answers,
      trivial⟩

end Raft

end EtcdRaft
