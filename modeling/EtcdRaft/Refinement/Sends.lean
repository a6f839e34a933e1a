import EtcdRaft.Refinement.Acts

/-! The functions of a leader that only send messages. -/

namespace EtcdRaft

variable [Codec] {m : Message}

-----------------------------------------------------------------------------------------
-- Sending
-----------------------------------------------------------------------------------------

/-- `c'` is `c` with more messages that `c` may send. -/
def Sends (m : Message) (c c' : Core) : Prop :=
  ∃ new, c' = { c with msgs := c.msgs ++ new } ∧ ∀ sent ∈ new, MaySend m c sent

theorem MaySend.congr {c : Core} {l reads : List Message} {sent : Message}
    (may : MaySend m { c with msgs := l, pendingReads := reads } sent)
    : MaySend m c sent := by
  cases may with
  | app type leads term prev entries commit =>
      exact .app type leads term prev entries commit
  | snap type leads term snapshot nonempty =>
      exact .snap type leads term snapshot nonempty
  | heartbeat type leads term toId acked learner progress commit context =>
      exact .heartbeat type leads term toId acked learner progress commit context
  | vote type candidate term fromId last => exact .vote type candidate term fromId last
  | forward type forwarded entries => exact .forward type forwarded entries
  | other type => exact .other type

namespace Sends

variable {c c' c'' : Core}

theorem refl (m : Message) (c : Core) : Sends m c c := ⟨[], by simp, by simp⟩

theorem one {sent : Message} (may : MaySend m c sent)
    : Sends m c { c with msgs := c.msgs ++ [sent] } :=
  ⟨[sent], rfl, by simpa using may⟩

theorem trans (h : Sends m c c') (h' : Sends m c' c'') : Sends m c c'' := by
  obtain ⟨new, rfl, may⟩ := h
  obtain ⟨new', rfl, may'⟩ := h'
  refine ⟨new ++ new', by simp, ?_⟩
  intro sent member
  rcases List.mem_append.mp member with old | young
  · exact may sent old
  · exact (may' sent young).congr

theorem state (h : Sends m c c') : c'.state = c.state := by
  obtain ⟨new, rfl, _⟩ := h
  rfl

theorem id (h : Sends m c c') : c'.id = c.id := by
  obtain ⟨new, rfl, _⟩ := h
  rfl

theorem raftLog (h : Sends m c c') : c'.raftLog = c.raftLog := by
  obtain ⟨new, rfl, _⟩ := h
  rfl

theorem acts {now : Nat} (h : Sends m c c') : Acts now m c c' := by
  obtain ⟨new, rfl, may⟩ := h
  induction new generalizing c with
  | nil => simpa using Relation.ReflTransGen.refl
  | cons sent rest ih =>
      have later : ∀ s ∈ rest, MaySend m { c with msgs := c.msgs ++ [sent] } s := by
        intro s member
        apply MaySend.congr (l := c.msgs)
        exact may s (List.mem_cons_of_mem _ member)
      refine .head (.send sent (may sent List.mem_cons_self)) ?_
      simpa using ih later

end Sends

/-- A panic that is benign, or comes from reading the log. -/
def RaftLog.Stops (l : RaftLog) (p : Panic) : Prop := Benign p ∨ l.Misread p

/-- The call only sends messages. -/
def OnlySends {α : Type} (m : Message) (r : Raft) (x : Result α) (node : α → Raft) : Prop :=
  Ends x (fun a => Sends m r.core (node a).core) r.raftLog.Stops

theorem OnlySends.bind {α β : Type} {r : Raft} {x : Result α} {f : α → Result β}
    {node : α → Raft} {node' : β → Raft} (hx : OnlySends m r x node)
    (hf : ∀ a, Sends m r.core (node a).core → OnlySends m (node a) (f a) node')
    : OnlySends m r (x >>= f) node' := by
  refine Ends.bind hx fun a sends => ?_
  have same : (node a).raftLog = r.raftLog := sends.raftLog
  exact (hf a sends).mono (fun b sends' => sends.trans sends') fun _ stops => same ▸ stops

/-- A call that sends a message. -/
theorem OnlySends.of_benign {α β : Type} {r : Raft} {x : Result α} {f : α → Result β}
    {node : β → Raft} {q : α → Prop} (hx : Ends x q Benign)
    (hf : ∀ a, q a → OnlySends m r (f a) node)
    : OnlySends m r (x >>= f) node :=
  Ends.bind (hx.mono (fun _ known => known) fun _ => .inl) hf

namespace Raft

-----------------------------------------------------------------------------------------
-- Append messages and snapshots
-----------------------------------------------------------------------------------------

theorem onlySends_maybeSendSnapshot {r : Raft} {toId : Nat} {pr : Progress}
    (leads : r.state = .stateLeader) (found : r.trk.progress.get? toId = some pr)
    : OnlySends m r (r.maybeSendSnapshot toId pr) Prod.fst := by
  unfold maybeSendSnapshot
  split
  · exact .refl m r.core
  dsimp only
  split
  · exact .inl rfl
  rename_i nonempty
  refine OnlySends.of_benign (send_termed rfl rfl (by simp) (by simp) rfl) ?_
  rintro r' ⟨_, rfl⟩
  have same : (r.setProgress toId (pr.becomeSnapshot r.raftLog.snapshot.metadata.index)).core
      = r.core := core_setProgress found rfl rfl
  have may : MaySend m r.core {
      type := .msgSnap, toId := toId, fromId := r.id, term := r.term
      snapshot := some r.raftLog.snapshot } :=
    .snap rfl leads rfl rfl (Bool.eq_false_iff.mpr nonempty)
  have sends := Sends.one may
  rw [← same] at sends
  show Sends m r.core _
  rw [← same]
  exact sends

/-- The entries that a message for index `next` holds follow its previous index. -/
theorem entries_of_next {l : RaftLog} {next maxSize : Nat} {ents : List Entry}
    (read : l.entries next maxSize = .ok (.ok ents))
    : l.entries (next - 1 + 1) maxSize = .ok (.ok ents) := by
  cases next with
  | succ n => exact read
  | zero =>
      -- nothing is stored at index zero
      have first : 0 < l.firstIndex := by
        unfold RaftLog.firstIndex Unstable.maybeFirstIndex MemoryStorage.firstIndex
        cases l.unstable.snapshot <;> simp
      simp [RaftLog.entries, RaftLog.slice, RaftLog.mustCheckOutOfBounds, first] at read

theorem onlySends_sendEntries {r : Raft} {toId prevTerm : Nat} {pr : Progress}
    {sendIfEmpty : Bool} {read : Except StorageError (List Entry)}
    (leads : r.state = .stateLeader) (found : r.trk.progress.get? toId = some pr)
    (awake : pr.isPaused = false)
    (room : read = .ok [] ∨ pr.state ≠ .stateReplicate ∨ pr.inflights.full = false)
    (prev : r.raftLog.term (pr.next - 1) = .ok prevTerm)
    (known : ∀ ents, read = .ok ents → ents = []
      ∨ ∃ maxSize, r.raftLog.entries (pr.next - 1 + 1) maxSize = .ok (.ok ents))
    : OnlySends m r (r.sendEntries toId pr prevTerm sendIfEmpty read) Prod.fst := by
  unfold sendEntries
  cases read with
  | error err =>
      exact Ends.ite (fun _ => .refl m r.core) fun _ => onlySends_maybeSendSnapshot leads found
  | ok ents =>
      refine Ends.ite (fun _ => .refl m r.core) fun _ => ?_
      refine OnlySends.of_benign (send_termed rfl rfl (by simp) (by simp) rfl) ?_
      rintro r' ⟨_, rfl⟩
      have room : ents.length = 0 ∨ pr.state ≠ .stateReplicate ∨ pr.inflights.full = false := by
        refine room.imp_left ?_
        rintro ⟨⟩
        rfl
      refine OnlySends.of_benign (Progress.ends_sentEntries _ awake room) ?_
      rintro pr' ⟨sameMatch, sameLearner⟩
      have may : MaySend m r.core {
          type := .msgApp, toId := toId, fromId := r.id, term := r.term
          index := pr.next - 1, logTerm := prevTerm, entries := ents
          commit := r.raftLog.committed } :=
        .app rfl leads rfl prev (known ents rfl) rfl
      have same := core_setProgress (r := { r with msgs := r.msgs ++ [{
          type := .msgApp, toId := toId, fromId := r.id, term := r.term
          index := pr.next - 1, logTerm := prevTerm, entries := ents
          commit := r.raftLog.committed }] })
        (p := pr'.setSentCommit r.raftLog.committed) found sameMatch sameLearner
      show Sends m r.core (setProgress _ _ _).core
      rw [same]
      exact Sends.one may

theorem onlySends_maybeSendAppend {r : Raft} {toId : Nat} {sendIfEmpty : Bool}
    (leads : r.state = .stateLeader)
    : OnlySends m r (r.maybeSendAppend toId sendIfEmpty) Prod.fst := by
  unfold maybeSendAppend
  split
  · exact .inl rfl
  rename_i pr found
  refine Ends.ite (fun _ => .refl m r.core) fun awake => ?_
  have awake := Bool.eq_false_iff.mpr awake
  split
  · exact onlySends_maybeSendSnapshot leads found
  rename_i prevTerm prev
  refine Ends.ite (fun room => ?_) fun _ => ?_
  · refine Ends.bind (Ends.of_eq (fun read eq => eq) fun p fails =>
      .inr ((r.raftLog.ends_entries _ _).failure fails)) ?_
    intro read eq
    refine onlySends_sendEntries leads found awake (.inr (by simpa using room)) prev ?_
    rintro ents rfl
    exact .inr ⟨_, entries_of_next eq⟩
  · refine onlySends_sendEntries leads found awake (.inl rfl) prev ?_
    rintro ents ⟨⟩
    exact .inl rfl

theorem onlySends_sendAppend {r : Raft} {toId : Nat} (leads : r.state = .stateLeader)
    : OnlySends m r (r.sendAppend toId) fun r' => r' :=
  (onlySends_maybeSendAppend leads).bind fun _ _ => .refl m _

theorem onlySends_sendAppendLoop {toId fuel : Nat} {r : Raft}
    (leads : r.state = .stateLeader)
    : OnlySends m r (sendAppendLoop toId fuel r) fun r' => r' := by
  induction fuel generalizing r with
  | zero => exact .refl m r.core
  | succ fuel ih =>
      refine (onlySends_maybeSendAppend leads).bind ?_
      rintro ⟨r', sent⟩ sends
      have leads' : r'.state = .stateLeader := sends.state.trans leads
      exact Ends.ite (fun _ => ih leads') fun _ => .refl m r'.core

-----------------------------------------------------------------------------------------
-- Heartbeats and broadcasts
-----------------------------------------------------------------------------------------

theorem onlySends_sendHeartbeat {r : Raft} {toId : Nat} (leads : r.state = .stateLeader)
    (other : toId ≠ r.id)
    : OnlySends m r (r.sendHeartbeat toId r.readOnly.heartbeatCtx) fun r' => r' := by
  unfold sendHeartbeat
  split
  · exact .inl rfl
  rename_i pr found
  refine OnlySends.of_benign (send_termed rfl rfl (by simp) (by simp) rfl) ?_
  rintro r' ⟨_, rfl⟩
  have progress : r.core.progress toId = some (pr.match, pr.isLearner) := by
    simp [core, progressOf, found]
  have may : MaySend m r.core {
      type := .msgHeartbeat, toId := toId, fromId := r.id, term := r.term
      commit := min pr.match r.raftLog.committed, context := r.readOnly.heartbeatCtx } :=
    .heartbeat rfl leads rfl other pr.match pr.isLearner progress rfl rfl
  have same := core_setProgress (r := { r with msgs := r.msgs ++ [{
      type := .msgHeartbeat, toId := toId, fromId := r.id, term := r.term
      commit := min pr.match r.raftLog.committed, context := r.readOnly.heartbeatCtx }] })
    (p := pr.setSentCommit (min pr.match r.raftLog.committed)) found rfl rfl
  show Sends m r.core (setProgress _ _ _).core
  rw [same]
  exact Sends.one may

/-- A loop over the peers only sends if each round does. -/
theorem onlySends_visitPeers {r : Raft} {f : Raft → Nat → Result Raft}
    (rounds : ∀ r' id, Sends m r.core r'.core → id ≠ r'.id
      → OnlySends m r' (f r' id) fun r'' => r'')
    : OnlySends m r (r.visitPeers f) fun r' => r' := by
  unfold visitPeers
  refine Ends.foldlM (.refl m r.core) ?_
  intro r' id _ sends
  refine Ends.ite (fun _ => sends) fun other => ?_
  have same : r'.raftLog = r.raftLog := sends.raftLog
  exact (rounds r' id sends other).mono (fun r'' sends' => sends.trans sends')
    fun _ stops => same ▸ stops

theorem onlySends_bcastAppend {r : Raft} (leads : r.state = .stateLeader)
    : OnlySends m r r.bcastAppend fun r' => r' :=
  onlySends_visitPeers fun _ _ sends _ => onlySends_sendAppend (sends.state.trans leads)

theorem onlySends_bcastHeartbeat {r : Raft} (leads : r.state = .stateLeader)
    : OnlySends m r r.bcastHeartbeat fun r' => r' := by
  refine onlySends_visitPeers fun r' id sends other => ?_
  have same : r'.readOnly = r.readOnly := by
    obtain ⟨new, eq, _⟩ := sends
    exact congrArg Core.readOnly eq
  rw [← same]
  exact onlySends_sendHeartbeat (sends.state.trans leads) other

theorem onlySends_sendTimeoutNow {r : Raft} {toId : Nat}
    : OnlySends m r (r.sendTimeoutNow toId) fun r' => r' := by
  refine (send_termed rfl rfl (by simp) (by simp) rfl).mono ?_ fun _ => .inl
  rintro r' ⟨_, rfl⟩
  exact Sends.one (.other (.inr rfl))

theorem onlySends_announceCommit {r : Raft} {committed : Bool}
    (leads : r.state = .stateLeader)
    : OnlySends m r (r.announceCommit committed) fun r' => r' := by
  unfold announceCommit
  refine Ends.ite (fun _ => onlySends_bcastAppend leads) fun _ => ?_
  refine onlySends_visitPeers fun r' id sends _ => ?_
  exact (onlySends_maybeSendAppend (sends.state.trans leads)).bind fun _ _ => .refl m _

end Raft

end EtcdRaft
