import EtcdRaft.Refinement.Probing
import EtcdRaft.Refinement.Slices
import EtcdRaft.Tracking.Flow

/-! The loop in which a leader sends entries to a peer. It ends when there is nothing more
to send or no more may be sent, and its messages leave no gap.
-/

namespace EtcdRaft

section

variable [Codec] {r r' r₁ : Raft} {l : RaftLog} {c : List Entry} {id : Nat}
  {pr pr' : Progress}

/-- The entries that are read for a peer from the index `i` on: some, unless there are
none.
-/
theorem Shows.entries_eq (shows : Shows l c) {i : Nat} (maxSize : Nat)
    (available : l.firstIndex ≤ i)
    (present : i ≤ l.lastIndex + 1)
    : ∃ ents, l.entries i maxSize = .ok (.ok ents)
      ∧ ents = l.entriesBetween i (i + ents.length) ∧ i + ents.length ≤ l.lastIndex + 1
      ∧ (ents = [] → i = l.lastIndex + 1) := by
  have first := l.firstIndex_pos
  have last := shows.lastIndex
  unfold RaftLog.entries
  by_cases beyond : l.lastIndex < i
  · rw [if_pos beyond]
    refine ⟨[], rfl, ?_, present, fun _ => by omega⟩
    rw [shows.entriesBetween available]
    simp
  · rw [if_neg beyond, last]
    obtain ⟨ents, page, part, some_⟩ := shows.slice maxSize available
      (show i ≤ c.length + 1 by omega) (Nat.le_refl _)
    have whole := part.trans (List.take_prefix _ _)
    have length := whole.length_le
    rw [List.length_drop] at length
    refine ⟨ents, page, ?_, by omega, fun empty => absurd empty (some_ (by omega))⟩
    rw [shows.entriesBetween available, Nat.add_sub_cancel_left]
    exact List.prefix_iff_eq_take.mp whole

theorem RaftLog.entries_compacted {i maxSize : Nat} (missing : i < l.firstIndex)
    (present : i ≤ l.lastIndex)
    : l.entries i maxSize = .ok (.error .errCompacted) := by
  unfold RaftLog.entries RaftLog.slice RaftLog.mustCheckOutOfBounds
  rw [if_neg (Nat.not_lt.mpr present), if_neg (by omega)]
  dsimp only
  rw [if_pos missing]
  rfl

/-- Appends to the peer `id` with consecutive parts of the log that are not empty, from
the index `lo` up to `hi`. Each names the entry before its part.
-/
def RaftLog.Ranges (l : RaftLog) (id : Nat) : List Message → Nat → Nat → Prop
  | [], lo, hi => lo = hi
  | m :: rest, lo, hi =>
      m.type = .msgApp ∧ m.toId = id ∧ m.entries ≠ [] ∧ m.index + 1 = lo
        ∧ l.Contains { term := m.logTerm, index := m.index }
        ∧ m.entries = l.entriesBetween lo (lo + m.entries.length)
        ∧ Ranges l id rest (lo + m.entries.length) hi

namespace Progress

omit [Codec] in
theorem sentEntries_replicate {n bytes : Nat} (replicates : pr.state = .stateReplicate)
    (sent : pr.sentEntries n bytes = .ok pr')
    : pr'.state = pr.state ∧ pr'.next = pr.next + n := by
  unfold sentEntries at sent
  simp only [replicates] at sent
  split at sent
  · obtain ⟨inflights, _, eq⟩ := except_bind_eq_ok.mp sent
    cases eq
    exact ⟨replicates.symm, rfl⟩
  · cases sent
    exact ⟨replicates.symm, by simp only; omega⟩

omit [Codec] in
theorem sentEntries_probe {n bytes : Nat} (probes : pr.state = .stateProbe)
    (some_ : 0 < n) (sent : pr.sentEntries n bytes = .ok pr')
    : pr'.isPaused = true := by
  unfold sentEntries at sent
  simp only [probes] at sent
  rw [if_pos some_] at sent
  cases sent
  simp [isPaused]

end Progress

namespace Raft

/-- What a leader relies on when it sends entries to the peer `id`: its log is in order,
there is a snapshot of what is compacted, and the flow control of the peer is in order.
-/
structure CanSend (r : Raft) (id : Nat) (pr : Progress) : Prop where
  log : r.raftLog.WellFormed
  covers : r.raftLog.firstIndex ≤ r.raftLog.snapshot.metadata.index + 1
  apart : id ≠ r.id
  tracked : r.trk.progress.get? id = some pr
  flows : ∃ queue, pr.Flows r.raftLog.lastIndex queue

/-- Nothing more can be sent to a peer that entries are streamed to. -/
def Exhausted (r : Raft) (pr : Progress) : Prop :=
  pr.next = r.raftLog.lastIndex + 1 ∨ pr.inflights.full = true ∨ pr.next < r.raftLog.firstIndex

-----------------------------------------------------------------------------------------
-- One call
-----------------------------------------------------------------------------------------

omit [Codec] in
/-- A message to a peer that need not wait for the storage. -/
theorem send_eq (r : Raft) {m : Message} (apart : m.toId ≠ r.id)
    (sender : m.fromId = none64)
    (term : m.term = 0) (type : m.type = .msgApp ∨ m.type = .msgSnap)
    : r.send m = .ok { r with msgs := r.msgs ++ [{ m with fromId := r.id, term := r.term }] } := by
  unfold send
  rcases type with type | type <;>
  · rw [r.stampTerm_eq sender term (by rw [type]; rfl) (by simp [type])]
    simp only [except_ok_bind, type, isAfterAppend, Bool.false_eq_true, if_false, if_neg apart]
    rfl

/-- What a call of `maybeSendAppend` does for the loop. -/
inductive Round (r : Raft) (id : Nat) (pr : Progress) : Raft × Bool → Prop where
  | stop (why : pr.state = .stateReplicate → r.Exhausted pr) : Round r id pr (r, false)
  | append {t : Nat} {ents : List Entry} {pr' : Progress} (awake : pr.isPaused = false)
      (available : r.raftLog.firstIndex ≤ pr.next) (nonempty : ents ≠ [])
      (present : pr.next + ents.length ≤ r.raftLog.lastIndex + 1)
      (room : pr.state ≠ .stateReplicate ∨ pr.inflights.full = false)
      (names : r.raftLog.Contains { term := t, index := pr.next - 1 })
      (part : ents = r.raftLog.entriesBetween pr.next (pr.next + ents.length))
      (sent : pr.sentEntries ents.length (payloadsSize ents) = .ok pr')
    : Round r id pr ({ r with msgs := r.msgs ++ [r.appendMessage id pr.next t ents] }.setProgress id
        (pr'.setSentCommit r.raftLog.committed), true)
  | snapshot {m : Message} (missing : pr.next < r.raftLog.firstIndex) (type : m.type = .msgSnap)
    : Round r id pr ({ r with msgs := r.msgs ++ [m] }.setProgress id
        (pr.becomeSnapshot r.raftLog.snapshot.metadata.index), true)

theorem maybeSendAppend_paused {sendIfEmpty : Bool}
    (tracked : r.trk.progress.get? id = some pr) (paused : pr.isPaused = true)
    : r.maybeSendAppend id sendIfEmpty = .ok (r, false) := by
  unfold maybeSendAppend
  simp only [tracked, paused, if_true]
  rfl

omit [Codec] in
/-- The flow control never refuses a message that there is room for. -/
theorem CanSend.exists_sent (ok : r.CanSend id pr) (awake : pr.isPaused = false)
    (room : pr.state ≠ .stateReplicate ∨ pr.inflights.full = false) {n : Nat}
    (some_ : 0 < n) (bytes : Nat)
    : ∃ pr', pr.sentEntries n bytes = .ok pr' := by
  obtain ⟨queue, flows⟩ := ok.flows
  unfold Progress.sentEntries
  cases state : pr.state with
  | stateProbe => exact ⟨_, rfl⟩
  | stateReplicate =>
      have later : ∀ m ∈ queue, m.index < pr.next + n - 1 := by
        intro m member
        have below := flows.below member
        omega
      obtain ⟨inflights, added, _⟩ := flows.window.add bytes
        (room.resolve_left fun other => other state) later
      simp only [if_pos some_, added]
      exact ⟨_, rfl⟩
  | stateSnapshot =>
      unfold Progress.isPaused at awake
      rw [state] at awake
      cases awake

omit [Codec] in
/-- A snapshot is sent for entries that are compacted, unless the peer is not active. -/
theorem CanSend.maybeSendSnapshot (ok : r.CanSend id pr)
    (missing : pr.next < r.raftLog.firstIndex)
    : ∃ res, r.maybeSendSnapshot id pr = .ok res ∧ r.Round id pr res := by
  obtain ⟨queue, flows⟩ := ok.flows
  have covers := ok.covers
  have ahead := flows.ahead
  unfold Raft.maybeSendSnapshot
  cases active : pr.recentActive with
  | false => exact ⟨_, rfl, .stop fun _ => .inr (.inr missing)⟩
  | true =>
      have some_ : isEmptySnap (some r.raftLog.snapshot) = false := by
        rw [isEmptySnap, Option.getD_some, beq_eq_false_iff_ne]
        omega
      have sent := (r.setProgress id (pr.becomeSnapshot r.raftLog.snapshot.metadata.index)).send_eq
        (m := { type := .msgSnap, toId := id, snapshot := some r.raftLog.snapshot }) ok.apart rfl
        rfl (.inr rfl)
      simp only [Bool.not_true, Bool.false_eq_true, if_false, some_, sent]
      exact ⟨_, rfl, .snapshot missing rfl⟩

/-- A call of `maybeSendAppend` does not fail, and sends as much as it may. -/
theorem CanSend.round (ok : r.CanSend id pr)
    : ∃ res, r.maybeSendAppend id false = .ok res ∧ r.Round id pr res := by
  obtain ⟨c, shows⟩ := ok.log.exists_shows
  obtain ⟨queue, flows⟩ := ok.flows
  have ahead := flows.ahead
  have within := flows.within
  have last := shows.lastIndex
  by_cases paused : pr.isPaused = true
  · refine ⟨_, maybeSendAppend_paused ok.tracked paused, .stop fun replicates => .inr (.inl ?_)⟩
    unfold Progress.isPaused at paused
    rw [replicates] at paused
    exact flows.paused replicates paused
  have awake : pr.isPaused = false := (Bool.not_eq_true _).mp paused
  unfold maybeSendAppend
  simp only [ok.tracked, awake, Bool.false_eq_true, if_false]
  by_cases available : r.raftLog.firstIndex ≤ pr.next
  · have read := @Shows.term _ _ shows (pr.next - 1) (by omega) (by omega)
    have names : r.raftLog.Contains { term := termAt c (pr.next - 1), index := pr.next - 1 } := by
      rw [shows.contains_iff]
      exact ⟨.inl (show _ ≤ pr.next - 1 + 1 by omega), show pr.next - 1 ≤ _ by omega, rfl⟩
    simp only [read]
    by_cases room : pr.state ≠ .stateReplicate ∨ (!pr.inflights.full) = true
    · obtain ⟨ents, page, part, present, some_⟩ :=
        @Shows.entries_eq _ _ _ shows pr.next r.maxMsgSize available within
      have room' : pr.state ≠ .stateReplicate ∨ pr.inflights.full = false :=
        room.imp_right fun free => by simpa using free
      simp only [if_pos room, page, except_ok_bind]
      unfold sendEntries
      by_cases empty : ents = []
      · simp only [empty, List.length_nil, Bool.not_false, and_self, if_true]
        exact ⟨_, rfl, .stop fun _ => .inl (some_ empty)⟩
      · have count : 0 < ents.length := List.length_pos_iff.mpr empty
        obtain ⟨pr', counted⟩ := ok.exists_sent awake room' count (payloadsSize ents)
        have sent := r.send_eq (m := {
            type := .msgApp, toId := id, index := pr.next - 1, logTerm := termAt c (pr.next - 1)
            entries := ents, commit := r.raftLog.committed }) ok.apart rfl rfl (.inl rfl)
        simp only [Nat.ne_of_gt count, false_and, if_false, sent, counted, except_ok_bind]
        exact ⟨_, rfl, .append awake available empty present room' names part counted⟩
    · rw [if_neg room]
      simp only [not_or, not_not, Bool.not_eq_true', Bool.not_eq_false] at room
      simp only [sendEntries, List.length_nil, Bool.not_false, and_self, if_true]
      exact ⟨_, rfl, .stop fun _ => .inr (.inl room.2)⟩
  · have missing := Nat.lt_of_not_le available
    cases read : r.raftLog.term (pr.next - 1) with
    | error err => exact ok.maybeSendSnapshot missing
    | ok t =>
        -- the term of an entry that is still unstable, though the storage has compacted it
        refine ⟨(r, false), ?_, .stop fun _ => .inr (.inr missing)⟩
        have first := shows.firstIndex_le
        dsimp only
        split
        · rw [RaftLog.entries_compacted missing (by omega)]
          rfl
        · rfl

-----------------------------------------------------------------------------------------
-- The loop
-----------------------------------------------------------------------------------------

/-- The loop ends in `r'`, after less than `n` messages. -/
structure Exhausts (r : Raft) (id n : Nat) (r' : Raft) : Prop where
  loop : ∀ fuel, n ≤ fuel → sendAppendLoop id fuel r = .ok r'
  done : r'.maybeSendAppend id false = .ok (r', false)

theorem Exhausts.stop (done : r.maybeSendAppend id false = .ok (r, false))
    : r.Exhausts id 1 r := by
  refine ⟨fun fuel enough => ?_, done⟩
  obtain ⟨fuel, rfl⟩ := Nat.exists_eq_succ_of_ne_zero (Nat.ne_of_gt enough)
  unfold sendAppendLoop
  rw [done]
  rfl

theorem Exhausts.again {n : Nat} (sent : r.maybeSendAppend id false = .ok (r₁, true))
    (rest : r₁.Exhausts id n r')
    : r.Exhausts id (n + 1) r' := by
  refine ⟨fun fuel enough => ?_, rest.done⟩
  obtain ⟨fuel, rfl⟩ := Nat.exists_eq_add_of_le' (Nat.le_of_add_left_le enough)
  unfold sendAppendLoop
  rw [sent]
  exact rest.loop fuel (by omega)

theorem Exhausts.mono {n n' : Nat} (exhausts : r.Exhausts id n r') (more : n ≤ n')
    : r.Exhausts id n' r' :=
  ⟨fun fuel enough => exhausts.loop fuel (more.trans enough), exhausts.done⟩

/-- The peer is sent what the leader has, as far as it is streamed to. -/
theorem CanSend.replicate {n : Nat} (ok : r.CanSend id pr)
    (replicates : pr.state = .stateReplicate)
    (rounds : r.raftLog.lastIndex + 1 = pr.next + n)
    : ∃ r' pr' apps snaps hi, r.Exhausts id (n + 1) r'
      ∧ r'.msgs = r.msgs ++ (apps ++ snaps) ∧ r'.trk.progress.get? id = some pr'
      ∧ r.raftLog.Ranges id apps pr.next hi
      ∧ ((snaps = [] ∧ pr'.state = .stateReplicate ∧ pr'.next = hi ∧ r.Exhausted pr')
        ∨ (apps = [] ∧ (∃ m, snaps = [m] ∧ m.type = .msgSnap)
          ∧ pr.next < r.raftLog.firstIndex)) := by
  induction n using Nat.strong_induction_on generalizing r pr with
  | _ n ih =>
      obtain ⟨res, called, round⟩ := ok.round
      cases round with
      | stop why =>
          exact ⟨r, pr, [], [], pr.next, (Exhausts.stop called).mono (by omega),
            (List.append_nil _).symm, ok.tracked, rfl, .inl ⟨rfl, replicates, rfl, why replicates⟩⟩
      | @append t ents pr₁ awake available nonempty present room names part sent =>
          obtain ⟨queue, flows⟩ := ok.flows
          have count : 0 < ents.length := List.length_pos_iff.mpr nonempty
          have ahead := flows.ahead
          obtain ⟨queue', flows'⟩ := flows.sentEntries (.inr room) (.inr present) sent
          obtain ⟨state, next⟩ := Progress.sentEntries_replicate replicates sent
          have ok' : (
              { r with msgs := r.msgs ++ [r.appendMessage id pr.next t ents] }.setProgress id
              (pr₁.setSentCommit r.raftLog.committed)).CanSend id
                (pr₁.setSentCommit r.raftLog.committed) :=
            ⟨ok.log, ok.covers, ok.apart, get?_setProgress _ _ _, queue', flows'.setSentCommit _⟩
          obtain ⟨r', pr', apps, snaps, hi, exhausts, msgs, tracked, ranges, outcome⟩ :=
            ih (n - ents.length) (by omega) ok' (state.trans replicates)
              (by show r.raftLog.lastIndex + 1 = pr₁.next + _; omega)
          refine ⟨r', pr', r.appendMessage id pr.next t ents :: apps, snaps, hi,
            (exhausts.again called).mono (by omega), ?_, tracked, ?_, ?_⟩
          · rw [msgs]
            simp [setProgress]
          · have ranges : r.raftLog.Ranges id apps pr₁.next hi := ranges
            rw [next] at ranges
            exact ⟨rfl, rfl, nonempty, Nat.sub_add_cancel (by omega), names, part, ranges⟩
          · rcases outcome with done | ⟨_, _, missing⟩
            · exact .inl done
            · have missing : pr₁.next < r.raftLog.firstIndex := missing
              omega
      | @snapshot m missing type =>
          have first := ok.log.firstIndex.trans (Nat.succ_le_succ ok.log.committed)
          have done := @maybeSendAppend_paused _ _ _ _ false
            (get?_setProgress { r with msgs := r.msgs ++ [m] } id
              (pr.becomeSnapshot r.raftLog.snapshot.metadata.index)) rfl
          exact ⟨_, _, [], [m], pr.next, ((Exhausts.stop done).again called).mono (by omega), rfl,
            get?_setProgress _ _ _, rfl, .inr ⟨rfl, ⟨m, rfl, type⟩, missing⟩⟩

/-- The loop in which a leader sends entries to a peer ends, for every `maxMsgSize`. A
peer that is streamed to gets consecutive parts of the log, as many as there are and the
window has room for, or a single snapshot if the next entry is compacted; a peer that is
probed gets a single message.
-/
theorem CanSend.sendAppendLoop_ok (ok : r.CanSend id pr)
    : ∃ r' pr' apps snaps hi,
      (∀ fuel, r.raftLog.lastIndex + 1 ≤ fuel → sendAppendLoop id fuel r = .ok r')
      ∧ r'.maybeSendAppend id false = .ok (r', false)
      ∧ r'.msgs = r.msgs ++ (apps ++ snaps) ∧ r'.trk.progress.get? id = some pr'
      ∧ r.raftLog.Ranges id apps pr.next hi ∧ (∀ m ∈ snaps, m.type = .msgSnap)
      ∧ (pr.state = .stateReplicate →
        (snaps = [] ∧ pr'.next = hi ∧ (pr'.next = r.raftLog.lastIndex + 1
          ∨ pr'.inflights.full = true ∨ pr'.next < r.raftLog.firstIndex))
        ∨ (apps = [] ∧ snaps.length = 1 ∧ pr.next < r.raftLog.firstIndex))
      ∧ (pr.state = .stateProbe → apps.length + snaps.length ≤ 1)
      ∧ (pr.state = .stateSnapshot → apps = [] ∧ snaps = []) := by
  obtain ⟨queue, flows⟩ := ok.flows
  have ahead := flows.ahead
  have within := flows.within
  obtain ⟨res, called, round⟩ := ok.round
  cases state : pr.state with
  | stateReplicate =>
      obtain ⟨n, rounds⟩ := Nat.exists_eq_add_of_le within
      obtain ⟨r', pr', apps, snaps, hi, exhausts, msgs, tracked, ranges, outcome⟩ :=
        ok.replicate state rounds
      refine ⟨r', pr', apps, snaps, hi, (exhausts.mono (by omega)).loop, exhausts.done, msgs,
        tracked, ranges, ?_, fun _ => ?_, by simp, by simp⟩
      · rcases outcome with ⟨rfl, _⟩ | ⟨_, ⟨m, rfl, type⟩, _⟩
        · exact List.forall_mem_nil _
        · exact List.forall_mem_singleton.mpr type
      · rcases outcome with ⟨none, _, next, done⟩ | ⟨none, ⟨m, rfl, _⟩, missing⟩
        · exact .inl ⟨none, next, done⟩
        · exact .inr ⟨none, rfl, missing⟩
  | stateSnapshot =>
      have done := @maybeSendAppend_paused _ _ _ _ false ok.tracked
        (by simp [Progress.isPaused, state])
      exact ⟨r, pr, [], [], pr.next, ((Exhausts.stop done).mono (by omega)).loop, done,
        (List.append_nil _).symm, ok.tracked, rfl, List.forall_mem_nil _, by simp, by simp,
        fun _ => ⟨rfl, rfl⟩⟩
  | stateProbe =>
      cases round with
      | stop why =>
          exact ⟨r, pr, [], [], pr.next, ((Exhausts.stop called).mono (by omega)).loop, called,
            (List.append_nil _).symm, ok.tracked, rfl, List.forall_mem_nil _, by simp,
            fun _ => Nat.zero_le _, by simp⟩
      | @append t ents pr₁ awake available nonempty present room names part sent =>
          have count : 0 < ents.length := List.length_pos_iff.mpr nonempty
          have paused : pr₁.isPaused = true := Progress.sentEntries_probe state count sent
          have done := @maybeSendAppend_paused _ _ _ _ false
            (get?_setProgress { r with msgs := r.msgs ++ [r.appendMessage id pr.next t ents] } id
              (pr₁.setSentCommit r.raftLog.committed)) paused
          exact ⟨_, _, [_], [], _, (((Exhausts.stop done).again called).mono (by omega)).loop,
            done, rfl, get?_setProgress _ _ _,
            ⟨rfl, rfl, nonempty, Nat.sub_add_cancel (by omega), names, part, rfl⟩,
            List.forall_mem_nil _, by simp, fun _ => Nat.le_refl _, by simp⟩
      | @snapshot m missing type =>
          have first := ok.log.firstIndex.trans (Nat.succ_le_succ ok.log.committed)
          have done := @maybeSendAppend_paused _ _ _ _ false
            (get?_setProgress { r with msgs := r.msgs ++ [m] } id
              (pr.becomeSnapshot r.raftLog.snapshot.metadata.index)) rfl
          exact ⟨_, _, [], [m], pr.next, (((Exhausts.stop done).again called).mono (by omega)).loop,
            done, rfl, get?_setProgress _ _ _, rfl, List.forall_mem_singleton.mpr type, by simp,
            fun _ => Nat.le_refl _, by simp⟩

end Raft

end

attribute [local instance] Codec.wire

/-- A peer that gets at most two messages at a time. -/
def narrow : Progress where
  next := 1
  state := .stateReplicate
  inflights := newInflights 2 0

/-- A leader with four entries, each of which makes a message of its own. -/
def trickling : Raft :=
  { nodeWithTerms 1 [] 0 (IdMap.empty.insert 2 narrow) with raftLog := straddling, maxMsgSize := 0 }

theorem sendAppendLoop_ok_trickling
    : trickling.CanSend 2 narrow ∧ ∃ (r' : Raft) (pr' : Progress) (apps : List Message),
      Raft.sendAppendLoop 2 7 trickling = .ok r' ∧ r'.msgs = apps ∧ apps.length = 2
        ∧ straddling.Ranges 2 apps 1 pr'.next ∧ pr'.next = 3
      ∧ pr'.inflights.full = true := by
  have canSend : trickling.CanSend 2 narrow :=
    ⟨by decide, by decide, by decide, rfl, [], Inflights.carries_new _ _, by decide, by decide,
      by decide, fun _ => rfl, fun _ => rfl, nofun, nofun, nofun⟩
  have computed : (Raft.sendAppendLoop 2 7 trickling).map (fun r => (r.msgs.length,
      (r.trk.progress.get? 2).map fun pr => (pr.next, pr.inflights.full)))
        = .ok (2, some (3, true)) := by
    decide +kernel
  obtain ⟨r', pr', apps, snaps, hi, loop, _, msgs, tracked, ranges, _, streams, _⟩ :=
    canSend.sendAppendLoop_ok
  have loop := loop 7 (by decide)
  rw [loop] at computed
  simp only [Except.map, tracked, Option.map_some, Except.ok.injEq, Prod.mk.injEq,
    Option.some.injEq]
    at computed
  rcases streams rfl with ⟨none, next, _⟩ | ⟨_, _, missing⟩
  · subst none next
    rw [List.append_nil] at msgs
    rw [msgs] at computed
    exact ⟨canSend, r', pr', apps, loop, msgs, computed.1, ranges, computed.2⟩
  · exact absurd missing (by decide)

end EtcdRaft
