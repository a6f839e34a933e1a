import EtcdRaft.Membership.Tracked
import EtcdRaft.Tracking.Inflights
import EtcdRaft.Tracking.Ledger

/-! The flow control of a leader: what it knows about a peer, which entries are in flight
to it and which one it sends next, along all its duties.
-/

namespace EtcdRaft

-----------------------------------------------------------------------------------------
-- One peer
-----------------------------------------------------------------------------------------

/-- The progress of a peer of a leader with the last index `last`, while the messages
`queue` are in flight.
-/
structure Progress.Flows (pr : Progress) (last : Nat) (queue : List Inflight) : Prop where
  window : pr.inflights.Carries queue
  ahead : pr.match < pr.next
  within : pr.next ≤ last + 1
  waits : pr.pendingSnapshot ≤ last
  idle : pr.state ≠ .stateReplicate → queue = []
  pending : pr.state ≠ .stateSnapshot → pr.pendingSnapshot = 0
  above : ∀ m ∈ queue, pr.match < m.index
  newest : ∀ m, queue.getLast? = some m → m.index + 1 = pr.next
  paused : pr.state = .stateReplicate → pr.msgAppFlowPaused = true → pr.inflights.full = true

namespace Progress.Flows

variable {pr pr' : Progress} {last : Nat} {queue : List Inflight}

theorem below (flows : pr.Flows last queue) {m : Inflight} (member : m ∈ queue)
    : m.index < pr.next := by
  obtain ⟨init, newest, rfl⟩ : ∃ init newest, queue = init ++ [newest] :=
    List.eq_nil_or_concat' queue |>.resolve_left (List.ne_nil_of_mem member)
  have next := flows.newest newest (by simp)
  rcases List.mem_append.mp member with earlier | final
  · have ordered := (List.pairwise_append.mp flows.window.ordered).2.2 m earlier newest (by simp)
    omega
  · rw [List.mem_singleton.mp final]
    omega

/-- More entries in the log. -/
theorem mono {last' : Nat} (flows : pr.Flows last queue) (more : last ≤ last')
    : pr.Flows last' queue :=
  { flows with
    within := flows.within.trans (Nat.succ_le_succ more)
    waits := flows.waits.trans more }

/-- What the flow control does not depend on. -/
theorem congr (flows : pr.Flows last queue) (inflights : pr'.inflights = pr.inflights)
    («match» : pr'.match = pr.match) (next : pr'.next = pr.next)
    (pendingSnapshot : pr'.pendingSnapshot = pr.pendingSnapshot)
    (state : pr'.state = pr.state)
    (paused : pr'.msgAppFlowPaused = true → pr.msgAppFlowPaused = true)
    : pr'.Flows last queue where
  window := inflights ▸ flows.window
  ahead := by rw [«match», next]; exact flows.ahead
  within := next ▸ flows.within
  waits := pendingSnapshot ▸ flows.waits
  idle := state ▸ flows.idle
  pending := by rw [state, pendingSnapshot]; exact flows.pending
  above := «match» ▸ flows.above
  newest := next ▸ flows.newest
  paused := by
    rw [state, inflights]
    exact fun replicates stops => flows.paused replicates (paused stops)

theorem setSentCommit (flows : pr.Flows last queue) (commit : Nat)
    : (pr.setSentCommit commit).Flows last queue :=
  flows.congr rfl rfl rfl rfl rfl id

/-- A change of the state empties the window. -/
theorem reset (flows : pr.Flows last queue)
    (inflights : pr'.inflights = pr.inflights.reset)
    (ahead : pr'.match < pr'.next) (within : pr'.next ≤ last + 1)
    (waits : pr'.pendingSnapshot ≤ last)
    (pending : pr'.state ≠ .stateSnapshot → pr'.pendingSnapshot = 0)
    (awake : pr'.state = .stateReplicate → pr'.msgAppFlowPaused = false)
    : pr'.Flows last [] where
  window := inflights ▸ flows.window.reset
  ahead := ahead
  within := within
  waits := waits
  idle := fun _ => rfl
  pending := pending
  above := nofun
  newest := nofun
  paused := fun replicates stops => absurd ((awake replicates).symm.trans stops) nofun

/-- A peer is probed from the matched index on, or from a snapshot that it may have. -/
theorem probe (flows : pr.Flows last queue) (inflights : pr'.inflights = pr.inflights)
    («match» : pr'.match = pr.match) (waits : pr'.pendingSnapshot ≤ last)
    : pr'.becomeProbe.Flows last [] := by
  have ahead := flows.ahead
  have within := flows.within
  unfold Progress.becomeProbe
  refine flows.reset (congrArg Inflights.reset inflights) ?_ ?_ (Nat.zero_le _) (fun _ => rfl) nofun
  · show pr'.match < if pr'.state = .stateSnapshot then _ else _
    split <;> omega
  · show (if pr'.state = .stateSnapshot then _ else _) ≤ _
    split <;> omega

theorem becomeProbe (flows : pr.Flows last queue) : pr.becomeProbe.Flows last [] :=
  flows.probe rfl rfl flows.waits

theorem becomeReplicate (flows : pr.Flows last queue) : pr.becomeReplicate.Flows last [] :=
  flows.reset rfl (Nat.lt_succ_self _) (flows.ahead.trans_le flows.within |> Nat.succ_le_of_lt)
    (Nat.zero_le _) (fun _ => rfl) fun _ => rfl

theorem becomeSnapshot {i : Nat} (flows : pr.Flows last queue) (matched : pr.match ≤ i)
    (within : i ≤ last)
    : (pr.becomeSnapshot i).Flows last [] :=
  flows.reset rfl (Nat.lt_succ_of_le matched) (Nat.succ_le_succ within) within
    (fun other => absurd rfl other) nofun

/-- The last message of a queue behind which nothing is freed. -/
theorem getLast?_filter {p : Inflight → Bool} {m : Inflight}
    (later : ∀ m', queue.getLast? = some m' → p m' = true)
    (last : (queue.filter p).getLast? = some m)
    : queue.getLast? = some m := by
  rcases List.eq_nil_or_concat' queue with rfl | ⟨init, newest, rfl⟩
  · cases last
  · have stays := later newest (by simp)
    rw [List.filter_append, List.filter_cons_of_pos stays] at last
    simpa using last

/-- An acknowledged index moves the window. -/
theorem acknowledge {n : Nat} (flows : pr.Flows last queue) (news : pr.match < n)
    (known : n ≤ last)
    {inflights : Inflights} (freed : pr.inflights.freeLE n = .ok inflights)
    : { (pr.maybeUpdate n).1 with inflights := inflights }.Flows last
        (queue.filter fun m => decide (n < m.index)) := by
  have updated : (pr.maybeUpdate n).1
      = { pr with «match» := n, next := max pr.next (n + 1), msgAppFlowPaused := false } := by
    unfold Progress.maybeUpdate
    rw [if_neg (Nat.not_le.mpr news)]
  obtain ⟨inflights', freed', window⟩ := flows.window.freeLE n
  cases freed'.symm.trans freed
  have within := flows.within
  rw [updated]
  refine ⟨window, ?_, ?_, flows.waits, fun other => ?_, flows.pending, fun m member => ?_,
    fun m newest => ?_, nofun⟩
  · exact Nat.lt_of_lt_of_le (Nat.lt_succ_self n) (Nat.le_max_right _ _)
  · show max pr.next (n + 1) ≤ last + 1
    omega
  · rw [flows.idle other]
    rfl
  · simpa using (List.mem_filter.mp member).2
  · show m.index + 1 = max pr.next (n + 1)
    have later := (List.mem_filter.mp (List.mem_of_getLast? newest)).2
    have member := (List.mem_filter.mp (List.mem_of_getLast? newest)).1
    have below := flows.below member
    have above : n < m.index := by simpa using later
    have stays : ∀ m', queue.getLast? = some m' → decide (n < m'.index) = true := by
      intro m' final
      have next := flows.newest m' final
      simp only [decide_eq_true_eq]
      omega
    have final := flows.newest m (getLast?_filter stays newest)
    omega

theorem maybeUpdate {n : Nat} (flows : pr.Flows last queue) (known : n ≤ last)
    (still : pr.state ≠ .stateReplicate)
    : (pr.maybeUpdate n).1.Flows last [] := by
  have none := flows.idle still
  subst none
  unfold Progress.maybeUpdate
  have ahead := flows.ahead
  have within := flows.within
  split
  · exact flows
  · refine ⟨flows.window, ?_, ?_, flows.waits, flows.idle, flows.pending, nofun, nofun, nofun⟩
    · exact Nat.lt_of_lt_of_le (Nat.lt_succ_self n) (Nat.le_max_right _ _)
    · show max pr.next (n + 1) ≤ last + 1
      omega

theorem afterAck {r : Raft} {m : Message} (flows : pr.Flows last queue)
    (known : m.index ≤ last)
    (news : pr.match < m.index ∨ (pr.match = m.index ∧ pr.state = .stateProbe))
    (after : r.progressAfterAck m (pr.maybeUpdate m.index).1 = .ok pr')
    : ∃ queue', pr'.Flows last queue' := by
  have state := pr.maybeUpdate_state m.index
  unfold Raft.progressAfterAck at after
  split at after
  · rename_i probes
    cases after
    have still : pr.state ≠ .stateReplicate := by simp [← state, probes]
    exact ⟨[], (flows.maybeUpdate known still).becomeReplicate⟩
  split at after
  · rename_i snapshot
    cases after
    have still : pr.state ≠ .stateReplicate := by simp [← state, snapshot.1]
    exact ⟨[], (flows.maybeUpdate known still).becomeProbe.becomeReplicate⟩
  split at after
  · rename_i replicates
    obtain ⟨inflights, freed, eq⟩ := except_bind_eq_ok.mp after
    cases eq
    have same : (pr.maybeUpdate m.index).1.inflights = pr.inflights := by
      unfold Progress.maybeUpdate
      split <;> rfl
    rw [same] at freed
    have news := news.resolve_right fun old =>
      absurd (old.2.symm.trans (state.symm.trans replicates)) nofun
    exact ⟨_, flows.acknowledge news known freed⟩
  · rename_i still
    cases after
    exact ⟨[], flows.maybeUpdate known (state ▸ still)⟩

theorem maybeDecrTo {rejected hint : Nat} (flows : pr.Flows last queue)
    (decreased : pr.maybeDecrTo rejected hint = (pr', true))
    : (if pr'.state = .stateReplicate then pr'.becomeProbe else pr').Flows last [] := by
  have ahead := flows.ahead
  have within := flows.within
  unfold Progress.maybeDecrTo at decreased
  split at decreased
  · rename_i replicates
    split at decreased
    · cases decreased
    cases decreased
    rw [if_pos replicates]
    exact flows.probe rfl rfl flows.waits
  · rename_i still
    split at decreased
    · cases decreased
    rename_i current
    cases decreased
    rw [if_neg still]
    have none := flows.idle still
    subst none
    refine ⟨flows.window, ?_, ?_, flows.waits, flows.idle, flows.pending, nofun, nofun, nofun⟩
    · exact Nat.lt_of_lt_of_le (Nat.lt_succ_self _) (Nat.le_max_right _ _)
    · show max (min rejected (add64 hint 1)) (pr.match + 1) ≤ last + 1
      omega

/-- A message with `n` entries from `next` on is sent. -/
theorem sentEntries {n bytes : Nat} (flows : pr.Flows last queue)
    (room : n = 0 ∨ pr.state ≠ .stateReplicate ∨ pr.inflights.full = false)
    (present : n = 0 ∨ pr.next + n ≤ last + 1) (sent : pr.sentEntries n bytes = .ok pr')
    : ∃ queue', pr'.Flows last queue' := by
  unfold Progress.sentEntries at sent
  split at sent
  · rename_i replicates
    split at sent
    · rename_i some_
      have room := (room.resolve_left (by omega)).resolve_left (by simp [replicates])
      have present := present.resolve_left (by omega)
      have ahead := flows.ahead
      have later : ∀ m ∈ queue, m.index < pr.next + n - 1 := by
        intro m member
        have below := flows.below member
        omega
      obtain ⟨inflights, added, window⟩ := flows.window.add bytes room later
      dsimp only at sent
      rw [added] at sent
      cases sent
      refine ⟨_, window, ?_, present, flows.waits, fun other => absurd replicates other,
        flows.pending, ?_, ?_, fun _ full => full⟩
      · exact ahead.trans_le (Nat.le_add_right _ _)
      · intro m member
        rcases List.mem_append.mp member with old | new
        · exact flows.above m old
        · rw [List.mem_singleton.mp new]
          show pr.match < pr.next + n - 1
          omega
      · intro m newest
        rw [List.getLast?_concat] at newest
        cases newest
        show pr.next + n - 1 + 1 = pr.next + n
        omega
    · cases sent
      exact ⟨queue, { flows with paused := fun _ full => full }⟩
  · rename_i probes
    cases sent
    split
    · exact ⟨queue, { flows with
        paused := fun replicates => absurd (probes.symm.trans replicates) nofun }⟩
    · exact ⟨queue, flows⟩
  · cases sent

end Progress.Flows

-----------------------------------------------------------------------------------------
-- Duties
-----------------------------------------------------------------------------------------

namespace Books

variable [Codec] {heard : Message → Prop} {beats : ProgressState → Prop} {changes : Prop}
  {b b' : Books} {c : List Entry}
  {id : Nat} {pr pr' : Progress} {queue : List Inflight}

/-- The snapshot in the storage covers what has been compacted. -/
structure Backed (b : Books) : Prop where
  covers : b.raftLog.storage.firstIndex ≤ b.raftLog.storage.snapshot.metadata.index + 1
  within : b.raftLog.storage.snapshot.metadata.index ≤ b.raftLog.lastIndex

/-- The peers acknowledge only what there is. -/
def Hears (heard : Message → Prop) (b : Books) : Prop :=
  ∀ m, heard m → m.type = .msgAppResp → m.reject = false → m.index ≤ b.raftLog.lastIndex

/-- What is sent to a peer ends with the log. -/
theorem Grounded.next_le {i maxSize : Nat} {ents : List Entry} (ok : b.Grounded c)
    (read : b.raftLog.entries i maxSize = .ok (.ok ents)) (positive : 0 < i)
    : ents.length = 0 ∨ i + ents.length ≤ b.raftLog.lastIndex + 1 := by
  have part := (ok.shows.entries_ok read).length_le
  rw [List.length_drop] at part
  rw [ok.shows.lastIndex]
  omega

omit [Codec] in
theorem Grounded.firstIndex (ok : b.Grounded c)
    : b.raftLog.firstIndex = b.raftLog.storage.firstIndex := by
  simp [RaftLog.firstIndex, Unstable.maybeFirstIndex, ok.snapshot]

/-- A snapshot is sent to a peer only if entries are missing for it. -/
theorem Grounded.compacted {i : Nat} (ok : b.Grounded c)
    (present : i ≤ b.raftLog.lastIndex + 1)
    (missing : (∃ err, b.raftLog.term (i - 1) = .error err)
      ∨ ∃ maxSize err, b.raftLog.entries i maxSize = .ok (.error err))
    : i < b.raftLog.storage.firstIndex := by
  rw [← ok.firstIndex]
  rw [ok.shows.lastIndex] at present
  by_contra kept
  rcases missing with ⟨err, unread⟩ | ⟨maxSize, err, unread⟩
  · rw [ok.shows.term (by omega) (by omega)] at unread
    cases unread
  · unfold RaftLog.entries at unread
    split at unread
    · cases unread
    · rename_i inside
      rw [ok.shows.lastIndex] at inside unread
      obtain ⟨ents, read, _⟩ := ok.shows.slice maxSize (Nat.not_lt.mp kept)
        (show i ≤ c.length + 1 by omega) (Nat.le_refl _)
      cases read.symm.trans unread

theorem Tends.flows (tends : b.Tends heard beats id pr pr') (ok : b.Grounded c)
    (backed : b.Backed)
    (hears : b.Hears heard) (flows : pr.Flows b.raftLog.lastIndex queue)
    : ∃ queue', pr'.Flows b.raftLog.lastIndex queue' := by
  cases tends with
  | active => exact ⟨queue, flows.congr rfl rfl rfl rfl rfl fun paused => paused⟩
  | resume => exact ⟨queue, flows.congr rfl rfl rfl rfl rfl nofun⟩
  | @send prevTerm ents pr' awake prev read sent =>
      have ahead := flows.ahead
      have sends : ∃ queue', pr'.Flows b.raftLog.lastIndex queue' := by
        rcases read with rfl | ⟨room, maxSize, read⟩
        · exact flows.sentEntries (.inl rfl) (.inl rfl) sent
        · exact flows.sentEntries (.inr room) (ok.next_le read (by omega)) sent
      obtain ⟨queue', flows'⟩ := sends
      exact ⟨queue', flows'.setSentCommit _⟩
  | snapshot awake active missing =>
      have ahead := flows.ahead
      have covers := backed.covers
      have compacted := ok.compacted flows.within missing
      have snapshot : b.raftLog.snapshot = b.raftLog.storage.snapshot := by
        simp [RaftLog.snapshot, ok.snapshot]
      rw [snapshot]
      exact ⟨[], flows.becomeSnapshot (by omega) backed.within⟩
  | heartbeat may => exact ⟨queue, flows.setSentCommit _⟩
  | ack heard type sender accepts news log after =>
      exact flows.afterAck (hears _ heard type accepts) news after
  | reject heard type sender rejects decreased => exact ⟨[], flows.maybeDecrTo decreased⟩
  | @snapStatus m heard type sender waits =>
      have given : { pr with pendingSnapshot := 0 }.becomeProbe.Flows b.raftLog.lastIndex [] :=
        flows.probe rfl rfl (Nat.zero_le _)
      cases m.reject with
      | true => exact ⟨[], { given with paused := nofun }⟩
      | false => exact ⟨[], { flows.becomeProbe with paused := nofun }⟩
  | unreachable heard type sender replicates => exact ⟨[], flows.becomeProbe⟩

/-- Every peer that the leader tracks. -/
def Flows (b : Books) : Prop :=
  ∀ id pr, b.progress.get? id = some pr → ∃ queue, pr.Flows b.raftLog.lastIndex queue

omit [Codec] in
theorem Flows.mono (flows : b.Flows) (progress : b'.progress = b.progress)
    (more : b.raftLog.lastIndex ≤ b'.raftLog.lastIndex)
    : b'.Flows := by
  intro id pr found
  obtain ⟨queue, flow⟩ := flows id pr (progress ▸ found)
  exact ⟨queue, flow.mono more⟩

omit [Codec] in
/-- A progress that is made of a good one at every peer. -/
theorem Flows.map {f : Nat → Progress → Progress} (flows : b.Flows)
    (step : ∀ {id pr queue}, pr.Flows b.raftLog.lastIndex queue
      → (f id pr).Flows b.raftLog.lastIndex queue)
    : { b with progress := b.progress.mapValues f }.Flows := by
  intro id pr found
  rw [IdMap.get?_mapValues] at found
  obtain ⟨pr₀, found₀, rfl⟩ := Option.map_eq_some_iff.mp found
  obtain ⟨queue, flow⟩ := flows id pr₀ found₀
  exact ⟨queue, step flow⟩

omit [Codec] in
theorem Flows.setProgress (flows : b.Flows)
    (flow : ∃ queue, pr.Flows b.raftLog.lastIndex queue)
    : (b.setProgress id pr).Flows := by
  intro key pr' found
  have found : (b.progress.insert id pr).get? key = some pr' := found
  rw [IdMap.get?_insert] at found
  split at found
  · cases found
    exact flow
  · exact flows key pr' found

omit [Codec] in
/-- Peers that join start with nothing in flight. -/
theorem Flows.configure {r : Raft} {cc : ConfChangeV2} {config : TrackerConfig}
    {progress : ProgressMap} (flows : r.books.Flows)
    (changed : r.changedConfig cc = .ok (config, progress))
    : { r.books with config := config, progress := progress }.Flows := by
  have marked {pr pr' : Progress} (marked : pr.Marked pr')
      (flow : ∃ queue, pr.Flows r.raftLog.lastIndex queue)
      : ∃ queue, pr'.Flows r.raftLog.lastIndex queue := by
    obtain ⟨isLearner, rfl⟩ := marked
    obtain ⟨queue, flow⟩ := flow
    exact ⟨queue, flow.congr rfl rfl rfl rfl rfl fun paused => paused⟩
  intro id pr found
  rcases Raft.changedConfig_source changed found with ⟨pr₀, found₀, mark⟩ | fresh
  · exact marked mark (flows id pr₀ found₀)
  · refine marked fresh ⟨[], Inflights.carries_new _ _, ?_, ?_, Nat.zero_le _, fun _ => rfl,
      fun _ => rfl, nofun, nofun, nofun⟩
    · exact Nat.lt_of_lt_of_le Nat.zero_lt_one (Nat.le_max_right _ _)
    · show max r.raftLog.lastIndex 1 ≤ r.raftLog.lastIndex + 1
      omega

/-- A duty keeps the flow control. -/
theorem Duty.flows (duty : Duty heard beats changes b b')
    (leads : b'.state = .stateLeader)
    (ok : b.Grounded c) (backed : b.Backed) (hears : b.Hears heard) (flows : b.Flows)
    : b'.Flows := by
  obtain ⟨es, ok', grown⟩ := duty.grounded leads ok
  have more : b.raftLog.lastIndex ≤ b'.raftLog.lastIndex := by
    rw [ok.shows.lastIndex, ok'.shows.lastIndex, List.length_append]
    exact Nat.le_add_right _ _
  cases duty with
  | tend found tends =>
      obtain ⟨queue, flow⟩ := flows _ _ found
      exact flows.setProgress (tends.flows ok backed hears flow)
  | inactive =>
      refine flows.map fun flow => ?_
      split
      · exact flow.congr rfl rfl rfl rfl rfl fun paused => paused
      · exact flow
  | append es appends => exact flows.mono rfl more
  | commit commits => exact flows.mono rfl more
  | park hears type early => exact flows.mono rfl more
  | commitOnChange may commits => exact flows.mono rfl more
  | stepDown follows => exact absurd leads follows

omit [Codec] in
theorem Backed.grown {es : List Entry} (backed : b.Backed) (ok : b.Grounded c)
    (ok' : b'.Grounded (c ++ es)) (grown : b.Grown b' es)
    : b'.Backed := by
  have within := backed.within
  refine ⟨grown.storage ▸ backed.covers, ?_⟩
  rw [grown.storage, ok'.shows.lastIndex, List.length_append, ← ok.shows.lastIndex]
  omega

/-- A sequence of duties keeps the flow control. -/
theorem Flows.duties (flows : b.Flows)
    (duties : Relation.ReflTransGen (Duty heard beats changes) b b')
    (leads : b'.state = .stateLeader) (ok : b.Grounded c) (backed : b.Backed)
    (hears : b.Hears heard)
    : b'.Flows := by
  induction duties with
  | refl => exact flows
  | @tail b₁ b₂ before duty ih =>
      have leads₁ := duty.modest leads
      obtain ⟨es, ok₁, grown⟩ := ok.duties before leads₁
      refine duty.flows leads ok₁ (backed.grown ok ok₁ grown) (fun m heard type accepts => ?_)
        (ih leads₁)
      have known := hears m heard type accepts
      rw [ok.shows.lastIndex] at known
      rw [ok₁.shows.lastIndex, List.length_append]
      omega

omit [Codec] in
/-- A new leader knows nothing about the others, and has nothing in flight. -/
theorem flows_takenOver (b : Books) (own : Progress) : (b.takenOver own).Flows := by
  have blank (id : Nat) (pr : Progress)
      : (b.blankProgress id pr).Flows b.raftLog.lastIndex [] := by
    refine ⟨Inflights.carries_new _ _, ?_, Nat.le_refl _, Nat.zero_le _, fun _ => rfl, fun _ => rfl,
      nofun, nofun, nofun⟩
    show (if id = b.id then b.raftLog.lastIndex else 0) < b.raftLog.lastIndex + 1
    split <;> omega
  intro id pr found
  have found : ((b.progress.mapValues b.blankProgress).insert b.id
    { (b.blankProgress b.id own).becomeReplicate with recentActive := true }).get? id
    = some pr := found
  rw [IdMap.get?_insert, IdMap.get?_mapValues] at found
  refine ⟨[], ?_⟩
  split at found
  · cases found
    exact (blank b.id own).becomeReplicate.congr rfl rfl rfl rfl rfl fun paused => paused
  · obtain ⟨pr₀, _, rfl⟩ := Option.map_eq_some_iff.mp found
    exact blank id pr₀

-----------------------------------------------------------------------------------------
-- The matched index
-----------------------------------------------------------------------------------------

omit [Codec] in
theorem match_le_maybeUpdate (pr : Progress) (n : Nat)
    : pr.match ≤ (pr.maybeUpdate n).1.match := by
  unfold Progress.maybeUpdate
  split
  · exact Nat.le_refl _
  · exact (Nat.not_le.mp ‹_›).le

omit [Codec] in
theorem match_progressAfterAck {r : Raft} {m : Message}
    (after : r.progressAfterAck m pr = .ok pr')
    : pr'.match = pr.match := by
  unfold Raft.progressAfterAck at after
  split at after
  · cases after
    rfl
  split at after
  · cases after
    rfl
  split at after
  · obtain ⟨inflights, _, eq⟩ := except_bind_eq_ok.mp after
    cases eq
    rfl
  · cases after
    rfl

omit [Codec] in
theorem match_maybeDecrTo {rejected hint : Nat}
    (decreased : pr.maybeDecrTo rejected hint = (pr', true))
    : pr'.match = pr.match := by
  unfold Progress.maybeDecrTo at decreased
  split at decreased <;> split at decreased <;> cases decreased <;> rfl

omit [Codec] in
theorem match_sentEntries {n bytes : Nat} (sent : pr.sentEntries n bytes = .ok pr')
    : pr'.match = pr.match := by
  unfold Progress.sentEntries at sent
  split at sent
  · split at sent
    · obtain ⟨inflights, _, eq⟩ := except_bind_eq_ok.mp sent
      cases eq
      rfl
    · cases sent
      rfl
  · cases sent
    split <;> rfl
  · cases sent

/-- No duty lowers what is known to match. -/
theorem Tends.match_le (tends : b.Tends heard beats id pr pr')
    : pr.match ≤ pr'.match := by
  cases tends with
  | send awake prev read sent => exact (match_sentEntries sent).ge
  | ack hears type sender accepts news log after =>
      exact (match_le_maybeUpdate pr _).trans (match_progressAfterAck after).ge
  | reject hears type sender rejects decreased =>
      split
      · exact (match_maybeDecrTo decreased).ge
      · exact (match_maybeDecrTo decreased).ge
  | snapStatus hears type sender waits =>
      show pr.match
          ≤ (if _ then { pr with pendingSnapshot := 0 }.becomeProbe else pr.becomeProbe).match
      split <;> exact Nat.le_refl _
  | _ => exact Nat.le_refl _

/-- The duties of a leader do not lower the matched index of a peer. -/
theorem match_le_duties (duties : Relation.ReflTransGen (Duty heard beats changes) b b')
    (leads : b'.state = .stateLeader) (found : b'.progress.get? id = some pr')
    : ∃ pr, b.progress.get? id = some pr ∧ pr.match ≤ pr'.match := by
  induction duties generalizing pr' with
  | refl => exact ⟨pr', found, Nat.le_refl _⟩
  | @tail b₁ b₂ _ duty ih =>
      have before : ∃ pr, b₁.progress.get? id = some pr ∧ pr.match ≤ pr'.match := by
        cases duty with
        | @tend key pr₁ pr₂ known tends =>
            have found : (b₁.progress.insert key pr₂).get? id = some pr' := found
            rw [IdMap.get?_insert] at found
            split at found
            · rename_i here
              cases found
              exact ⟨pr₁, here ▸ known, tends.match_le⟩
            · exact ⟨pr', found, Nat.le_refl _⟩
        | inactive =>
            rw [IdMap.get?_mapValues] at found
            obtain ⟨pr, known, rfl⟩ := Option.map_eq_some_iff.mp found
            refine ⟨pr, known, ?_⟩
            split <;> exact Nat.le_refl _
        | stepDown follows => exact absurd leads follows
        | _ => exact ⟨pr', found, Nat.le_refl _⟩
      obtain ⟨pr₁, known, later⟩ := before
      obtain ⟨pr, first, earlier⟩ := ih (duty.modest leads) known
      exact ⟨pr, first, earlier.trans later⟩

end Books

end EtcdRaft
