import EtcdRaft.Refinement.Scans
import EtcdRaft.Runs.Deliveries
import EtcdRaft.Runs.Pipelines

/-! What a node that campaigns has checked stays true until its election is over: it is a
voter of its own configuration, waits for no snapshot, and has nothing to apply that could
change this.
-/

namespace EtcdRaft

-----------------------------------------------------------------------------------------
-- Entries that are handed out
-----------------------------------------------------------------------------------------

/-- An entry that has been handed out. The log still has it, unless it is applied or a
pending snapshot replaces it.
-/
structure RaftLog.Handed (l : RaftLog) (e : Entry) : Prop where
  committed : e.index ≤ l.committed
  found : e.index ≤ l.applied ∨ (∃ s, l.unstable.snapshot = some s ∧ e.index ≤ s.metadata.index)
    ∨ l.logical.entry? e.index = some e

/-- What precedes the new entries stays. -/
theorem LogicalLog.truncateAndAppend_entry {g : LogicalLog} {i : Nat} {e first : Entry}
    {rest : List Entry} (found : g.entry? i = some e) (before : i < first.index)
    : LogicalLog.entry? (g.truncateAndAppend (first :: rest)) i = some e := by
  unfold entry? at found ⊢
  show (if i ≤ g.base then none
    else (g.entries.take (first.index - g.base - 1) ++ first :: rest)[i - g.base - 1]?) = some e
  by_cases below : i ≤ g.base
  · rw [if_pos below] at found
    cases found
  · rw [if_neg below] at found ⊢
    have inside := (List.getElem?_eq_some_iff.mp found).1
    rw [List.getElem?_append_left (by rw [List.length_take]; omega),
      List.getElem?_take_of_lt (by omega)]
    exact found

theorem RaftLog.append_snapshot {l l' : RaftLog} {es : List Entry}
    (appends : l.append es = .ok l')
    : l'.unstable.snapshot = l.unstable.snapshot := by
  rcases RaftLog.append_ok appends with ⟨_, rfl⟩ | ⟨_, _, u, _, _, truncated, rfl⟩
  · rfl
  · exact (Unstable.truncateAndAppend_snapshot truncated).1

theorem RaftLog.commitTo_snapshot {l l' : RaftLog} {k : Nat}
    (commits : l.commitTo k = .ok l')
    : l'.unstable.snapshot = l.unstable.snapshot := by
  rw [RaftLog.commitTo_ok commits]

theorem RaftLog.maybeCommit_snapshot {l l' : RaftLog} {at_ : EntryID} {changed : Bool}
    (commits : l.maybeCommit at_ = .ok (l', changed))
    : l'.unstable.snapshot = l.unstable.snapshot := by
  unfold RaftLog.maybeCommit at commits
  split at commits
  · obtain ⟨l₁, moves, eq⟩ := except_bind_eq_ok.mp commits
    cases eq
    exact commitTo_snapshot moves
  · cases commits
    rfl

theorem RaftLog.maybeAppend_snapshot {l l' : RaftLog} {a : LogSlice} {k : Nat}
    {last : Option Nat} (appends : l.maybeAppend a k = .ok (l', last))
    : l'.unstable.snapshot = l.unstable.snapshot := by
  rcases RaftLog.maybeAppend_ok appends with rfl | ⟨l₁, j, rfl | ⟨n, append⟩, commits⟩
  · rfl
  · exact commitTo_snapshot commits
  · exact (commitTo_snapshot commits).trans (append_snapshot append)

namespace RaftLog.Handed

variable {l l' : RaftLog} {e : Entry}

theorem commitTo {k : Nat} (handed : l.Handed e) (committed : l.commitTo k = .ok l')
    : l'.Handed e := by
  rw [RaftLog.commitTo_ok committed]
  exact ⟨handed.committed.trans (Nat.le_max_left _ _), handed.found⟩

theorem append {first : Nat} {es : List Entry} (handed : l.Handed e)
    (new : Consecutive first es) (positive : 0 < first) (appended : l.append es = .ok l')
    : l'.Handed e := by
  rcases RaftLog.append_ok appended with ⟨_, rfl⟩ | ⟨e₀, rest, u, rfl, above, truncated, rfl⟩
  · exact handed
  · have index : e₀.index = first := new 0 e₀ rfl
    rw [sub64_of_le (by omega)] at above
    have committed := handed.committed
    have snapshot := append_snapshot appended
    refine ⟨committed, handed.found.imp_right (Or.imp ?_ fun found => ?_)⟩
    · rintro ⟨s, pending, below⟩
      exact ⟨s, snapshot.trans pending, below⟩
    · exact LogicalLog.truncateAndAppend_entry found (by omega)

theorem maybeAppend {a : LogSlice} {k : Nat} {last : Option Nat} (handed : l.Handed e)
    (new : Consecutive (a.prev.index + 1) a.entries)
    (appended : l.maybeAppend a k = .ok (l', last))
    : l'.Handed e := by
  rcases RaftLog.maybeAppend_ok appended with rfl | ⟨l₁, j, rfl | ⟨n, append⟩, commits⟩
  · exact handed
  · exact handed.commitTo commits
  · exact (handed.append (new.drop n) (by omega) append).commitTo commits

theorem restore {s : Snapshot} (handed : l.Handed e)
    (newer : l.committed < s.metadata.index)
    : (l.restore s).Handed e :=
  have below := handed.committed.trans newer.le
  ⟨below, .inr (.inl ⟨s, rfl, below⟩)⟩

/-- An answer of the append thread takes away a snapshot only once it is applied. -/
theorem stored {m : Message} (handed : l.Handed e) (stores : Stores m l l')
    : l'.Handed e := by
  have grows : l.applied ≤ l'.applied := by
    rw [stores.applied]
    split
    · exact Nat.le_refl _
    · exact Nat.le_max_right _ _
  refine ⟨stores.committed ▸ handed.committed, ?_⟩
  rcases handed.found with old | ⟨s, pending, below⟩ | found
  · exact .inl (old.trans grows)
  · rcases stores.snapshot with ⟨same, _⟩ | ⟨_, s', sn, carried, stored, index⟩
    · exact .inr (.inl ⟨s, same.trans pending, below⟩)
    · cases pending.symm.trans stored
      refine .inl ?_
      rw [stores.applied, carried]
      exact below.trans (index ▸ Nat.le_max_left _ _)
  · exact .inr (.inr (stores.logical ▸ found))

theorem appliedTo {i size : Nat} (handed : l.Handed e)
    (applies : l.appliedTo i size = .ok l')
    : l'.Handed e := by
  obtain ⟨_, grows, unstable, _, committed, _, applied, logical⟩ := appliedTo_ok applies
  refine ⟨committed ▸ handed.committed, ?_⟩
  rw [unstable, applied, logical]
  exact handed.found.imp_left fun old => old.trans grows

end RaftLog.Handed

-----------------------------------------------------------------------------------------
-- Candidates
-----------------------------------------------------------------------------------------

/-- No entry that is committed and not yet applied changes the configuration. -/
def RaftLog.Unchanging (l : RaftLog) : Prop :=
  ∀ i e, l.applied < i → i ≤ l.committed → l.logical.entry? i = some e → e.isConfChange = false

/-- What a node needs to campaign, for as long as it does. -/
structure Core.Eligible (c : Core) : Prop where
  tracked : ∃ acked, c.progress c.id = some (acked, false)
  snapshot : c.raftLog.unstable.snapshot = none
  log : c.raftLog.Unchanging

def Core.Campaigns (c : Core) : Prop := c.state = .statePreCandidate ∨ c.state = .stateCandidate

/-- Who campaigns or leads waits for no snapshot. The entries of `queue` have been handed
out.
-/
structure Core.Settled (queue : List Entry) (c : Core) : Prop where
  snapshot : c.Campaigns ∨ c.state = .stateLeader → c.raftLog.unstable.snapshot = none
  handed : ∀ e ∈ queue, c.raftLog.Handed e

namespace Core.Settled

variable {c c' : Core} {queue : List Entry}

/-- A change of the log that keeps the snapshot and what is handed out. -/
theorem of_log (ok : c.Settled queue)
    (role : c'.Campaigns ∨ c'.state = .stateLeader → c.Campaigns ∨ c.state = .stateLeader)
    (snapshot : c.raftLog.unstable.snapshot = none → c'.raftLog.unstable.snapshot = none)
    (handed : ∀ e, c.raftLog.Handed e → c'.raftLog.Handed e)
    : c'.Settled queue :=
  ⟨fun busy => snapshot (ok.snapshot (role busy)), fun e queued => handed e (ok.handed e queued)⟩

theorem of_follower (follower : c.state = .stateFollower)
    (handed : ∀ e ∈ queue, c.raftLog.Handed e)
    : c.Settled queue := by
  refine ⟨fun busy => ?_, handed⟩
  rcases busy with (pre | candidate) | leads
  · cases follower.symm.trans pre
  · cases follower.symm.trans candidate
  · cases follower.symm.trans leads

/-- More entries are handed out, or fewer are left. -/
theorem requeue {queue' : List Entry} (ok : c.Settled queue)
    (handed : ∀ e ∈ queue', e ∈ queue ∨ c.raftLog.Handed e)
    : c.Settled queue' :=
  ⟨ok.snapshot, fun e queued => (handed e queued).elim (ok.handed e) fun handed => handed⟩

end Core.Settled

section

variable [Codec] {now : Nat} {m : Message} {c c' : Core} {queue : List Entry}

theorem Act.settled (act : Act now m c c') (sliced : m.Sliced)
    (remote : m.type.isStored = false) (ok : c.Settled queue)
    : c'.Settled queue := by
  cases act with
  | becomeFollower term newer later => exact .of_follower rfl ok.handed
  | becomePreCandidate type enabled notLeader may => exact ⟨fun _ => may.2.1, ok.handed⟩
  | becomeCandidate notLeader may =>
      refine ⟨fun _ => ?_, ok.handed⟩
      rcases may with ⟨may, _⟩ | ⟨pre, _⟩
      · exact may.2.1
      · exact ok.snapshot (.inl (.inl pre))
  | win candidate won => exact ⟨fun _ => ok.snapshot (.inl (.inr candidate)), ok.handed⟩
  | commit leads raftLog commits =>
      unfold RaftLog.maybeCommit at commits
      split at commits
      · obtain ⟨l', commits, eq⟩ := except_bind_eq_ok.mp commits
        cases eq
        exact ok.of_log (fun busy => busy) (RaftLog.commitTo_snapshot commits).trans
          fun e handed => handed.commitTo commits
      · cases commits
  | accept type follower term above raftLog last appended =>
      exact .of_follower follower fun e queued =>
        (ok.handed e queued).maybeAppend (sliced type) appended
  | heartbeat type follower term raftLog committed =>
      exact .of_follower follower fun e queued => (ok.handed e queued).commitTo committed
  | fastForward type follower term newer holds raftLog committed =>
      exact .of_follower follower fun e queued => (ok.handed e queued).commitTo committed
  | restore type follower term newer lacks chg blank cfg progress config same =>
      exact .of_follower follower fun e queued => (ok.handed e queued).restore newer
  | stored type current term raftLog stores =>
      rw [type] at remote
      cases remote
  | applied type e last size raftLog applies =>
      rw [type] at remote
      cases remote
  | _ => exact ⟨ok.snapshot, ok.handed⟩

omit [Codec] in
theorem Appends.settled (appends : Appends m c c') (ok : c.Settled queue)
    : c'.Settled queue := by
  obtain ⟨leads, es, nonempty, index, proposal, _, raftLog, appends⟩ := appends
  exact ok.of_log (fun busy => busy) (RaftLog.append_snapshot appends).trans
    fun e handed => handed.append (c.consecutive_stamped es) (Nat.succ_pos _) appends

end

/-- Who campaigns may do so, and who leads waits for no snapshot. The entries of `queue`
have been handed out.
-/
structure Core.Qualified (queue : List Entry) (c : Core) : Prop where
  candidate : c.Campaigns → c.Eligible
  leader : c.state = .stateLeader → c.raftLog.unstable.snapshot = none
  handed : ∀ e ∈ queue, c.raftLog.Handed e

namespace Core

variable {c c' : Core} {queue : List Entry}

/-- The entries of the queue that the node has not applied do not change the configuration
as long as it campaigns.
-/
theorem Qualified.isConfChange {e : Entry} (ok : c.Qualified queue)
    (campaigns : c.Campaigns) (queued : e ∈ queue) (new : c.raftLog.applied < e.index)
    : e.isConfChange = false := by
  obtain ⟨_, none, unchanging⟩ := ok.candidate campaigns
  obtain ⟨committed, old | ⟨s, pending, _⟩ | found⟩ := ok.handed e queued
  · omega
  · exact absurd (none.symm.trans pending) nofun
  · exact unchanging e.index e new committed found

theorem Qualified.settled (ok : c.Qualified queue) : c.Settled queue :=
  ⟨fun busy => busy.elim (fun campaigns => (ok.candidate campaigns).snapshot) ok.leader, ok.handed⟩

theorem Settled.qualified (ok : c.Settled queue) (candidate : c.Campaigns → c.Eligible)
    : c.Qualified queue :=
  ⟨candidate, fun leads => ok.snapshot (.inr leads), ok.handed⟩

theorem not_campaigns (state : c.state = .stateFollower ∨ c.state = .stateLeader)
    : ¬c.Campaigns := by
  rintro (pre | candidate)
  · rcases state with follower | leader
    · cases follower.symm.trans pre
    · cases leader.symm.trans pre
  · rcases state with follower | leader
    · cases follower.symm.trans candidate
    · cases leader.symm.trans candidate

/-- Entries are applied, or a snapshot is. -/
theorem Eligible.applied {l : RaftLog} (ok : c.Eligible)
    (snapshot : c.raftLog.unstable.snapshot = none → l.unstable.snapshot = none)
    (applied : c.raftLog.applied ≤ l.applied)
    (committed : l.committed = c.raftLog.committed)
    (logical : l.logical = c.raftLog.logical)
    : { c with raftLog := l }.Eligible := by
  refine ⟨ok.tracked, snapshot ok.snapshot, fun i e above below found => ?_⟩
  exact ok.log i e (applied.trans_lt above) (committed ▸ below) (logical ▸ found)

end Core

section

variable [Codec] {L : Nat → List Entry} {d : Version} {async : Bool} {p : Pipeline}
  {now : Nat}
  {m : Message} {c c' : Core} {queue : List Entry}

omit [Codec] in
theorem Message.OfLeader.sliced (source : m.OfLeader L) (logs : ∀ t, Matched L (L t))
    : m.Sliced := by
  intro type k e found
  obtain ⟨_, _, part⟩ := source.app type
  have inLog := getElem?_of_isPrefix part found
  rw [List.getElem?_drop] at inLog
  have index := (logs m.term).indexed _ e inLog
  omega

/-- The checks of `hup` see every entry that is not applied yet. -/
theorem Core.MayCampaign.eligible (may : c.MayCampaign)
    (piped : Piped L async p c.term c.raftLog)
    : c.Eligible := by
  obtain ⟨tracked, none, settled⟩ := may
  refine ⟨tracked, none, fun i e above below found => ?_⟩
  rcases settled with done | scanned
  · omega
  · have inside : c.raftLog.logical.base < i := by
      unfold LogicalLog.entry? at found
      split at found
      · cases found
      · omega
    rw [piped.logical.entry? inside] at found
    exact piped.pipe.shows.scan_findConfChange scanned (i - 1) e (by omega) (by omega) found

theorem Act.eligible (act : Act now m c c') (remote : m.type.isStored = false)
    (piped : Piped L async p c.term c.raftLog) (ok : c.Campaigns → c.Eligible)
    : c'.Campaigns → c'.Eligible := by
  cases act with
  | becomeFollower term newer later =>
      exact fun busy => absurd busy (Core.not_campaigns (.inl rfl))
  | becomePreCandidate type enabled notLeader may =>
      obtain ⟨tracked, none, unchanging⟩ := may.eligible piped
      exact fun _ => ⟨tracked, none, unchanging⟩
  | becomeCandidate notLeader may =>
      have eligible : c.Eligible := by
        rcases may with ⟨may, _⟩ | ⟨pre, _⟩
        · exact may.eligible piped
        · exact ok (.inl pre)
      obtain ⟨⟨acked, tracked⟩, none, unchanging⟩ := eligible
      refine fun _ => ⟨⟨c.raftLog.lastIndex, ?_⟩, none, unchanging⟩
      show (c.progress c.id).map (fun pr => (if c.id = c.id then _ else 0, pr.2)) = _
      rw [tracked, Option.map_some, if_pos rfl]
  | win candidate won => exact fun busy => absurd busy (Core.not_campaigns (.inr rfl))
  | acknowledged type leads term reject =>
      exact fun busy => absurd busy (Core.not_campaigns (.inr leads))
  | commit leads raftLog commits =>
      exact fun busy => absurd busy (Core.not_campaigns (.inr leads))
  | accept type follower term above raftLog last appended =>
      exact fun busy => absurd busy (Core.not_campaigns (.inl follower))
  | heartbeat type follower term raftLog committed =>
      exact fun busy => absurd busy (Core.not_campaigns (.inl follower))
  | fastForward type follower term newer holds raftLog committed =>
      exact fun busy => absurd busy (Core.not_campaigns (.inl follower))
  | restore type follower term newer lacks chg blank cfg progress config same =>
      exact fun busy => absurd busy (Core.not_campaigns (.inl follower))
  | stored type current term raftLog stores =>
      rw [type] at remote
      cases remote
  | applied type e last size raftLog applies =>
      rw [type] at remote
      cases remote
  | _ =>
      intro busy
      obtain ⟨tracked, none, unchanging⟩ := ok busy
      exact ⟨tracked, none, unchanging⟩

-----------------------------------------------------------------------------------------
-- Transitions of a node
-----------------------------------------------------------------------------------------

/-- A `Ready` leaves the role and the log as they are. -/
theorem RawNode.Taken.handsOut {rn rn' : RawNode} {rd : Ready} (taken : rn.Taken rn' rd)
    : ∃ l, rn'.raft.core = { rn.raft.core with
          raftLog := l, msgs := [], msgsAfterAppend := [], readStates := [] }
      ∧ l.unstable.snapshot = rn.raft.raftLog.unstable.snapshot
      ∧ l.storage = rn.raft.raftLog.storage ∧ l.committed = rn.raft.raftLog.committed
      ∧ l.applied = rn.raft.raftLog.applied ∧ l.logical = rn.raft.raftLog.logical := by
  have log : ∀ {committed l}, rn.handedOutLog committed = .ok l
      → l.unstable.snapshot = rn.raft.raftLog.unstable.snapshot
        ∧ l.storage = rn.raft.raftLog.storage ∧ l.committed = rn.raft.raftLog.committed
        ∧ l.applied = rn.raft.raftLog.applied ∧ l.logical = rn.raft.raftLog.logical := by
    intro committed l accepts
    obtain ⟨unstable, storage, commit, applied, logical, _⟩ :=
      RawNode.handedOutLog_ok accepts
    exact ⟨by rw [unstable]; rfl, storage, commit, applied, logical⟩
  cases taken with
  | sync mode fresh appliable answers accepts => exact ⟨_, rfl, log accepts⟩
  | async mode appliable request accepts => exact ⟨_, rfl, log accepts⟩

/-- The log of `c` fits the pipeline, and is the stored one or that of some leader. -/
def Core.Placed (L : Nat → List Entry) (d : Version) (async : Bool) (c : Core) : Prop :=
  ∃ p, Piped L async p c.term c.raftLog
    ∧ ((p.log = d.log ∧ d.term ≤ c.term) ∨ ∃ t ≤ c.term, p.log <+: L t)

theorem Acts.placed (acts : Acts now m c c') (logs : ∀ t, Matched L (L t))
    (source : m.OfLeader L)
    (remote : m.type.isStored = false) (placed : c.Placed L d async)
    : c'.Placed L d async := by
  obtain ⟨p, piped, origin⟩ := placed
  have moved := Acts.moved acts logs source remote piped
  obtain ⟨log, piped, same | leader⟩ := moved.piped
  · refine ⟨_, piped, ?_⟩
    rw [same]
    exact origin.imp (fun ⟨stored, later⟩ => ⟨stored, later.trans moved.term⟩)
      fun ⟨t, earlier, part⟩ => ⟨t, earlier.trans moved.term, part⟩
  · exact ⟨_, piped, .inr leader⟩

/-- A change of the log by which entries or a snapshot may become applied or stored. -/
structure RaftLog.Advances (l l' : RaftLog) : Prop where
  snapshot : l.unstable.snapshot = none → l'.unstable.snapshot = none
  applied : l.applied ≤ l'.applied
  committed : l'.committed = l.committed
  logical : l'.logical = l.logical
  handed : ∀ e, l.Handed e → l'.Handed e

omit [Codec] in
theorem RaftLog.Advances.refl (l : RaftLog) : l.Advances l :=
  ⟨fun none => none, Nat.le_refl _, rfl, rfl, fun _ handed => handed⟩

omit [Codec] in
theorem RaftLog.Advances.of_appliedTo {l l' : RaftLog} {i size : Nat}
    (applies : l.appliedTo i size = .ok l')
    : l.Advances l' := by
  obtain ⟨_, grows, unstable, _, committed, _, applied, logical⟩ := appliedTo_ok applies
  exact ⟨fun none => unstable ▸ none, applied ▸ grows, committed, logical,
    fun e handed => handed.appliedTo applies⟩

omit [Codec] in
theorem Stores.advances {l l' : RaftLog} {m : Message} (stores : Stores m l l')
    : l.Advances l' := by
  refine ⟨fun none => ?_, ?_, stores.committed, stores.logical,
    fun e handed => handed.stored stores⟩
  · rcases stores.snapshot with ⟨same, _⟩ | ⟨gone, _⟩
    · exact same.trans none
    · exact gone
  · rw [stores.applied]
    split
    · exact Nat.le_refl _
    · exact Nat.le_max_right _ _

/-- What every action of a node, every change of its log by the local threads and every
`Ready` keeps is kept by every input.
-/
theorem Host.Turns.carries {takes changes : Prop} {arrives : Message → Prop} {h h' : Host}
    {rn rn' : RawNode} {q : Core → Prop}
    (turns : Turns takes changes async arrives h rn h' rn')
    (logs : ∀ t, Matched L (L t)) (network : ∀ m, arrives m → m.OfLeader L)
    (sound : EtcdRaft.Sound L d async p h rn) (ok : q rn.raft.core)
    (act : ∀ {now m c c'}, Act now m c c' → m.OfLeader L → m.type.isStored = false
      → c.Placed L d async → q c → q c')
    (appends : ∀ {m c c'}, Appends m c c' → c.Placed L d async → q c → q c')
    (queues : ∀ {c : Core} (msgs after : List Message) (reads : List ReadState), q c
      → q { c with msgs := msgs, msgsAfterAppend := after, readStates := reads })
    (configures : changes → ∀ cfg progress,
      q { rn.raft.core with config := cfg, progress := progress })
    (advances : ∀ {l : RaftLog}, rn.raft.raftLog.Advances l → q { rn.raft.core with raftLog := l })
    : q rn'.raft.core := by
  have acts {now m} {c c' : Core} (acts : Acts now m c c') (source : m.OfLeader L)
      (remote : m.type.isStored = false) (placed : c.Placed L d async) (ok : q c) : q c' := by
    induction acts with
    | refl => exact ok
    | tail acts one ih =>
        exact act one source remote (Acts.placed acts logs source remote placed) ih
  have steps {now m} {c c' : Core} (steps : Steps now m c c') (source : m.OfLeader L)
      (remote : m.type.isStored = false) (placed : c.Placed L d async) (ok : q c) : q c' := by
    obtain ⟨c₁, first, rfl | ⟨c₂, appended, new, rfl, sends⟩⟩ := steps
    · exact acts first source remote placed ok
    · exact queues _ _ _ (appends appended (Acts.placed first logs source remote placed)
        (acts first source remote placed ok))
  have placed : rn.raft.core.Placed L d async := ⟨p, sound.piped, sound.origin⟩
  have stored (ms : MemoryStorage) : q (setStorage rn ms).raft.core :=
    advances ⟨fun none => none, Nat.le_refl _, rfl, rfl,
      fun e handed => ⟨handed.committed, handed.found⟩⟩
  cases turns with
  | rest writes appended applied => exact ok
  | call called remote termed source writes appended applied own =>
      have ofLeader := Message.OfLeader.of_source network source
      cases called with
      | step handled =>
          obtain ⟨now, handled⟩ := Raft.exists_steps termed handled
          exact steps handled ofLeader remote placed ok
      | tick ticks => exact acts (Raft.acts_tick ticks) ofLeader remote placed ok
      | applyConfChange applied may =>
          obtain ⟨cfg, progress, _, reacts⟩ := Raft.acts_applyConfChange applied
          exact acts reacts ofLeader remote placed (configures may _ _)
  | answerAppend answer handled popped writes applied =>
      obtain ⟨rest, done, _⟩ := sound.done_of_pops answer popped
      obtain ⟨l, stores, piped, leaves⟩ := sound.step_stored done handled
      exact steps leaves ⟨nofun, nofun⟩ rfl ⟨_, piped, sound.origin⟩ (advances stores.advances)
  | @answerApply m r err steps' answer handled popped writes appended applied =>
      have handedOut := sound.applyResps m (applied ▸ List.mem_cons_self)
      have idle : async = false → h.writes = [] := by
        rintro rfl
        exact popped.2.2.1
      rcases sound.step_applied answer handedOut idle handled with
        same | ⟨i, size, l, floor, _, applies, piped, leaves⟩
      · exact same ▸ ok
      · exact steps leaves ⟨nofun, nofun⟩ rfl ⟨_, piped, sound.origin⟩
          (advances (.of_appliedTo applies))
  | ready taken writes appended applied =>
      obtain ⟨l, same, snapshot, _, committed, applied, logical⟩ := taken.handsOut
      rw [same]
      refine queues (c := { rn.raft.core with raftLog := l }) _ _ _ (advances
        ⟨snapshot.trans, applied.ge, committed, logical, fun e handed => ?_⟩)
      refine ⟨committed ▸ handed.committed, ?_⟩
      rw [snapshot, applied, logical]
      exact handed.found
  | persist queued stores appended applied => exact stored _
  | createSnapshot below created writes appended applied => exact stored _
  | compact below compacted writes appended applied => exact stored _

/-- Who campaigns or leads waits for no snapshot. -/
theorem Host.Turns.settled {takes changes : Prop} {arrives : Message → Prop} {h h' : Host}
    {rn rn' : RawNode} (turns : Turns takes changes async arrives h rn h' rn')
    (logs : ∀ t, Matched L (L t)) (network : ∀ m, arrives m → m.OfLeader L)
    (sound : EtcdRaft.Sound L d async p h rn) (ok : rn.raft.core.Settled queue)
    : rn'.raft.core.Settled queue :=
  turns.carries logs network sound ok
    (fun act source remote _ ok => act.settled (source.sliced logs) remote ok)
    (fun appends _ ok => appends.settled ok)
    (fun _ _ _ ok => ⟨ok.snapshot, ok.handed⟩)
    (fun _ _ _ => ⟨ok.snapshot, ok.handed⟩)
    fun advances => ok.of_log (fun busy => busy) advances.snapshot advances.handed

/-- While the node campaigns, the configuration does not change. -/
theorem Host.Turns.eligible {takes changes : Prop} {arrives : Message → Prop}
    {h h' : Host}
    {rn rn' : RawNode} (turns : Turns takes changes async arrives h rn h' rn')
    (logs : ∀ t, Matched L (L t)) (network : ∀ m, arrives m → m.OfLeader L)
    (sound : EtcdRaft.Sound L d async p h rn) (idle : changes → ¬rn.raft.core.Campaigns)
    (ok : rn.raft.core.Campaigns → rn.raft.core.Eligible)
    : rn'.raft.core.Campaigns → rn'.raft.core.Eligible := by
  refine turns.carries (q := fun c => c.Campaigns → c.Eligible) logs network sound ok ?_ ?_ ?_ ?_ ?_
  · rintro now m c c' act _ remote ⟨p, piped, _⟩ ok
    exact act.eligible remote piped ok
  · rintro m c c' ⟨leads, _⟩ _ _ busy
    exact absurd busy (Core.not_campaigns (.inr leads))
  · intro c msgs after reads ok busy
    obtain ⟨tracked, none, unchanging⟩ := ok busy
    exact ⟨tracked, none, unchanging⟩
  · exact fun may cfg progress busy => absurd busy (idle may)
  · intro l advances busy
    exact (ok busy).applied advances.snapshot advances.applied advances.committed advances.logical

/-- Both together. -/
theorem Host.Turns.qualified {takes changes : Prop} {arrives : Message → Prop}
    {h h' : Host}
    {rn rn' : RawNode} (turns : Turns takes changes async arrives h rn h' rn')
    (logs : ∀ t, Matched L (L t)) (network : ∀ m, arrives m → m.OfLeader L)
    (sound : EtcdRaft.Sound L d async p h rn) (idle : changes → ¬rn.raft.core.Campaigns)
    (ok : rn.raft.core.Qualified queue)
    : rn'.raft.core.Qualified queue :=
  (turns.settled logs network sound ok.settled).qualified
    (turns.eligible logs network sound idle ok.candidate)

/-- What a `Ready` hands out is in the log. -/
theorem RawNode.Taken.handed {h : Host} {rn rn' : RawNode} {rd : Ready}
    (taken : rn.Taken rn' rd) (sound : Sound L d async p h rn)
    : ∀ e ∈ rd.committedEntries, rn'.raft.raftLog.Handed e := by
  have handed : ∀ {committed l},
      rn.raft.raftLog.nextCommittedEnts rn.applyUnstableEntries = .ok committed
      → rn.handedOutLog committed = .ok l → ∀ e ∈ committed, l.Handed e := by
    intro committed l appliable accepts e member
    obtain ⟨_, _, commit, _, logical, _⟩ := RawNode.handedOutLog_ok accepts
    rcases sound.piped.pipe.shows.nextCommittedEnts appliable with rfl | ⟨none, part⟩
    · cases member
    obtain ⟨k, at_⟩ := List.getElem?_of_mem member
    have count := part.length_le
    have inside := (List.getElem?_eq_some_iff.mp at_).1
    rw [List.length_take] at count
    have inLog := getElem?_of_isPrefix part at_
    rw [List.getElem?_take_of_lt (by omega), List.getElem?_drop] at inLog
    have index := sound.piped.pipe.line.current.indexed _ e inLog
    have first := sound.piped.firstIndex_le_applying none
    have base := sound.piped.base_lt_firstIndex
    have bound : rn.raft.raftLog.maxAppliableIndex rn.applyUnstableEntries
        ≤ rn.raft.raftLog.committed := by
      unfold RaftLog.maxAppliableIndex
      split <;> omega
    refine ⟨by omega, .inr (.inr ?_)⟩
    rw [logical, sound.piped.logical.entry? (by omega), ← inLog]
    congr 1
    omega
  cases taken with
  | sync mode fresh appliable answers accepts => exact handed appliable accepts
  | async mode appliable request accepts => exact handed appliable accepts

end

end EtcdRaft
