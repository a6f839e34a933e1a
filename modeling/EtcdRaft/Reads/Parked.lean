import EtcdRaft.Runs.ApplyBudget
import EtcdRaft.Runs.Services

/-! Read requests that wait for the first commit of a term. A leader that keeps such a
request has committed nothing in its term, as long as `ApplyConfChange` is not called for
entries that a snapshot has overtaken: a change of the configuration may commit, and does
not release the requests.
-/

namespace EtcdRaft

-----------------------------------------------------------------------------------------
-- The term of the last committed entry
-----------------------------------------------------------------------------------------

theorem termAt_le {log : List Entry} {t : Nat} (bound : ∀ e ∈ log, e.term ≤ t) (i : Nat)
    : termAt log i ≤ t := by
  unfold termAt
  cases last : (log.take i).getLast? with
  | none => exact Nat.zero_le _
  | some e => exact bound e (List.mem_of_mem_take (List.mem_of_getLast? last))

theorem LogicalLog.EndOf.term? {g : LogicalLog} {log : List Entry} (endOf : g.EndOf log)
    {i : Nat} (above : g.base ≤ i) (within : i ≤ log.length)
    : g.term? i = some (termAt log i) := by
  unfold LogicalLog.term?
  by_cases base : i = g.base
  · rw [if_pos base, endOf.term, base]
  · obtain ⟨k, rfl⟩ : ∃ k, i = k + 1 := ⟨i - 1, by omega⟩
    obtain ⟨e, found⟩ : ∃ e, log[k]? = some e := ⟨_, List.getElem?_eq_getElem within⟩
    rw [if_neg base, endOf.entry? (by omega), Nat.add_sub_cancel, found, termAt_succ found]
    rfl

/-- The last committed entry is of the term `t`. -/
def RaftLog.CommitsIn (l : RaftLog) (t : Nat) : Prop := l.logical.term? l.committed = some t

theorem RaftLog.maybeCommit_true {l l' : RaftLog} {at_ : EntryID}
    (commits : l.maybeCommit at_ = .ok (l', true))
    : l.committed < at_.index ∧ l.matchTerm at_ = true
      ∧ l' = { l with committed := at_.index } := by
  unfold RaftLog.maybeCommit at commits
  split at commits
  · rename_i may
    obtain ⟨_, newer, holds⟩ := may
    obtain ⟨l₁, moves, eq⟩ := except_bind_eq_ok.mp commits
    cases eq
    have same := RaftLog.commitTo_ok moves
    rw [Nat.max_eq_right newer.le] at same
    exact ⟨newer, holds, same⟩
  · cases commits

namespace Books

/-- Requests wait only until an entry of the term is committed. Before, there are no
changes of the configuration to apply.
-/
structure Waits (b : Books) : Prop where
  parked : b.raftLog.CommitsIn b.term → b.parked = []
  unchanging : ¬b.raftLog.CommitsIn b.term → b.raftLog.Unchanging

/-- The leader waits with the log `c`. -/
structure Waiting (b : Books) (c : List Entry) : Prop extends b.Grounded c, b.Waits where
  above : b.raftLog.logical.base ≤ b.raftLog.committed
  available : b.raftLog.firstIndex ≤ b.raftLog.committed + 1
  within : b.raftLog.committed ≤ c.length

/-- The entry at `k` is of the current term. -/
theorem holds_current {b : Books} {k : Nat}
    (holds : b.raftLog.matchTerm { term := b.term, index := k } = true)
    : { b with raftLog := { b.raftLog with committed := k } }.current = true := by
  have same : { b.raftLog with committed := k }.term k = b.raftLog.term k := rfl
  unfold RaftLog.matchTerm at holds
  unfold current RaftLog.zeroTerm
  rw [same]
  cases read : b.raftLog.term k with
  | ok t =>
      rw [read] at holds
      exact holds
  | error err =>
      rw [read] at holds
      cases holds

namespace Waiting

variable {b b' : Books} {c : List Entry}

theorem commitsIn_iff {t : Nat} (ok : b.Waiting c)
    : b.raftLog.CommitsIn t ↔ termAt c b.raftLog.committed = t := by
  unfold RaftLog.CommitsIn
  rw [ok.logical.term? ok.above ok.within, Option.some.injEq]

theorem current_iff (ok : b.Waiting c)
    : b.current = true ↔ b.raftLog.CommitsIn b.term := by
  rw [ok.commitsIn_iff]
  unfold current RaftLog.zeroTerm
  rw [ok.shows.term ok.available ok.within]
  exact beq_iff_eq

/-- What grows grows behind what is committed. -/
theorem grow {es : List Entry} (ok : b.Waiting c) (grounded : b'.Grounded (c ++ es))
    (grown : b.Grown b' es) (committed : b'.raftLog.committed = b.raftLog.committed)
    (parked : b'.parked = b.parked)
    : b'.Waiting (c ++ es)
      ∧ (b'.raftLog.CommitsIn b'.term ↔ b.raftLog.CommitsIn b.term) := by
  have within := ok.within
  have above : b'.raftLog.logical.base ≤ b'.raftLog.committed := by
    rw [grown.base, committed]
    exact ok.above
  have within' : b'.raftLog.committed ≤ (c ++ es).length := by
    rw [committed, List.length_append]
    omega
  have available : b'.raftLog.firstIndex ≤ b'.raftLog.committed + 1 := by
    have available := ok.available
    unfold RaftLog.firstIndex Unstable.maybeFirstIndex at available ⊢
    rw [ok.snapshot] at available
    rw [grounded.snapshot, grown.storage, committed]
    exact available
  have same : b'.raftLog.CommitsIn b'.term ↔ b.raftLog.CommitsIn b.term := by
    rw [ok.commitsIn_iff, grown.term]
    unfold RaftLog.CommitsIn
    rw [grounded.logical.term? above within', committed, Option.some.injEq,
      termAt_congr (List.take_append_of_le_length within)]
  refine ⟨⟨grounded, ⟨fun commits => ?_, fun waits i e later upTo found => ?_⟩, above, available,
    within'⟩, same⟩
  · rw [parked]
    exact ok.parked (same.mp commits)
  · rw [committed] at upTo
    rw [grown.applied] at later
    have inside : b'.raftLog.logical.base < i := by
      unfold LogicalLog.entry? at found
      split at found
      · cases found
      · omega
    rw [grounded.logical.entry? inside, List.getElem?_append_left (by omega)] at found
    rw [grown.base] at inside
    rw [← ok.logical.entry? inside] at found
    exact ok.unchanging (fun commits => waits (same.mpr commits)) i e later upTo found

/-- A commit is one in the current term. -/
theorem commit {raftLog : RaftLog} {k : Nat} {parked : List Message} (ok : b.Waiting c)
    (commits : b.raftLog.maybeCommit { term := b.term, index := k } = .ok (raftLog, true))
    (released : { b with raftLog := raftLog }.current = true → parked = [])
    : { b with raftLog := raftLog, parked := parked }.Waiting c
      ∧ raftLog.CommitsIn b.term := by
  have grounded : { b with raftLog := raftLog, parked := parked }.Grounded c :=
    (ok.toGrounded.commit commits).1
  obtain ⟨newer, holds, rfl⟩ := RaftLog.maybeCommit_true commits
  obtain ⟨present, term⟩ : k ≤ c.length ∧ termAt c k = b.term := ok.shows.matchTerm holds
  have above : b.raftLog.logical.base ≤ k := ok.above.trans newer.le
  have available : b.raftLog.firstIndex ≤ k + 1 :=
    ok.available.trans (Nat.succ_le_succ newer.le)
  have commitsIn : b.raftLog.logical.term? k = some b.term := by
    rw [ok.logical.term? above present, term]
  have waits : { b with raftLog := { b.raftLog with committed := k }, parked := parked }.Waits :=
    ⟨fun _ => released (holds_current holds), fun waits => absurd commitsIn waits⟩
  exact ⟨⟨grounded, waits, above, available, present⟩, commitsIn⟩

end Waiting

variable [Codec] {heard : Message → Prop} {beats : ProgressState → Prop} {changes : Prop}
  {b b' : Books} {c : List Entry}

/-- A duty of a leader. The configuration changes only once an entry of the term is
committed.
-/
theorem Duty.waiting (duty : Duty heard beats changes b b')
    (leads : b'.state = .stateLeader)
    (ok : b.Waiting c) (may : changes → b.raftLog.CommitsIn b.term)
    : ∃ es, b'.Waiting (c ++ es)
      ∧ (b.raftLog.CommitsIn b.term → b'.raftLog.CommitsIn b'.term) := by
  have quiet (committed : b'.raftLog.committed = b.raftLog.committed)
      (parked : b'.parked = b.parked)
      : ∃ es, b'.Waiting (c ++ es)
        ∧ (b.raftLog.CommitsIn b.term → b'.raftLog.CommitsIn b'.term) := by
    obtain ⟨es, grounded, grown⟩ := duty.grounded leads ok.toGrounded
    obtain ⟨waiting, same⟩ := ok.grow grounded grown committed parked
    exact ⟨es, waiting, same.mpr⟩
  have stays {b' : Books} (waiting : b'.Waiting c)
      (commits : b.raftLog.CommitsIn b.term → b'.raftLog.CommitsIn b'.term)
      : ∃ es, b'.Waiting (c ++ es)
        ∧ (b.raftLog.CommitsIn b.term → b'.raftLog.CommitsIn b'.term) :=
    ⟨[], (List.append_nil c).symm ▸ waiting, commits⟩
  cases duty with
  | append es appends =>
      refine quiet ?_ rfl
      rcases RaftLog.append_ok appends with ⟨_, rfl⟩ | ⟨_, _, _, _, _, _, rfl⟩ <;> rfl
  | commit commits =>
      obtain ⟨waiting, now⟩ := ok.commit commits fun current => if_pos current
      exact stays waiting fun _ => now
  | commitOnChange changes commits =>
      obtain ⟨waiting, now⟩ := ok.commit commits fun _ => ok.parked (may changes)
      exact stays waiting fun _ => now
  | park hears type early =>
      have waits : ¬b.raftLog.CommitsIn b.term := fun commits =>
        absurd ((ok.current_iff.mpr commits).symm.trans early) nofun
      obtain ⟨⟨shows, snapshot, logical, indexed⟩, ⟨_, unchanging⟩, above, available, within⟩ := ok
      exact stays ⟨⟨shows, snapshot, logical, indexed⟩,
        ⟨fun commits => absurd commits waits, unchanging⟩, above, available, within⟩
        fun commits => commits
  | stepDown follows => exact absurd leads follows
  | _ => exact quiet rfl rfl

/-- A sequence of duties. -/
theorem Waiting.duties (ok : b.Waiting c)
    (duties : Relation.ReflTransGen (Duty heard beats changes) b b')
    (leads : b'.state = .stateLeader) (may : changes → b.raftLog.CommitsIn b.term)
    : b'.Waits := by
  have along : ∃ es, b'.Waiting (c ++ es)
      ∧ (b.raftLog.CommitsIn b.term → b'.raftLog.CommitsIn b'.term) := by
    induction duties with
    | refl => exact ⟨[], (List.append_nil c).symm ▸ ok, fun commits => commits⟩
    | tail _ duty ih =>
        obtain ⟨es, ok, stays⟩ := ih (duty.modest leads)
        obtain ⟨es', ok', stays'⟩ :=
          duty.waiting leads ok fun changes => stays (may changes)
        exact ⟨es ++ es', List.append_assoc c es es' ▸ ok', fun commits => stays' (stays commits)⟩
  obtain ⟨es, waiting, _⟩ := along
  exact waiting.toWaits

end Books

-----------------------------------------------------------------------------------------
-- Candidates
-----------------------------------------------------------------------------------------

section

variable [Codec] {L : Nat → List Entry} {d : Version} {async : Bool} {p : Pipeline}
  {now : Nat}
  {m : Message} {c c' : Core} {h h' : Host} {rn rn' : RawNode} {takes changes : Prop}
  {arrives : Message → Prop}

/-- No leader has entries of a later term, and no disk. -/
structure Dated (L : Nat → List Entry) (d : Version) : Prop where
  leaders : ∀ t, ∀ e ∈ L t, e.term ≤ t
  disk : ∀ e ∈ d.log, e.term ≤ d.term

omit [Codec] in
/-- What is committed is of an earlier term, or of the current one. -/
theorem Core.Placed.dated {t : Nat} (placed : c.Placed L d async) (dated : Dated L d)
    (commits : c.raftLog.CommitsIn t)
    : t ≤ c.term := by
  obtain ⟨p, piped, origin⟩ := placed
  have bound : ∀ e ∈ p.log, e.term ≤ c.term := by
    intro e member
    rcases origin with ⟨same, later⟩ | ⟨t, earlier, part⟩
    · exact (dated.disk e (same ▸ member)).trans later
    · exact (dated.leaders t e (part.subset member)).trans earlier
  unfold RaftLog.CommitsIn LogicalLog.term? at commits
  split at commits
  · rw [Option.some.injEq, piped.logical.term] at commits
    exact commits ▸ termAt_le bound _
  · obtain ⟨e, found, rfl⟩ := Option.map_eq_some_iff.mp commits
    have inside : c.raftLog.logical.base < c.raftLog.committed := by
      unfold LogicalLog.entry? at found
      split at found
      · cases found
      · omega
    rw [piped.logical.entry? inside] at found
    exact bound e (List.mem_of_getElem? found)

/-- A candidate has committed nothing in its term. -/
def Core.Fresh (c : Core) : Prop :=
  c.state = .stateCandidate → ¬c.raftLog.CommitsIn c.term

theorem Act.fresh (act : Act now m c c') (remote : m.type.isStored = false)
    (placed : c.Placed L d async) (dated : Dated L d) (ok : c.Fresh)
    : c'.Fresh := by
  cases act with
  | becomeFollower term newer later => nofun
  | becomePreCandidate type enabled notLeader may => nofun
  | becomeCandidate notLeader may =>
      intro _ commits
      exact absurd (placed.dated dated commits) (Nat.not_succ_le_self _)
  | win candidate won => nofun
  | acknowledged type leads term reject =>
      exact fun candidate => nomatch leads.symm.trans candidate
  | commit leads raftLog commits =>
      exact fun candidate => nomatch leads.symm.trans candidate
  | accept type follower term above raftLog last appended =>
      exact fun candidate => nomatch follower.symm.trans candidate
  | heartbeat type follower term raftLog committed =>
      exact fun candidate => nomatch follower.symm.trans candidate
  | fastForward type follower term newer holds raftLog committed =>
      exact fun candidate => nomatch follower.symm.trans candidate
  | restore type follower term newer lacks chg blank cfg progress config same =>
      exact fun candidate => nomatch follower.symm.trans candidate
  | stored type current term raftLog stores =>
      rw [type] at remote
      cases remote
  | applied type e last size raftLog applies =>
      rw [type] at remote
      cases remote
  | _ => exact ok

theorem Host.Turns.fresh (turns : Turns takes changes async arrives h rn h' rn')
    (logs : ∀ t, Matched L (L t)) (network : ∀ m, arrives m → m.OfLeader L)
    (sound : EtcdRaft.Sound L d async p h rn) (dated : Dated L d)
    (ok : rn.raft.core.Fresh)
    : rn'.raft.core.Fresh := by
  refine turns.carries logs network sound ok ?_ ?_ ?_ ?_ ?_
  · exact fun act _ remote placed ok => act.fresh remote placed dated ok
  · rintro m c c' ⟨leads, _⟩ _ _ candidate
    cases leads.symm.trans candidate
  · exact fun _ _ _ ok => ok
  · exact fun _ _ _ => ok
  · intro l advances candidate
    unfold RaftLog.CommitsIn
    show ¬l.logical.term? l.committed = _
    rw [advances.committed, advances.logical]
    exact ok candidate

-----------------------------------------------------------------------------------------
-- Leaders
-----------------------------------------------------------------------------------------

/-- A leader keeps requests only as long as it must. -/
def Raft.Waits (r : Raft) : Prop := r.state = .stateLeader → r.books.Waits

omit [Codec] in
theorem Piped.waiting {b : Books} {term : Nat} (piped : Piped L async p term b.raftLog)
    (free : b.raftLog.unstable.snapshot = none) (waits : b.Waits)
    : b.Waiting p.log := by
  have first := piped.firstIndex_le_applying free
  have base := piped.base_lt_firstIndex
  have applying := piped.pipe.index.applying
  exact ⟨piped.grounded free, waits, by omega, by omega, piped.pipe.index.committed⟩

omit [Codec] in
/-- Applying entries, or storing them, changes nothing for the requests. -/
theorem Books.Waits.advances {b : Books} {l : RaftLog} (ok : b.Waits)
    (advances : b.raftLog.Advances l)
    : { b with raftLog := l }.Waits := by
  have same {t : Nat} : l.CommitsIn t ↔ b.raftLog.CommitsIn t := by
    unfold RaftLog.CommitsIn
    rw [advances.committed, advances.logical]
  refine ⟨fun commits => ok.parked (same.mp commits), fun waits i e later upTo found => ?_⟩
  refine ok.unchanging (fun commits => waits (same.mpr commits)) i e ?_ ?_ ?_
  · exact advances.applied.trans_lt later
  · exact advances.committed ▸ upTo
  · exact advances.logical ▸ found

/-- A service keeps what leaders wait for. -/
theorem Raft.Accounts.waits {r : Raft} {b' : Books} {heard : Message → Prop}
    {beats : ProgressState → Prop}
    {changes : ConfChangeV2 → Prop}
    (accounts : r.Accounts L async heard beats changes b')
    (leads' : b'.state = .stateLeader)
    (piped : Piped L async p r.term r.raftLog) (ok : r.Waits) (fresh : r.core.Fresh)
    (eligible : r.core.Campaigns → r.core.Eligible)
    (free : r.state = .stateLeader → r.raftLog.unstable.snapshot = none)
    (may : ∀ cc, changes cc → r.state = .stateLeader → r.raftLog.CommitsIn r.term)
    : b'.Waits := by
  cases accounts with
  | @leads p' l b size leads advances piped' duties books =>
      subst books
      have waits : { r.books with raftLog := l }.Waits := (ok leads).advances advances
      have waiting : { r.books with raftLog := l }.Waiting p'.log :=
        piped'.waiting (advances.snapshot (free leads)) waits
      have after := waiting.duties duties leads' False.elim
      exact ⟨after.parked, after.unchanging⟩
  | @reconfigures cc config progress leads changes changed duties =>
      obtain ⟨parked, unchanging⟩ := ok leads
      have waiting : { r.books with config := config, progress := progress }.Waiting p.log :=
        piped.waiting (free leads) ⟨parked, unchanging⟩
      exact waiting.duties duties leads' fun _ => may cc changes leads
  | @risen own candidate found duties =>
      have fresh : ¬r.raftLog.CommitsIn r.term := fresh candidate
      obtain ⟨_, none, unchanging⟩ := eligible (.inr candidate)
      have waits : (r.books.takenOver own).Waits :=
        ⟨fun commits => absurd commits fresh, fun _ => unchanging⟩
      have waiting : (r.books.takenOver own).Waiting p.log := piped.waiting none waits
      exact waiting.duties duties leads' False.elim

-----------------------------------------------------------------------------------------
-- Whole lifetimes
-----------------------------------------------------------------------------------------

/-- What a node that may lead waits for. -/
structure RawNode.Waits (rn : RawNode) : Prop where
  fresh : rn.raft.core.Fresh
  leader : rn.raft.Waits

/-- An entry that the application handles in time is one that was committed in the
leader's term, or after such a one.
-/
theorem Host.Qualified.commitsIn (ok : h.Qualified) (timely : h.Timely)
    (node : h.node = some rn)
    (calls : h.Calls h') (waits : rn.raft.Waits) (leads : rn.raft.state = .stateLeader)
    : rn.raft.raftLog.CommitsIn rn.raft.term := by
  by_contra waiting
  obtain ⟨e, member, isChange, new⟩ := timely.exists_new node calls
  have unchanging := (waits leads).unchanging waiting
  obtain ⟨committed, old | ⟨s, pending, _⟩ | found⟩ := (ok rn node).handed e member
  · exact absurd new (Nat.not_lt.mpr old)
  · exact absurd ((ok rn node).leader leads |>.symm.trans pending) nofun
  · exact absurd ((unchanging e.index e new committed found).symm.trans isChange) nofun

theorem RawNode.Waits.serve {σ : Setup} {id : Nat} {s : Service} (ok : rn.Waits)
    (logs : ∀ t, Matched L (L t)) (dated : Dated L d) (ordered : h.Ordered L d async)
    (qualified : h.Qualified) (accepts : h.Accepts L σ id s) (inTime : h.InTime s)
    (node : h.node = some rn) (node' : (h.serve σ id s).1.node = some rn')
    : rn'.Waits := by
  obtain ⟨p, sound⟩ := ordered.sound rn node
  obtain ⟨p', sound'⟩ := (ordered.serve logs accepts).sound rn' node'
  obtain ⟨rn₁, arrives, node₁, network, turns, _⟩ := accepts.turns ordered node'
  cases node.symm.trans node₁
  refine ⟨turns.fresh logs network sound dated ok.fresh, fun leads' => ?_⟩
  have accounts := (accepts.driven ordered node node').accounts sound sound' leads'
  have qualified' := qualified rn node
  refine accounts.waits leads' sound.piped ok.leader ok.fresh qualified'.candidate
    qualified'.leader ?_
  exact fun cc applies leads =>
    qualified.commitsIn (inTime applies.may) node applies.calls ok.leader leads

namespace Launch

variable {x : Launch} {services : List Service}

omit [Codec] in
theorem Up.waits (up : x.Up rn h) : rn.Waits := by
  refine ⟨fun candidate => ?_, fun leads => ?_⟩
  · cases up.started.state.symm.trans candidate
  · cases up.started.state.symm.trans leads

/-- As long as read requests wait at a leader, the last committed entry is not of its
term, if `ApplyConfChange` is called only for entries that the node has not applied.
-/
theorem parked_reads_wait {d : List Entry} (logs : ∀ t, Matched L (L t))
    (prepared : x.Prepared L) (stored : Stored x.disk d) (matched : Matched L d)
    (dated : Dated L ⟨x.disk.hardState.term, d⟩)
    (served : Host.Served x.setup x.id
      (fun h s => h.Accepts L x.setup x.id s ∧ h.InTime s) x.host services)
    (node : (x.serve services).node = some rn) (leads : rn.raft.state = .stateLeader)
    (parked : rn.raft.pendingReadIndexMessages ≠ [])
    : rn.raft.committedEntryInCurrentTerm = false := by
  have start : x.host.Qualified ∧ ∀ rn, x.host.node = some rn → rn.Waits := by
    exact ⟨fun rn node => (up_of_node node).qualified rn node,
      fun _ node => (up_of_node node).waits⟩
  obtain ⟨ordered, qualified, waits⟩ := served.preserves
    (p := fun h => h.Ordered L ⟨x.disk.hardState.term, d⟩ x.setup.asyncStorageWrites
      ∧ h.Qualified ∧ ∀ rn, h.node = some rn → rn.Waits)
    ⟨ordered_of_stored prepared stored matched, start⟩ <| by
      rintro h s ⟨ordered, qualified, waits⟩ ⟨accepts, inTime⟩
      refine ⟨ordered.serve logs accepts, qualified.serve logs ordered accepts inTime, ?_⟩
      intro rn' node'
      obtain ⟨rn, _, node, _⟩ := accepts.turns ordered node'
      exact (waits rn node).serve logs dated ordered qualified accepts inTime node node'
  obtain ⟨p, sound⟩ := ordered.sound rn node
  have waiting : rn.raft.books.Waiting p.log :=
    sound.piped.waiting ((qualified rn node).leader leads) ((waits rn node).leader leads)
  refine Bool.eq_false_of_not_eq_true fun current => ?_
  exact parked (waiting.parked (waiting.current_iff.mp current))

end Launch

end

attribute [local instance] Codec.wire

/-- The leader of the first term adds node 3. -/
def joins : List Entry := [
  { term := 1, index := 1 },
  { term := 1, index := 2, type := .entryConfChange, data := [0x10, 0, 0x18, 3] }]

def joining : Nat → List Entry
  | 1 => joins
  | 2 => joins ++ [{ term := 2, index := 3 }]
  | _ => []

theorem joining_matched (t : Nat) : Matched joining (joining t) := by
  match t with
  | 0 => exact .nil
  | 1 => exact .of_fin (by decide)
  | 2 => exact .of_fin (by decide)
  | t + 3 => exact .nil

/-- The application handles the change in time. Then the node is elected by the three
voters and asked for a read before it has committed anything of its term.
-/
def earlyRead : List Service := [
  .input (.receive {
    type := .msgApp, toId := 1, fromId := 2, term := 1, entries := joins, commit := 2 }),
  .input (.event .ready), .input (.event .persist), .input (.event .appendResp),
  .input (.event .ready), .process true, .process true, .process true, .input (.event .applyResp),
  .input (.event .campaign), .input (.event .ready), .input (.event .persist),
  .input (.event .persist),
  .input (.receive { type := .msgVoteResp, toId := 1, fromId := 1, term := 2 }),
  .input (.receive { type := .msgVoteResp, toId := 1, fromId := 2, term := 2 }),
  .input (.event (.readIndex [9]))]

/-- The change made in time adds a voter; the read waits all the same. -/
theorem parked_reads_wait_earlyRead
    : ∃ rn, (pair.serve earlyRead).node = some rn ∧ rn.raft.state = .stateLeader
      ∧ rn.raft.trk.config.voters.ids.keys = [1, 2, 3]
      ∧ rn.raft.pendingReadIndexMessages.length = 1
      ∧ rn.raft.committedEntryInCurrentTerm = false := by
  have state : (pair.serve earlyRead).node.map (fun rn => (rn.raft.state,
      rn.raft.trk.config.voters.ids.keys, rn.raft.pendingReadIndexMessages.length))
        = some (.stateLeader, [1, 2, 3], 1) := by
    decide +kernel
  obtain ⟨rn, node, state⟩ := Option.map_eq_some_iff.mp state
  simp only [Prod.mk.injEq] at state
  obtain ⟨leads, voters, parked⟩ := state
  have prepared : pair.Prepared joining :=
    ⟨⟨[], ⟨Nat.le_refl _, rfl, rfl⟩, .nil⟩, Nat.le_refl _⟩
  have leaders (t : Nat) : ∀ e ∈ joining t, e.term ≤ t := by
    match t with
    | 0 => exact List.forall_mem_nil _
    | 1 => decide
    | 2 => decide
    | t + 3 => exact List.forall_mem_nil _
  have served : Host.Served pair.setup pair.id (fun h s =>
      h.Accepts joining pair.setup pair.id s ∧ h.InTime s) pair.host earlyRead := by
    decide +kernel
  refine ⟨rn, node, leads, voters, parked, Launch.parked_reads_wait (d := []) joining_matched
    prepared ⟨Nat.le_refl _, rfl, rfl⟩ (.nil) ⟨leaders, nofun⟩ served node leads fun none => ?_⟩
  rw [none] at parked
  cases parked

/-- The leader of the first term removes node 2 and adds it again. -/
def leaving : Nat → List Entry
  | 1 => [
      { term := 1, index := 1 },
      { term := 1, index := 2, type := .entryConfChange, data := [0x10, 1, 0x18, 2] },
      { term := 1, index := 3, type := .entryConfChange, data := [0x10, 0, 0x18, 2] }]
  | 2 => leaving 1 ++ [{ term := 2, index := 4 }]
  | _ => []

/-- A snapshot with both changes overtakes the first one, which has been handed out. The
node is elected, stores the first entry of its term and is asked for a read. Then the
application handles the change, after which the node alone is a quorum.
-/
def stranded : List Service := [
  .input (.receive {
    type := .msgApp, toId := 1, fromId := 2, term := 1, entries := (leaving 1).take 2
    commit := 2 }),
  .input (.event .ready), .input (.event .persist), .input (.event .appendResp),
  .input (.event .ready),
  .input (.receive {
    type := .msgSnap, toId := 1, fromId := 2, term := 1
    snapshot := some {
      data := leaving 1
      metadata := { confState := { voters := [1, 2] }, index := 3, term := 1 } } }),
  .input (.event .ready), .input (.event .persist), .input (.event .appendResp),
  .input (.event .campaign), .input (.event .ready), .input (.event .persist),
  .input (.receive { type := .msgVoteResp, toId := 1, fromId := 1, term := 2 }),
  .input (.receive { type := .msgVoteResp, toId := 1, fromId := 2, term := 2 }),
  .input (.event (.readIndex [9])), .input (.event .ready), .input (.event .persist),
  .input (.receive { type := .msgAppResp, toId := 1, fromId := 1, term := 2, index := 4 }),
  .process true, .process true]

/-- The read request waits although an entry of the term is committed. -/
theorem stranded_read
    : Host.Served pair.setup pair.id (Host.Accepts leaving pair.setup pair.id) pair.host stranded
      ∧ (pair.serve stranded).node.map (fun rn => (rn.raft.state,
          rn.raft.pendingReadIndexMessages.length, rn.raft.committedEntryInCurrentTerm))
        = some (.stateLeader, 1, true) := by
  refine ⟨?_, ?_⟩ <;> decide +kernel

end EtcdRaft
