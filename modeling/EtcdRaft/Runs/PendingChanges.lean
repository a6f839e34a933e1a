import EtcdRaft.Runs.Services

/-! The configuration changes in the log of a leader. None is beyond the one that it
remembers as pending, and with validation it appends one only when all the others are
applied.
-/

namespace EtcdRaft

-----------------------------------------------------------------------------------------
-- Logs
-----------------------------------------------------------------------------------------

/-- Entries are appended at the end of the log. -/
theorem LogicalLog.entry?_append {l : LogicalLog} {es : List Entry}
    (new : Consecutive (l.lastIndex + 1) es) (i : Nat)
    : LogicalLog.entry? (l.truncateAndAppend es) i
      = if i ≤ l.lastIndex then l.entry? i else es[i - l.lastIndex - 1]? := by
  unfold lastIndex at *
  cases es with
  | nil =>
      unfold truncateAndAppend entry?
      simp only [List.getElem?_nil]
      by_cases inside : i ≤ l.base + l.entries.length
      · rw [if_pos inside]
      · rw [if_neg inside, if_neg (by omega), List.getElem?_eq_none (by omega)]
  | cons e rest =>
      have first : e.index - l.base - 1 = l.entries.length := by
        have := new.head
        omega
      unfold truncateAndAppend entry?
      dsimp only
      rw [first, List.take_length]
      by_cases early : i ≤ l.base
      · rw [if_pos early, if_pos early, if_pos (by omega)]
      rw [if_neg early, if_neg early]
      by_cases inside : i ≤ l.base + l.entries.length
      · rw [if_pos inside, List.getElem?_append_left (by omega)]
      · rw [if_neg inside, List.getElem?_append_right (by omega)]
        congr 1
        omega

/-- The configuration changes of the log, with their indexes. -/
def RaftLog.ChangeAt (l : RaftLog) (i : Nat) : Prop :=
  ∃ e, l.logical.entry? i = some e ∧ e.isConfChange = true

section

variable [Codec] {L : Nat → List Entry} {d : Version} {async : Bool} {p : Pipeline}
  {now : Nat}
  {m : Message} {c c' : Core} {arrives : Message → Prop} {takes changes : Prop}
  {h h' : Host}
  {rn rn' : RawNode}

omit [Codec] in
theorem Core.Placed.lastIndex (placed : c.Placed L d async)
    : c.raftLog.logical.lastIndex = c.raftLog.lastIndex := by
  obtain ⟨p, piped, _⟩ := placed
  rw [piped.logical.lastIndex, piped.pipe.shows.lastIndex]

omit [Codec] in
theorem Core.Placed.changeAt_le {i : Nat} (placed : c.Placed L d async)
    (change : c.raftLog.ChangeAt i)
    : i ≤ c.raftLog.lastIndex := by
  obtain ⟨e, found, _⟩ := change
  rw [← placed.lastIndex]
  unfold LogicalLog.entry? at found
  unfold LogicalLog.lastIndex
  split at found
  · cases found
  · have inside := (List.getElem?_eq_some_iff.mp found).1
    omega

-----------------------------------------------------------------------------------------
-- Leaders
-----------------------------------------------------------------------------------------

/-- All configuration changes of a leader are up to the pending one. -/
def Core.Remembers (c : Core) : Prop :=
  c.state = .stateLeader → ∀ i, c.raftLog.ChangeAt i → i ≤ c.pendingConfIndex

/-- A leader that has appended a configuration change after the index `n` has applied all
the others.
-/
def Core.OneByOne (n : Nat) (c : Core) : Prop :=
  ∀ i, n < i → c.raftLog.ChangeAt i → ∀ j < i, c.raftLog.ChangeAt j → j ≤ c.raftLog.applied

omit [Codec] in
theorem RaftLog.changeAt_maybeCommit {l l' : RaftLog} {at_ : EntryID} {i : Nat}
    (commits : l.maybeCommit at_ = .ok (l', true))
    : (l'.ChangeAt i ↔ l.ChangeAt i) ∧ l'.applied = l.applied := by
  unfold RaftLog.maybeCommit at commits
  split at commits
  · obtain ⟨l₁, commits, eq⟩ := except_bind_eq_ok.mp commits
    cases eq
    rw [RaftLog.commitTo_ok commits]
    exact ⟨Iff.rfl, rfl⟩
  · cases commits

omit [Codec] in
theorem RaftLog.Advances.changeAt {l l' : RaftLog} {i : Nat} (advances : l.Advances l')
    : l'.ChangeAt i ↔ l.ChangeAt i := by
  unfold RaftLog.ChangeAt
  rw [advances.logical]

theorem Act.remembers (act : Act now m c c') (remote : m.type.isStored = false)
    (placed : c.Placed L d async) (ok : c.Remembers)
    : c'.Remembers := by
  cases act with
  | becomeFollower term newer later => nofun
  | becomePreCandidate type enabled notLeader may => nofun
  | becomeCandidate notLeader may => nofun
  | win candidate won type => exact fun _ i change => placed.changeAt_le change
  | commit leads raftLog commits =>
      exact fun _ i change => ok leads i ((RaftLog.changeAt_maybeCommit commits).1.mp change)
  | accept type follower term above raftLog last appended =>
      exact fun leads => nomatch follower.symm.trans leads
  | heartbeat type follower term raftLog committed =>
      exact fun leads => nomatch follower.symm.trans leads
  | fastForward type follower term newer holds raftLog committed =>
      exact fun leads => nomatch follower.symm.trans leads
  | restore type follower term newer lacks chg blank cfg progress config same =>
      exact fun leads => nomatch follower.symm.trans leads
  | stored type current term raftLog stores =>
      rw [type] at remote
      cases remote
  | applied type e last size raftLog applies =>
      rw [type] at remote
      cases remote
  | setPending index beyond =>
      exact fun _ i change => (placed.changeAt_le change).trans beyond
  | _ => exact ok

omit [Codec] in
/-- The configuration changes after an append: the old ones, and those among the new
entries.
-/
theorem Core.Placed.changeAt_append {es : List Entry} {l : RaftLog} {i : Nat}
    (placed : c.Placed L d async) (appends : c.raftLog.append (c.stamped es) = .ok l)
    (change : l.ChangeAt i)
    : (i ≤ c.raftLog.lastIndex ∧ c.raftLog.ChangeAt i)
      ∨ ∃ j e, es[j]? = some e ∧ e.isConfChange = true ∧ i = c.raftLog.lastIndex + j + 1 := by
  obtain ⟨e, found, conf⟩ := change
  have logical : l.logical = c.raftLog.logical.truncateAndAppend (c.stamped es) := by
    rcases RaftLog.append_ok appends with ⟨none, rfl⟩ | ⟨_, _, _, _, _, _, rfl⟩
    · rw [none]
      rfl
    · rfl
  have new := c.consecutive_stamped es
  rw [← placed.lastIndex] at new
  rw [logical, LogicalLog.entry?_append new, placed.lastIndex] at found
  split at found
  · exact .inl ⟨‹_›, e, found, conf⟩
  · unfold Core.stamped at found
    rw [List.getElem?_mapIdx] at found
    obtain ⟨e', at_, rfl⟩ := Option.map_eq_some_iff.mp found
    exact .inr ⟨_, e', at_, conf, by omega⟩

omit [Codec] in
theorem Core.Placed.applied_le (placed : c.Placed L d async)
    : c.raftLog.applied ≤ c.raftLog.lastIndex := by
  obtain ⟨p, piped, _⟩ := placed
  rw [piped.pipe.shows.lastIndex]
  exact piped.pipe.index.applied.trans (piped.pipe.index.applying.trans piped.pipe.index.committed)

omit [Codec] in
theorem Appends.remembers (appends : Appends m c c') (placed : c.Placed L d async)
    (ok : c.Remembers)
    : c'.Remembers := by
  obtain ⟨leads, es, nonempty, index, proposal, _, raftLog, appends⟩ := appends
  intro _ i change
  show i ≤ index
  rcases placed.changeAt_append appends change with ⟨old, change⟩ | ⟨j, e, at_, conf, rfl⟩
  · have below := ok leads i change
    cases proposal with
    | plain normal same => exact same ▸ below
    | change settled position one pending => omega
    | unchecked off last beyond => omega
    | absurd ahead => exact absurd placed.applied_le (Nat.not_le.mpr ahead)
  · cases proposal with
    | plain normal same =>
        exact absurd ((normal e (List.mem_of_getElem? at_)).symm.trans conf) nofun
    | change settled position one pending =>
        have here := one j e at_ conf
        omega
    | unchecked off last beyond => exact last j e at_ conf
    | absurd ahead => exact absurd placed.applied_le (Nat.not_le.mpr ahead)

omit [Codec] in
theorem Appends.oneByOne {n : Nat} (appends : Appends m c c')
    (placed : c.Placed L d async)
    (validates : c.validation = true) (remembers : c.Remembers) (ok : c.OneByOne n)
    : c'.OneByOne n := by
  obtain ⟨leads, es, nonempty, index, proposal, _, raftLog, appends⟩ := appends
  have applied : raftLog.applied = c.raftLog.applied := by
    rcases RaftLog.append_ok appends with ⟨_, rfl⟩ | ⟨_, _, _, _, _, _, rfl⟩ <;> rfl
  intro i new change j below change'
  show j ≤ raftLog.applied
  rw [applied]
  rcases placed.changeAt_append appends change with ⟨old, change⟩ | ⟨k, e, at_, conf, rfl⟩
  · rcases placed.changeAt_append appends change' with ⟨_, change'⟩ | ⟨k, e, at_, conf, rfl⟩
    · exact ok i new change j below change'
    · omega
  · cases proposal with
    | plain normal same =>
        exact absurd ((normal e (List.mem_of_getElem? at_)).symm.trans conf) nofun
    | change settled position one pending =>
        have here := one k e at_ conf
        rcases placed.changeAt_append appends change' with ⟨_, change'⟩ | ⟨k', e', at_', conf', rfl⟩
        · exact (remembers leads j change').trans settled
        · have there := one k' e' at_' conf'
          omega
    | unchecked off last beyond => exact absurd (validates.symm.trans off) nofun
    | absurd ahead => exact absurd placed.applied_le (Nat.not_le.mpr ahead)

/-- What a service of the node `c₀` can lead to. As long as the term stays, only what a
leader proposes comes into the log of a candidate or leader.
-/
structure Core.Continues (c₀ c : Core) : Prop where
  remembers : c.Remembers
  term : c₀.term ≤ c.term
  candidate : c.state = .stateCandidate → c.term = c₀.term
    → ∀ i, c.raftLog.ChangeAt i → i ≤ c₀.raftLog.lastIndex
  validation : c.validation = true
  oneByOne : c.state = .stateLeader → c.term = c₀.term → c.OneByOne c₀.raftLog.lastIndex

theorem Act.continues {c₀ : Core} (act : Act now m c c')
    (remote : m.type.isStored = false) (placed : c.Placed L d async) (ok : c₀.Continues c)
    : c₀.Continues c' := by
  have remembers := act.remembers remote placed ok.remembers
  have term := ok.term
  cases act with
  | becomeFollower t newer later =>
      exact ⟨remembers, term.trans newer, nofun, ok.validation, nofun⟩
  | becomePreCandidate type enabled notLeader may =>
      exact ⟨remembers, term, nofun, ok.validation, nofun⟩
  | becomeCandidate notLeader may =>
      refine ⟨remembers, Nat.le_succ_of_le term, fun _ same => ?_, ok.validation, nofun⟩
      exact absurd same (Nat.ne_of_gt (Nat.lt_succ_of_le term))
  | win candidate won type =>
      refine ⟨remembers, term, nofun, ok.validation, fun _ same i new change => ?_⟩
      exact absurd (ok.candidate candidate same i change) (Nat.not_le.mpr new)
  | commit leads raftLog commits =>
      refine ⟨remembers, term, fun candidate => absurd (leads.symm.trans candidate) nofun,
        ok.validation, fun leads same i new change j below change' => ?_⟩
      obtain ⟨_, applied⟩ := RaftLog.changeAt_maybeCommit (i := i) commits
      show j ≤ raftLog.applied
      rw [applied]
      exact ok.oneByOne leads same i new ((RaftLog.changeAt_maybeCommit commits).1.mp change) j
        below
        ((RaftLog.changeAt_maybeCommit commits).1.mp change')
  | accept type follower t above raftLog last appended =>
      exact ⟨remembers, term, fun candidate => absurd (follower.symm.trans candidate) nofun,
        ok.validation, fun leads => nomatch follower.symm.trans leads⟩
  | heartbeat type follower t raftLog committed =>
      exact ⟨remembers, term, fun candidate => absurd (follower.symm.trans candidate) nofun,
        ok.validation, fun leads => nomatch follower.symm.trans leads⟩
  | fastForward type follower t newer holds raftLog committed =>
      exact ⟨remembers, term, fun candidate => absurd (follower.symm.trans candidate) nofun,
        ok.validation, fun leads => nomatch follower.symm.trans leads⟩
  | restore type follower t newer lacks chg blank cfg progress config same =>
      exact ⟨remembers, term, fun candidate => absurd (follower.symm.trans candidate) nofun,
        ok.validation, fun leads => nomatch follower.symm.trans leads⟩
  | stored type current t raftLog stores =>
      rw [type] at remote
      cases remote
  | applied type e last size raftLog applies =>
      rw [type] at remote
      cases remote
  | _ => exact ⟨remembers, term, ok.candidate, ok.validation, ok.oneByOne⟩

/-- Every service of a running node keeps the bound on the configuration changes. -/
theorem Host.Turns.remembers (turns : Turns takes changes async arrives h rn h' rn')
    (logs : ∀ t, Matched L (L t)) (network : ∀ m, arrives m → m.OfLeader L)
    (sound : EtcdRaft.Sound L d async p h rn) (ok : rn.raft.core.Remembers)
    : rn'.raft.core.Remembers := by
  refine turns.carries logs network sound ok ?_ ?_ ?_ ?_ ?_
  · exact fun act _ remote placed ok => act.remembers remote placed ok
  · exact fun appends placed ok => appends.remembers placed ok
  · exact fun _ _ _ ok => ok
  · exact fun _ _ _ => ok
  · exact fun advances leads i change => ok leads i (advances.changeAt.mp change)

/-- A leader appends configuration changes one by one. -/
theorem Host.Turns.oneByOne (turns : Turns takes changes async arrives h rn h' rn')
    (logs : ∀ t, Matched L (L t)) (network : ∀ m, arrives m → m.OfLeader L)
    (sound : EtcdRaft.Sound L d async p h rn)
    (validates : rn.raft.disableConfChangeValidation = false)
    (ok : rn.raft.core.Remembers)
    (leads' : rn'.raft.state = .stateLeader) (term : rn'.raft.term = rn.raft.term)
    : rn'.raft.core.OneByOne rn.raft.raftLog.lastIndex := by
  have placed : rn.raft.core.Placed L d async := ⟨p, sound.piped, sound.origin⟩
  have start : rn.raft.core.Continues rn.raft.core := by
    refine ⟨ok, Nat.le_refl _, fun _ _ i change => placed.changeAt_le change, ?_, ?_⟩
    · simp [Raft.core, validates]
    · intro _ _ i new change
      exact absurd (placed.changeAt_le change) (Nat.not_le.mpr new)
  suffices continues : rn.raft.core.Continues rn'.raft.core from continues.oneByOne leads' term
  refine turns.carries logs network sound start ?_ ?_ ?_ ?_ ?_
  · exact fun act _ remote placed ok => act.continues remote placed ok
  · intro m c c' appends placed ok
    have remembers := appends.remembers placed ok.remembers
    have oneByOne (leads : c.state = .stateLeader) (same : c.term = rn.raft.core.term) :=
      appends.oneByOne placed ok.validation ok.remembers (ok.oneByOne leads same)
    obtain ⟨leads, es, nonempty, index, proposal, _, raftLog, appends⟩ := appends
    refine ⟨remembers, ok.term, fun candidate => ?_, ok.validation, oneByOne⟩
    cases leads.symm.trans candidate
  · exact fun _ _ _ ok => ⟨ok.remembers, ok.term, ok.candidate, ok.validation, ok.oneByOne⟩
  · exact fun _ _ _ => ⟨ok, start.term, start.candidate, start.validation, start.oneByOne⟩
  · intro l advances
    refine ⟨fun leads i change => ok leads i (advances.changeAt.mp change), start.term,
      fun _ _ i change => placed.changeAt_le (advances.changeAt.mp change), start.validation,
      fun _ _ i new change => ?_⟩
    exact absurd (placed.changeAt_le (advances.changeAt.mp change)) (Nat.not_le.mpr new)

/-- A leader has the term that it had before as a leader or a candidate. -/
theorem Raft.Accounts.term {r : Raft} {b' : Books} {heard : Message → Prop}
    {beats : ProgressState → Prop} {changes : ConfChangeV2 → Prop}
    (accounts : r.Accounts L async heard beats changes b')
    (leads : b'.state = .stateLeader)
    : b'.term = r.term := by
  cases accounts with
  | leads _ advances piped duties books =>
      subst books
      exact Books.term_of_duties duties leads
  | reconfigures _ may changed duties => exact Books.term_of_duties duties leads
  | risen _ found duties => exact Books.term_of_duties duties leads

namespace Launch

variable {x : Launch} {services : List Service}

/-- In every state of a leader all the configuration changes in its log are up to the one
that it remembers as pending. With validation it appends one only when it has applied all
the others.
-/
theorem confChange_pending (logs : ∀ t, Matched L (L t)) (prepared : x.Prepared L)
    (served : Host.Served x.setup x.id (Host.Accepts L x.setup x.id) x.host services)
    (node : (x.serve services).node = some rn)
    : (rn.raft.state = .stateLeader → ∀ i e, rn.raft.raftLog.logical.entry? i = some e
        → e.isConfChange = true → i ≤ rn.raft.pendingConfIndex)
      ∧ (rn.raft.disableConfChangeValidation = false
        → ∀ s rn', (x.serve services).Accepts L x.setup x.id s
        → ((x.serve services).serve x.setup x.id s).1.node = some rn'
        → rn'.raft.state = .stateLeader
        → ∀ i e, rn.raft.raftLog.lastIndex < i → rn'.raft.raftLog.logical.entry? i = some e
        → e.isConfChange = true → ∀ j e', j < i → rn'.raft.raftLog.logical.entry? j = some e'
        → e'.isConfChange = true → j ≤ rn'.raft.raftLog.applied) := by
  obtain ⟨d, _, start⟩ := host_ordered prepared
  have begins (rn : RawNode) (up : x.Up rn x.host) : rn.raft.core.Remembers := by
    intro leads
    cases up.started.state.symm.trans leads
  obtain ⟨ordered, remembers⟩ :=
    serve_invariant (p := fun _ rn => rn.raft.core.Remembers) logs start
    served (fun _ _ accepts => accepts) begins <| by
      intro h s rn rn' ordered accepts node node' remembers
      obtain ⟨rn₁, arrives, node₁, network, turns, _⟩ := accepts.turns ordered node'
      cases node.symm.trans node₁
      obtain ⟨p, sound⟩ := ordered.sound rn node
      exact turns.remembers logs network sound remembers
  refine ⟨fun leads i e found conf => remembers rn node leads i ⟨e, found, conf⟩, ?_⟩
  intro validates s rn' accepts node' leads' i e new found conf j e' below found' conf'
  obtain ⟨p, sound⟩ := Host.Ordered.sound ordered rn node
  obtain ⟨p', sound'⟩ := (Host.Ordered.serve ordered logs accepts).sound rn' node'
  have term :=
    ((accepts.driven ordered node node').accounts sound sound' leads').term leads'
  obtain ⟨rn₁, arrives, node₁, network, turns, _⟩ := accepts.turns ordered node'
  cases node.symm.trans node₁
  exact turns.oneByOne logs network sound validates (remembers rn node) leads' term i new
    ⟨e, found, conf⟩ j below ⟨e', found', conf'⟩

end Launch

end

attribute [local instance] Codec.wire

/-- A change that adds the node 2, and one that removes it. -/
def addsPeer : Entry where
  type := .entryConfChange
  data := [0x10, 0, 0x18, 2]

def removesPeer : Entry where
  type := .entryConfChange
  data := [0x10, 1, 0x18, 2]

/-- The log of the only leader, with these two changes. -/
def membershipLog (t : Nat) : List Entry :=
  if t = 1 then
    [{ term := 1, index := 1 }, { addsPeer with term := 1, index := 2 },
      { removesPeer with term := 1, index := 3 }]
  else []

theorem membershipLog_matched (t : Nat) : Matched membershipLog (membershipLog t) := by
  by_cases first : t = 1
  · subst first
    exact .of_fin (by decide)
  · rw [membershipLog, if_neg first]
    exact .nil

/-- The node is elected, and applies the first of the two changes. -/
def changesMembers : List Input :=
  [.event .campaign] ++ handleReady 0 1 ++ handleReady 0 2
    ++ [.receive { type := .msgProp, toId := 1, fromId := 2, entries := [addsPeer] }]
    ++ handleReady 1 3 ++ handleReady 1 2

def changesBack : Service :=
  .input (.receive { type := .msgProp, toId := 1, fromId := 2, entries := [removesPeer] })

theorem confChange_pending_loneVoter
    : ∃ rn rn' e, (loneVoter.serve (changesMembers.map .input)).node = some rn
      ∧ ((loneVoter.serve (changesMembers.map .input)).serve loneVoter.setup loneVoter.id
          changesBack).1.node = some rn'
      ∧ rn.raft.raftLog.logical.entry? 2 = some e ∧ e.isConfChange = true
      ∧ rn.raft.raftLog.lastIndex = 2 ∧ rn'.raft.raftLog.lastIndex = 3
      ∧ 2 ≤ rn.raft.pendingConfIndex ∧ 2 ≤ rn'.raft.raftLog.applied := by
  have before : (loneVoter.serve (changesMembers.map .input)).node.map (fun rn => (rn.raft.state,
      rn.raft.disableConfChangeValidation, rn.raft.raftLog.lastIndex,
      LogicalLog.entry? rn.raft.raftLog.logical 2))
        = some (.stateLeader, false, 2, some { addsPeer with term := 1, index := 2 }) := by
    decide +kernel
  have after : ((loneVoter.serve (changesMembers.map .input)).serve loneVoter.setup loneVoter.id
      changesBack).1.node.map (fun rn => (rn.raft.state, rn.raft.raftLog.lastIndex,
        LogicalLog.entry? rn.raft.raftLog.logical 2, LogicalLog.entry? rn.raft.raftLog.logical 3))
        = some (.stateLeader, 3, some { addsPeer with term := 1, index := 2 },
          some { removesPeer with term := 1, index := 3 }) := by
    decide +kernel
  obtain ⟨rn, node, before⟩ := Option.map_eq_some_iff.mp before
  obtain ⟨rn', node', after⟩ := Option.map_eq_some_iff.mp after
  simp only [Prod.mk.injEq] at before after
  have prepared : loneVoter.Prepared membershipLog :=
    ⟨⟨[], ⟨Nat.le_refl _, rfl, rfl⟩, .nil⟩, Nat.le_refl _⟩
  have served : Host.Served loneVoter.setup loneVoter.id
      (Host.Accepts membershipLog loneVoter.setup loneVoter.id) loneVoter.host
      (changesMembers.map .input) := by
    decide +kernel
  have accepts : (loneVoter.serve (changesMembers.map .input)).Accepts membershipLog
      loneVoter.setup loneVoter.id changesBack := by
    decide +kernel
  obtain ⟨leads, validates, last, found⟩ := before
  obtain ⟨leads', last', found', new⟩ := after
  obtain ⟨bound, oneByOne⟩ :=
    Launch.confChange_pending membershipLog_matched prepared served node
  refine ⟨rn, rn', _, node, node', found, rfl, last, last', bound leads 2 _ found rfl, ?_⟩
  exact oneByOne validates changesBack rn' accepts node' leads' 3 _ (by rw [last]; decide) new rfl
    2 _ (by decide) found' rfl

end EtcdRaft
