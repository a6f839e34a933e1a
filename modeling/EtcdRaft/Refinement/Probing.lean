import EtcdRaft.Refinement.MaybeAppend
import EtcdRaft.Model.Step

/-! How a leader finds the last entry that a follower's log has in common with its own:
after each rejected append it sends one further back.
-/

namespace EtcdRaft

-----------------------------------------------------------------------------------------
-- `findConflictByTerm`
-----------------------------------------------------------------------------------------

namespace RaftLog

theorem findConflictByTerm_le (l : RaftLog) (index term : Nat)
    : (l.findConflictByTerm index term).1 ≤ index := by
  induction index with
  | zero => exact Nat.le_refl 0
  | succ i ih =>
      unfold findConflictByTerm
      split
      · exact Nat.le_refl _
      · split
        · exact Nat.le_refl _
        · exact Nat.le_succ_of_le ih

/-- An index whose term is not above the given one is not skipped. -/
theorem le_findConflictByTerm {l : RaftLog} {p t index term : Nat}
    (read : l.term p = .ok t) (low : t ≤ term) (before : p ≤ index)
    : p ≤ (l.findConflictByTerm index term).1 := by
  induction index with
  | zero => exact before
  | succ i ih =>
      unfold findConflictByTerm
      split
      · exact before
      · rename_i ourTerm ours
        split
        · exact before
        · rename_i high
          refine ih (Nat.le_of_lt_succ (Nat.lt_of_le_of_ne before ?_))
          rintro rfl
          cases ours.symm.trans read
          exact high low

/-- The term it returns is the one at the index it returns, unless it is zero. -/
theorem term_findConflictByTerm {l : RaftLog} {index term : Nat}
    (known : 0 < (l.findConflictByTerm index term).2)
    : l.term (l.findConflictByTerm index term).1
      = .ok (l.findConflictByTerm index term).2 := by
  induction index with
  | zero => exact absurd known (Nat.lt_irrefl 0)
  | succ i ih =>
      unfold findConflictByTerm at known ⊢
      split at known
      · exact absurd known (Nat.lt_irrefl 0)
      · rename_i ourTerm ours
        split at known
        · rename_i low
          rw [if_pos low]
          exact ours
        · rename_i high
          rw [if_neg high]
          exact ih known

/-- The terms of a log do not decrease. -/
theorem WellFormed.term_mono {l : RaftLog} (ok : l.WellFormed) {i j t t' : Nat}
    (available : l.firstIndex ≤ i + 1) (le : i ≤ j) (read : l.term i = .ok t)
    (read' : l.term j = .ok t')
    : t ≤ t' := by
  obtain ⟨c, shows⟩ := ok.exists_shows
  obtain ⟨_, rfl⟩ := shows.term_ok read
  obtain ⟨present, rfl⟩ := shows.term_ok read'
  clear read read'
  induction le with
  | refl => exact Nat.le_refl _
  | @step j le ih =>
      have le : i ≤ j := le
      have next := ok.terms j (by rw [shows.lastIndex]; exact present) (by omega)
      rw [shows.zeroTerm (by omega) (by omega), shows.zeroTerm (by omega) present] at next
      exact (ih (by omega)).trans next

theorem WellFormed.index_entry? {l : RaftLog} (ok : l.WellFormed) {i : Nat} {e : Entry}
    (found : l.entry? i = some e)
    : e.index = i := by
  unfold entry? at found
  split at found
  · obtain ⟨inside, rfl⟩ := List.getElem?_eq_some_iff.mp found
    rw [ok.unstable _ inside]
    omega
  split at found
  · cases found
  · rename_i stable available
    obtain ⟨inside, rfl⟩ := List.getElem?_eq_some_iff.mp found
    rw [ok.stored _ inside]
    cases pending : l.unstable.snapshot with
    | some s =>
        have := (ok.snapshot s pending).2
        simp only [RaftLog.firstIndex, Unstable.maybeFirstIndex, pending, Option.map_some,
          Option.getD_some] at available
        omega
    | none =>
        simp only [RaftLog.firstIndex, Unstable.maybeFirstIndex, pending, Option.map_none,
          Option.getD_none, MemoryStorage.firstIndex] at available
        omega

end RaftLog

/-- What follows an index in the log follows on the entry there. -/
theorem Shows.followOn {l : RaftLog} {c ents : List Entry} (shows : Shows l c)
    (ok : l.WellFormed)
    {i : Nat} (available : l.firstIndex ≤ i + 1) (part : ents <+: c.drop i)
    : FollowOn { term := termAt c i, index := i } ents := by
  induction ents generalizing i with
  | nil => trivial
  | cons e rest ih =>
      obtain ⟨tail, split⟩ := part
      have found : (c)[i]? = some e := by
        rw [← List.head?_drop, ← split]
        rfl
      have term := termAt_succ found
      have present := (List.getElem?_eq_some_iff.mp found).1
      have ordered := ok.terms i (by rw [shows.lastIndex]; exact present) available
      rw [shows.zeroTerm available (by omega), shows.zeroTerm (by omega) present, term] at ordered
      have index : e.index = i + 1 :=
        ok.index_entry? ((shows.entry? (.inl available)).trans found)
      refine ⟨ordered, index, ?_⟩
      rw [Entry.id, index, ← term]
      refine ih (by omega) ⟨tail, ?_⟩
      rw [← List.tail_drop, ← split]
      rfl

-----------------------------------------------------------------------------------------
-- The exchange
-----------------------------------------------------------------------------------------

/-- A leader that probes a follower, and its append that the follower has not yet
answered.
-/
structure Exchange where
  leader : Raft
  follower : Raft
  app : Message

namespace Exchange

/-- The follower handles the append and queues one answer. -/
structure Answers (x : Exchange) (follower : Raft) (resp : Message) : Prop where
  handled : x.follower.handleAppendEntries x.app = .ok follower
  queued : follower.msgsAfterAppend = x.follower.msgsAfterAppend ++ [resp]
  type : resp.type = .msgAppResp

/-- The rounds of an exchange up to an append that the follower accepts, which is anchored
at `p`. The appends before it are anchored after `p`; the follower rejects each of them,
and the leader handles the rejection, decreases `Next` and sends one append, anchored at
`Next - 1`.
-/
inductive Converges [Codec] (p : Nat) : Exchange → Prop where
  | accepted {x : Exchange} {follower : Raft} {resp : Message} (anchor : x.app.index = p)
    (answers : x.Answers follower resp) (accepts : resp.reject = false)
    (index : resp.index = p + x.app.entries.length)
    (entries : ∀ e ∈ x.app.entries, follower.raftLog.Contains e.id)
    : Converges p x
  | rejected {x y : Exchange} {resp : Message} {pr pr' : Progress} (above : p < x.app.index)
    (answers : x.Answers y.follower resp) (rejects : resp.reject = true)
    (handles : x.leader.stepLeader resp = .ok (y.leader, none))
    (before : x.leader.trk.progress.get? x.follower.id = some pr)
    (after : y.leader.trk.progress.get? x.follower.id = some pr')
    (decreases : pr'.next < pr.next)
    (sends : y.leader.msgs = x.leader.msgs ++ [y.app]) (type : y.app.type = .msgApp)
    (anchor : y.app.index = pr'.next - 1)
    (rest : Converges p y)
    : Converges p x

/-- The append in flight is one that the leader sends to a peer with this progress. -/
structure InFlight (x : Exchange) (pr : Progress) : Prop where
  index : x.app.index = pr.next - 1
  logTerm : x.leader.raftLog.term x.app.index = .ok x.app.logTerm
  entries : x.app.entries
    <+: x.leader.raftLog.entriesBetween pr.next (x.leader.raftLog.lastIndex + 1)

end Exchange

/-- Two logs agree at `p` and nowhere after it, have not been compacted beyond `p`, and
`f` has committed nothing after it.
-/
structure Diverge (l f : RaftLog) (p : Nat) : Prop where
  leader : l.WellFormed
  follower : f.WellFormed
  agree : ∃ t, l.term p = .ok t ∧ f.term p = .ok t
  last : ∀ i t, l.term i = .ok t → f.term i = .ok t → i ≤ p
  committed : f.committed ≤ p
  leaderFirst : l.firstIndex ≤ p + 1
  followerFirst : f.firstIndex ≤ p + 1

/-- The terms after `p` up to the end of the follower's log decide whether it is the last
index.
-/
theorem Diverge.of_zeroTerm {l f : RaftLog} {p t : Nat} (leader : l.WellFormed)
    (follower : f.WellFormed) (ours : l.term p = .ok t) (theirs : f.term p = .ok t)
    (differ : ∀ i ≤ f.lastIndex, p < i → l.zeroTerm i ≠ f.zeroTerm i)
    (committed : f.committed ≤ p) (leaderFirst : l.firstIndex ≤ p + 1)
    (followerFirst : f.firstIndex ≤ p + 1)
    : Diverge l f p where
  leader := leader
  follower := follower
  agree := ⟨t, ours, theirs⟩
  last := by
    intro i t' ours' theirs'
    obtain ⟨c, shows⟩ := follower.exists_shows
    have present := (shows.term_ok theirs').1
    by_contra later
    refine differ i (shows.lastIndex ▸ present) (Nat.lt_of_not_le later) ?_
    unfold RaftLog.zeroTerm
    rw [ours', theirs']
  committed := committed
  leaderFirst := leaderFirst
  followerFirst := followerFirst

/-- The peer is probed between `p` and the end of the leader's log; `Next` is a `uint64`.
-/
structure Progress.Probes (pr : Progress) (p last : Nat) : Prop where
  state : pr.state = .stateProbe
  matched : pr.match ≤ p
  ahead : p < pr.next
  within : pr.next ≤ last + 1
  fits : pr.next < 2 ^ 64

/-- The sender and the term that `send` fills in for a message with neither. -/
theorem Raft.stampTerm_eq (r : Raft) {m : Message} (sender : m.fromId = none64)
    (term : m.term = 0)
    (vote : isVoteMsg m.type = false) (kept : m.type ≠ .msgProp ∧ m.type ≠ .msgReadIndex)
    : r.stampTerm m = .ok { m with fromId := r.id, term := r.term } := by
  unfold Raft.stampTerm
  rw [if_pos sender]
  simp only [vote, Bool.false_eq_true, if_false, term, ne_eq, not_true_eq_false]
  rw [if_pos kept]
  rfl

/-- The append with these entries. -/
def Raft.appendMessage (r : Raft) (to_ next prevTerm : Nat) (ents : List Entry) : Message where
  type := .msgApp
  toId := to_
  fromId := r.id
  term := r.term
  index := next - 1
  logTerm := prevTerm
  entries := ents
  commit := r.raftLog.committed

theorem Raft.sendEntries_probe [Codec] (r : Raft) {id : Nat} {pr : Progress}
    (apart : id ≠ r.id)
    (state : pr.state = .stateProbe) (prevTerm : Nat) (ents : List Entry)
    : r.sendEntries id pr prevTerm true (.ok ents)
      = .ok ({ r with msgs := r.msgs ++ [r.appendMessage id pr.next prevTerm ents] }.setProgress id
          { pr with
            msgAppFlowPaused := decide (0 < ents.length) || pr.msgAppFlowPaused
            sentCommit := r.raftLog.committed }, true) := by
  have counted (bytes : Nat) : pr.sentEntries ents.length bytes
      = .ok { pr with
          msgAppFlowPaused := decide (0 < ents.length) || pr.msgAppFlowPaused } := by
    unfold Progress.sentEntries
    rw [state]
    by_cases some : 0 < ents.length <;> simp [some, ← state]
  unfold Raft.sendEntries Raft.send
  simp only [Bool.not_true, Bool.false_eq_true, and_false, if_false]
  rw [r.stampTerm_eq rfl rfl rfl (by simp)]
  simp only [except_ok_bind, isAfterAppend, Bool.false_eq_true, if_false, if_neg apart, counted,
    except_pure]
  rfl

/-- A leader that has sent an append to the peer, and the peer's progress after that. -/
structure Raft.Sent (r r' : Raft) (peer : Nat) (pr' : Progress)
    (app : Message) : Prop where
  msgs : r'.msgs = r.msgs ++ [app]
  type : app.type = .msgApp
  raftLog : r'.raftLog = r.raftLog
  id : r'.id = r.id
  tracked : r'.trk.progress.get? peer = some pr'

/-- The leader's append to a peer that it probes and that is not paused. -/
theorem Raft.sendAppend_probe [Codec] {r : Raft} {id p : Nat} {pr : Progress}
    (apart : id ≠ r.id) (ok : r.raftLog.WellFormed) (first : r.raftLog.firstIndex ≤ p + 1)
    (tracked : r.trk.progress.get? id = some pr)
    (probes : pr.Probes p r.raftLog.lastIndex) (free : pr.msgAppFlowPaused = false)
    : ∃ r' app pr', r.sendAppend id = .ok r' ∧ r.Sent r' id pr' app
      ∧ pr'.Probes p r.raftLog.lastIndex ∧ pr'.next = pr.next
      ∧ ∀ follower, Exchange.InFlight ⟨r', follower, app⟩ pr' := by
  obtain ⟨c, shows⟩ := ok.exists_shows
  obtain ⟨state, matched, ahead, within, fits⟩ := probes
  have last := shows.lastIndex
  have read := @Shows.term _ _ shows (pr.next - 1) (by omega) (by omega)
  obtain ⟨ents, page, part⟩ : ∃ ents, r.raftLog.entries pr.next r.maxMsgSize = .ok (.ok ents)
      ∧ ents <+: r.raftLog.entriesBetween pr.next (r.raftLog.lastIndex + 1) := by
    rw [shows.entriesBetween (by omega)]
    unfold RaftLog.entries
    rw [last]
    by_cases beyond : c.length < pr.next
    · exact ⟨[], if_pos beyond, List.nil_prefix⟩
    · rw [if_neg beyond]
      obtain ⟨ents, page, part, _⟩ := @Shows.slice _ _ _ shows pr.next (c.length + 1)
        r.maxMsgSize (by omega) (by omega) (Nat.le_refl _)
      exact ⟨ents, page, part⟩
  have sent : r.sendAppend id
      = (do
          let sent ← r.sendEntries id pr (termAt c (pr.next - 1)) true (.ok ents)
          return sent.1) := by
    unfold Raft.sendAppend Raft.maybeSendAppend
    simp [tracked, Progress.isPaused, state, free, read, page]
  rw [r.sendEntries_probe apart state] at sent
  exact ⟨_, _, _, sent, ⟨rfl, rfl, rfl, rfl, (IdMap.get?_insert _ _ _ _).trans (if_pos rfl)⟩,
    ⟨state, matched, ahead, within, fits⟩, rfl, fun _ => ⟨rfl, read, part⟩⟩

-----------------------------------------------------------------------------------------
-- A round
-----------------------------------------------------------------------------------------

/-- The index at which the leader probes next, before `MaybeDecrTo`. -/
def RaftLog.nextProbe (l : RaftLog) (rejectHint logTerm : Nat) : Nat :=
  if logTerm > 0 then (l.findConflictByTerm rejectHint logTerm).1 else rejectHint

theorem RaftLog.nextProbe_le (l : RaftLog) (rejectHint logTerm : Nat)
    : l.nextProbe rejectHint logTerm ≤ rejectHint := by
  unfold nextProbe
  split
  · exact l.findConflictByTerm_le _ _
  · exact Nat.le_refl _

namespace Diverge

variable {l f : RaftLog} {p : Nat}

/-- Neither of the two searches skips the last common index. -/
theorem le_nextProbe (diverge : Diverge l f p) {i t : Nat} (read : l.term i = .ok t)
    (above : p ≤ i)
    : let hint := f.findConflictByTerm (min i f.lastIndex) t
      p ≤ l.nextProbe hint.1 hint.2 := by
  intro hint
  obtain ⟨tp, ours, theirs⟩ := diverge.agree
  have low : tp ≤ t := diverge.leader.term_mono diverge.leaderFirst above ours read
  have inside : p ≤ f.lastIndex := by
    obtain ⟨c, shows⟩ := diverge.follower.exists_shows
    rw [shows.lastIndex]
    exact (shows.term_ok theirs).1
  have hinted : p ≤ hint.1 :=
    RaftLog.le_findConflictByTerm theirs low (Nat.le_min.mpr ⟨above, inside⟩)
  unfold RaftLog.nextProbe
  split
  · rename_i known
    have hintTerm := RaftLog.term_findConflictByTerm known
    exact RaftLog.le_findConflictByTerm ours
      (diverge.follower.term_mono diverge.followerFirst hinted theirs hintTerm) hinted
  · exact hinted

end Diverge

/-- A rejection after the last common index moves `Next` back, but not before that index.
-/
theorem Progress.Probes.maybeDecrTo {pr : Progress} {p last hint : Nat}
    (probes : pr.Probes p last)
    (above : p < pr.next - 1) (hinted : p ≤ hint) (known : hint < pr.next)
    : ∃ pr', pr.maybeDecrTo (pr.next - 1) hint = (pr', true) ∧ pr'.Probes p last
      ∧ pr'.next < pr.next ∧ pr'.msgAppFlowPaused = false := by
  obtain ⟨state, matched, ahead, within, fits⟩ := probes
  unfold Progress.maybeDecrTo
  rw [if_neg (by rw [state]; decide), if_neg (by simp), add64_of_lt (by omega)]
  refine ⟨_, rfl, ⟨state, matched, ?_, ?_, ?_⟩, ?_, rfl⟩
  all_goals simp only; omega

namespace Exchange

variable {x : Exchange} {pr : Progress} {p : Nat}

/-- The follower's log has the entry before the append just if that is the common one. -/
theorem InFlight.contains_iff (flight : x.InFlight pr)
    (diverge : Diverge x.leader.raftLog x.follower.raftLog p) (above : p ≤ x.app.index)
    : x.follower.raftLog.Contains (Raft.logSliceFromMsgApp x.app).prev
      ↔ x.app.index = p := by
  obtain ⟨c, shows⟩ := diverge.follower.exists_shows
  rw [← shows.matchTerm_iff_contains]
  unfold RaftLog.matchTerm
  simp only [Raft.logSliceFromMsgApp]
  constructor
  · intro holds
    cases theirs : x.follower.raftLog.term x.app.index with
    | error err => simp [theirs] at holds
    | ok t =>
        simp only [theirs, beq_iff_eq] at holds
        subst holds
        exact Nat.le_antisymm (diverge.last _ _ flight.logTerm theirs) above
  · intro here
    obtain ⟨t, ours, theirs⟩ := diverge.agree
    rw [← here] at ours theirs
    cases flight.logTerm.symm.trans ours
    simp [theirs]

theorem InFlight.followOn (flight : x.InFlight pr)
    (diverge : Diverge x.leader.raftLog x.follower.raftLog p) {last : Nat}
    (probes : pr.Probes p last)
    : FollowOn (Raft.logSliceFromMsgApp x.app).prev x.app.entries := by
  obtain ⟨c, shows⟩ := diverge.leader.exists_shows
  have first := diverge.leaderFirst
  have ahead := probes.ahead
  have index := flight.index
  obtain ⟨_, term⟩ := shows.term_ok flight.logTerm
  have part := flight.entries
  rw [shows.entriesBetween (by omega)] at part
  unfold Raft.logSliceFromMsgApp
  rw [term, index]
  exact shows.followOn diverge.leader (by omega) (part.trans (List.take_prefix _ _))

/-- What `maybeAppend` makes of the append: its entries come after the last common index,
which is not before the committed one.
-/
theorem InFlight.maybeAppend (flight : x.InFlight pr)
    (diverge : Diverge x.leader.raftLog x.follower.raftLog p) {last : Nat}
    (probes : pr.Probes p last) (above : p ≤ x.app.index)
    : let l := x.follower.raftLog
      let a := Raft.logSliceFromMsgApp x.app
      (x.app.index ≠ p → l.maybeAppend a x.app.commit = .ok (l, none))
      ∧ (x.app.index = p
        → ∃ l', l.maybeAppend a x.app.commit
            = .ok (l', some (x.app.index + x.app.entries.length))
          ∧ Takes l l' a x.app.commit) := by
  intro l a
  have follow := flight.followOn diverge probes
  have compatible : ∀ e ∈ x.app.entries, e.index ≤ l.committed
      → ∀ e', l.entry? e.index = some e' → e'.term = e.term := by
    intro e member early
    obtain ⟨j, found⟩ := List.getElem?_of_mem member
    have index : e.index = x.app.index + j + 1 := follow.index found
    have committed : l.committed ≤ p := diverge.committed
    omega
  obtain ⟨missing, taken⟩ :=
    diverge.follower.maybeAppend_followOn follow compatible x.app.commit
  have here := flight.contains_iff diverge above
  exact ⟨fun other => missing (mt here.mp other), fun same => taken (here.mpr same)⟩

/-- The append anchored at the last common index is accepted. -/
theorem InFlight.accepted [Codec] (flight : x.InFlight pr)
    (diverge : Diverge x.leader.raftLog x.follower.raftLog p) {last : Nat}
    (probes : pr.Probes p last) (here : x.app.index = p)
    : x.Converges p := by
  have committed := diverge.committed
  obtain ⟨l', taken, takes⟩ := (flight.maybeAppend diverge probes here.ge).2 here
  have handled : x.follower.handleAppendEntries x.app
      = { x.follower with raftLog := l' }.send {
          type := .msgAppResp
          toId := x.app.fromId
          index := x.app.index + x.app.entries.length } := by
    unfold Raft.handleAppendEntries
    rw [if_neg (by simp only [Raft.logSliceFromMsgApp]; omega), taken]
    rfl
  unfold Raft.send at handled
  rw [Raft.stampTerm_eq _ rfl rfl rfl (by simp)] at handled
  exact .accepted here ⟨handled, rfl, rfl⟩ rfl (by rw [here]) takes.entries

/-- The follower's rejection: it has not changed its log, and tells where to probe. -/
structure Rejects (x : Exchange) (follower : Raft) (resp : Message) : Prop where
  answers : x.Answers follower resp
  reject : resp.reject = true
  fromId : resp.fromId = x.follower.id
  index : resp.index = x.app.index
  hint : (resp.rejectHint, resp.logTerm) = x.follower.raftLog.findConflictByTerm
    (min x.app.index x.follower.raftLog.lastIndex) x.app.logTerm
  raftLog : follower.raftLog = x.follower.raftLog
  id : follower.id = x.follower.id

/-- An append anchored after the last common index is rejected. -/
theorem InFlight.rejects (flight : x.InFlight pr)
    (diverge : Diverge x.leader.raftLog x.follower.raftLog p) {last : Nat}
    (probes : pr.Probes p last) (above : p < x.app.index)
    : ∃ follower resp, x.Rejects follower resp := by
  have committed := diverge.committed
  have refused := (flight.maybeAppend diverge probes above.le).1 above.ne'
  let hint := x.follower.raftLog.findConflictByTerm
    (min x.app.index x.follower.raftLog.lastIndex) x.app.logTerm
  have handled : x.follower.handleAppendEntries x.app
      = x.follower.send {
          type := .msgAppResp
          toId := x.app.fromId
          index := x.app.index
          reject := true
          rejectHint := hint.1
          logTerm := hint.2 } := by
    unfold Raft.handleAppendEntries
    rw [if_neg (by simp only [Raft.logSliceFromMsgApp]; omega), refused]
    rfl
  unfold Raft.send at handled
  rw [Raft.stampTerm_eq _ rfl rfl rfl (by simp)] at handled
  exact ⟨_, _, ⟨handled, rfl, rfl⟩, rfl, rfl, rfl, rfl, rfl, rfl⟩

/-- The leader handles a rejection: it decreases `Next` and sends an append from there. -/
theorem Rejects.continues [Codec] {follower : Raft} {resp : Message}
    (rejects : x.Rejects follower resp) (flight : x.InFlight pr)
    (diverge : Diverge x.leader.raftLog x.follower.raftLog p)
    (apart : x.follower.id ≠ x.leader.id)
    (tracked : x.leader.trk.progress.get? x.follower.id = some pr)
    (probes : pr.Probes p x.leader.raftLog.lastIndex) (above : p < x.app.index)
    : ∃ leader app pr', x.leader.stepLeader resp = .ok (leader, none)
      ∧ x.leader.Sent leader x.follower.id pr' app ∧ pr'.Probes p x.leader.raftLog.lastIndex
      ∧ pr'.next < pr.next ∧ Exchange.InFlight ⟨leader, follower, app⟩ pr' := by
  let active := { pr with recentActive := true }
  have low : p ≤ x.leader.raftLog.nextProbe resp.rejectHint resp.logTerm := by
    have := diverge.le_nextProbe flight.logTerm above.le
    rwa [← rejects.hint] at this
  have known : x.leader.raftLog.nextProbe resp.rejectHint resp.logTerm < pr.next := by
    have ahead := probes.ahead
    have index := flight.index
    have leader := x.leader.raftLog.nextProbe_le resp.rejectHint resp.logTerm
    have follower := x.follower.raftLog.findConflictByTerm_le
      (min x.app.index x.follower.raftLog.lastIndex) x.app.logTerm
    have hint : resp.rejectHint = _ := congrArg Prod.fst rejects.hint
    omega
  obtain ⟨pr', decreased, probes', less, free⟩ := @Progress.Probes.maybeDecrTo active p _ _
    ⟨probes.state, probes.matched, probes.ahead, probes.within, probes.fits⟩
    (flight.index ▸ above) low known
  let moved := (x.leader.setProgress x.follower.id active).setProgress x.follower.id pr'
  obtain ⟨leader, app, pr'', sent, effect, probes'', same, flight'⟩ :=
    @Raft.sendAppend_probe _ moved x.follower.id p pr' apart diverge.leader diverge.leaderFirst
      (by simp [moved, Raft.setProgress]) probes' free
  refine ⟨leader, app, pr'', ?_,
    ⟨effect.msgs, effect.type, effect.raftLog, effect.id, effect.tracked⟩, probes'',
    same ▸ less, flight' follower⟩
  have handled : (x.leader.setProgress x.follower.id active).stepLeaderAppReject resp active
      = moved.sendAppend x.follower.id := by
    unfold RaftLog.nextProbe at decreased
    unfold Raft.stepLeaderAppReject
    simp only [rejects.index, flight.index, rejects.fromId, Raft.setProgress, active] at decreased ⊢
    rw [decreased]
    simp [probes'.state, moved, active, Raft.setProgress]
  unfold Raft.stepLeader Raft.stepLeaderPeer Raft.stepLeaderAppResp
  simp only [rejects.answers.type, rejects.fromId, tracked, rejects.reject, if_true]
  rw [handled, sent]
  rfl

/-- Strong induction on `Next`: each rejection decreases it. -/
theorem InFlight.converges [Codec] (flight : x.InFlight pr)
    (diverge : Diverge x.leader.raftLog x.follower.raftLog p)
    (apart : x.follower.id ≠ x.leader.id)
    (tracked : x.leader.trk.progress.get? x.follower.id = some pr)
    (probes : pr.Probes p x.leader.raftLog.lastIndex)
    : x.Converges p := by
  induction next : pr.next using Nat.strongRecOn generalizing x pr with
  | ind n ih =>
      subst next
      have ahead := probes.ahead
      have index := flight.index
      by_cases here : x.app.index = p
      · exact flight.accepted diverge probes here
      · have above : p < x.app.index := by omega
        obtain ⟨follower, resp, rejects⟩ := flight.rejects diverge probes above
        obtain ⟨leader, app, pr', handles, sent, probes', decreases, flight'⟩ :=
          rejects.continues flight diverge apart tracked probes above
        have tracked' : leader.trk.progress.get? follower.id = some pr' :=
          rejects.id ▸ sent.tracked
        refine .rejected above rejects.answers rejects.reject handles tracked sent.tracked decreases
          sent.msgs sent.type flight'.index (ih _ decreases flight' ?_ ?_ tracked' ?_ rfl)
        · show Diverge leader.raftLog follower.raftLog p
          rw [sent.raftLog, rejects.raftLog]
          exact diverge
        · show follower.id ≠ leader.id
          rw [rejects.id, sent.id]
          exact apart
        · show pr'.Probes p leader.raftLog.lastIndex
          rw [sent.raftLog]
          exact probes'

end Exchange

/-- A leader whose log has diverged from the follower's finds the last common index `p`.
The follower is probed with `Match ≤ p < Next`; the leader sends an append at `Next - 1`,
or has sent it already.
-/
theorem probing_converges [Codec] {leader follower : Raft} {pr : Progress} {p : Nat}
    (apart : follower.id ≠ leader.id)
    (diverge : Diverge leader.raftLog follower.raftLog p)
    (tracked : leader.trk.progress.get? follower.id = some pr)
    (probes : pr.Probes p leader.raftLog.lastIndex)
    : (pr.msgAppFlowPaused = false → ∃ leader' app, leader.sendAppend follower.id = .ok leader'
        ∧ leader'.msgs = leader.msgs ++ [app] ∧ app.type = .msgApp ∧ app.index = pr.next - 1
        ∧ Exchange.Converges p ⟨leader', follower, app⟩)
      ∧ ∀ app, Exchange.InFlight ⟨leader, follower, app⟩ pr
        → Exchange.Converges p ⟨leader, follower, app⟩ := by
  refine ⟨fun free => ?_, fun app flight => flight.converges diverge apart tracked probes⟩
  obtain ⟨leader', app, pr', sends, sent, probes', same, flight⟩ :=
    Raft.sendAppend_probe apart diverge.leader diverge.leaderFirst tracked probes free
  refine ⟨leader', app, sends, sent.msgs, sent.type, same ▸ (flight follower).index,
    (flight follower).converges ?_ ?_ sent.tracked ?_⟩
  · show Diverge leader'.raftLog follower.raftLog p
    rw [sent.raftLog]
    exact diverge
  · show follower.id ≠ leader'.id
    rw [sent.id]
    exact apart
  · show pr'.Probes p leader'.raftLog.lastIndex
    rw [sent.raftLog]
    exact probes'

-----------------------------------------------------------------------------------------
-- The logs of the comment in `stepLeader`
-----------------------------------------------------------------------------------------

/-- A node whose stored log has entries of these terms. -/
def nodeWithTerms (id : Nat) (terms : List Nat) (committed : Nat) (progress : ProgressMap)
    : Raft where
  id := id
  raftLog := {
    storage := { ents := terms.mapIdx fun i t => { term := t, index := i + 1 } }
    unstable := { offset := terms.length + 1, offsetInProgress := terms.length + 1 }
    committed := committed
    applying := 0
    applied := 0
    maxApplyingEntsSize := noLimit
    logical := {} }
  maxMsgSize := noLimit
  maxUncommittedSize := noLimit
  trk := { progress := progress, maxInflight := 256, maxInflightBytes := 0 }
  disableConfChangeValidation := false
  readOnly := { option := .readOnlySafe }
  checkQuorum := false
  preVote := false
  heartbeatTimeout := 1
  electionTimeout := 10
  disableProposalForwarding := false
  stepDownOnRemoval := false
  rand := []

attribute [local instance] Codec.wire

/-- The first probe is at index 9 and is rejected, with a hint at index 6 of term 2; the
next one is at index 1.
-/
theorem probing_converges_terms
    : let pr : Progress := { next := 10, inflights := { size := 256, maxBytes := 0 } }
      let leader := nodeWithTerms 1 [1, 3, 3, 3, 5, 5, 5, 5, 5] 1 (IdMap.empty.insert 2 pr)
      let follower := nodeWithTerms 2 [1, 1, 1, 1, 2, 2] 1 .empty
      ∃ leader' app, leader.sendAppend 2 = .ok leader' ∧ app.index = 9
        ∧ Exchange.Converges 1 ⟨leader', follower, app⟩ := by
  intro pr leader follower
  have diverge : Diverge leader.raftLog follower.raftLog 1 :=
    .of_zeroTerm (by decide) (by decide) (t := 1) rfl rfl (by decide) (by decide) (by decide)
      (by decide)
  obtain ⟨leader', app, sends, _, _, index, converges⟩ := (@probing_converges _ leader follower pr 1
    (by decide) diverge rfl ⟨rfl, by decide, by decide, by decide, by decide⟩).1 rfl
  exact ⟨leader', app, sends, index, converges⟩

end EtcdRaft
