import EtcdRaft.Foundation.Outcome
import EtcdRaft.Model.Step
import Mathlib.Logic.Relation

/-! The books of a leader: its log, what it knows about its peers, the quota of
uncommitted entries and the reads that wait for its first commit. They change by small
duties; `heard` are the messages that the leader handles meanwhile.
-/

namespace EtcdRaft

theorem Progress.maybeUpdate_state (pr : Progress) (n : Nat)
    : (pr.maybeUpdate n).1.state = pr.state := by
  unfold maybeUpdate
  split <;> rfl

-----------------------------------------------------------------------------------------
-- Books
-----------------------------------------------------------------------------------------

structure Books where
  id : Nat
  term : Nat
  state : StateType
  raftLog : RaftLog
  config : TrackerConfig
  progress : ProgressMap
  maxInflight : Nat
  maxInflightBytes : Nat
  uncommittedSize : Nat
  parked : List Message

def Raft.books (r : Raft) : Books where
  id := r.id
  term := r.term
  state := r.state
  raftLog := r.raftLog
  config := r.trk.config
  progress := r.trk.progress
  maxInflight := r.trk.maxInflight
  maxInflightBytes := r.trk.maxInflightBytes
  uncommittedSize := r.uncommittedSize
  parked := r.pendingReadIndexMessages

theorem Raft.get?_setProgress (r : Raft) (id : Nat) (pr : Progress)
    : (r.setProgress id pr).trk.progress.get? id = some pr := by
  show (r.trk.progress.insert id pr).get? id = some pr
  rw [IdMap.get?_insert, if_pos rfl]

namespace Books

/-- The index that a quorum has acknowledged. -/
def committedIndex (b : Books) : Nat :=
  b.config.voters.committedIndex fun id => (b.progress.get? id).map Progress.match

/-- `committedEntryInCurrentTerm`. -/
def current (b : Books) : Bool := b.raftLog.zeroTerm b.raftLog.committed == b.term

/-- Entries as `appendEntry` stamps them. -/
def stamped (b : Books) (es : List Entry) : List Entry :=
  es.mapIdx fun i e => { e with term := b.term, index := b.raftLog.lastIndex + 1 + i }

def setProgress (b : Books) (id : Nat) (pr : Progress) : Books :=
  { b with progress := b.progress.insert id pr }

/-- The progress of a peer at the beginning of a term. -/
def blankProgress (b : Books) (id : Nat) (pr : Progress) : Progress where
  «match» := if id = b.id then b.raftLog.lastIndex else 0
  next := b.raftLog.lastIndex + 1
  inflights := newInflights b.maxInflight b.maxInflightBytes
  isLearner := pr.isLearner

/-- The books of a candidate that takes over, where `own` is its own progress. -/
def takenOver (b : Books) (own : Progress) : Books :=
  { b with
    state := .stateLeader
    progress := (b.progress.mapValues b.blankProgress).insert b.id
      { (b.blankProgress b.id own).becomeReplicate with recentActive := true }
    uncommittedSize := 0 }

/-- The peers are in the states `states`, and may be streamed to. -/
structure Within (b : Books) (states : ProgressState → Prop) : Prop where
  peers : ∀ id pr, b.progress.get? id = some pr → states pr.state
  replicate : states .stateReplicate

theorem within_all (b : Books) : b.Within fun _ => True := ⟨fun _ _ _ => trivial, trivial⟩

theorem Within.setProgress {b : Books} {states : ProgressState → Prop} {id : Nat}
    {pr : Progress} (within : b.Within states) (state : states pr.state)
    : (b.setProgress id pr).Within states := by
  refine ⟨fun key pr' found => ?_, within.replicate⟩
  have found : (b.progress.insert id pr).get? key = some pr' := found
  rw [IdMap.get?_insert] at found
  split at found
  · cases found
    exact state
  · exact within.peers key pr' found

-----------------------------------------------------------------------------------------
-- Duties
-----------------------------------------------------------------------------------------

variable [Codec]

/-- What a leader does with the progress of the peer `id`. Heartbeats are sent only to
peers in the states `beats`.
-/
inductive Tends (heard : Message → Prop) (beats : ProgressState → Prop) (b : Books)
    (id : Nat) (pr : Progress)
    : Progress → Prop where
  | active : Tends heard beats b id pr { pr with recentActive := true }
  | resume : Tends heard beats b id pr { pr with recentActive := true, msgAppFlowPaused := false }
  | send {prevTerm : Nat} {ents : List Entry} {pr' : Progress} (awake : pr.isPaused = false)
      (prev : b.raftLog.term (pr.next - 1) = .ok prevTerm)
      (read : ents = [] ∨ ((pr.state ≠ .stateReplicate ∨ pr.inflights.full = false)
        ∧ ∃ maxSize, b.raftLog.entries pr.next maxSize = .ok (.ok ents)))
      (sent : pr.sentEntries ents.length (payloadsSize ents) = .ok pr')
    : Tends heard beats b id pr (pr'.setSentCommit b.raftLog.committed)
  | snapshot (awake : pr.isPaused = false) (active : pr.recentActive = true)
      (missing : (∃ err, b.raftLog.term (pr.next - 1) = .error err)
        ∨ ∃ maxSize err, b.raftLog.entries pr.next maxSize = .ok (.error err))
    : Tends heard beats b id pr (pr.becomeSnapshot b.raftLog.snapshot.metadata.index)
  | heartbeat (may : beats pr.state)
    : Tends heard beats b id pr (pr.setSentCommit (min pr.match b.raftLog.committed))
  | ack {m : Message} {r : Raft} {pr' : Progress} (hears : heard m) (type : m.type = .msgAppResp)
      (sender : m.fromId = id) (accepts : m.reject = false)
      (news : pr.match < m.index ∨ (pr.match = m.index ∧ pr.state = .stateProbe))
      (log : r.raftLog = b.raftLog)
      (after : r.progressAfterAck m (pr.maybeUpdate m.index).1 = .ok pr')
    : Tends heard beats b id pr pr'
  | reject {m : Message} {hint : Nat} {pr' : Progress} (hears : heard m)
      (type : m.type = .msgAppResp) (sender : m.fromId = id) (rejects : m.reject = true)
      (decreased : pr.maybeDecrTo m.index hint = (pr', true))
    : Tends heard beats b id pr (if pr'.state = .stateReplicate then pr'.becomeProbe else pr')
  | snapStatus {m : Message} (hears : heard m) (type : m.type = .msgSnapStatus)
      (sender : m.fromId = id) (waits : pr.state = .stateSnapshot)
    : Tends heard beats b id pr { (if m.reject then { pr with pendingSnapshot := 0 }.becomeProbe
        else pr.becomeProbe) with msgAppFlowPaused := true }
  | unreachable {m : Message} (hears : heard m) (type : m.type = .msgUnreachable)
      (sender : m.fromId = id) (replicates : pr.state = .stateReplicate)
    : Tends heard beats b id pr pr.becomeProbe

theorem Tends.mono {heard heard' : Message → Prop} {beats beats' : ProgressState → Prop}
    {b : Books} {id : Nat} {pr pr' : Progress} (tends : b.Tends heard beats id pr pr')
    (hears : ∀ m, heard m → heard' m) (may : ∀ state, beats state → beats' state)
    : b.Tends heard' beats' id pr pr' := by
  cases tends with
  | active => exact .active
  | resume => exact .resume
  | send awake prev read sent => exact .send awake prev read sent
  | snapshot awake active missing => exact .snapshot awake active missing
  | heartbeat beats => exact .heartbeat (may _ beats)
  | ack heard type sender accepts news log after =>
      exact .ack (hears _ heard) type sender accepts news log after
  | reject heard type sender rejects decreased =>
      exact .reject (hears _ heard) type sender rejects decreased
  | snapStatus heard type sender waits =>
      exact .snapStatus (hears _ heard) type sender waits
  | unreachable heard type sender replicates =>
      exact .unreachable (hears _ heard) type sender replicates

/-- A small change of the books. Where `changes` holds, the configuration has just been
changed.
-/
inductive Duty (heard : Message → Prop) (beats : ProgressState → Prop) (changes : Prop)
    (b : Books)
    : Books → Prop where
  | tend {id : Nat} {pr pr' : Progress} (found : b.progress.get? id = some pr)
      (tends : b.Tends heard beats id pr pr')
    : Duty heard beats changes b (b.setProgress id pr')
  | inactive : Duty heard beats changes b { b with
      progress := b.progress.mapValues fun id pr =>
        if id ≠ b.id then { pr with recentActive := false } else pr }
  | append (es : List Entry) {raftLog : RaftLog}
      (appends : b.raftLog.append (b.stamped es) = .ok raftLog)
    : Duty heard beats changes b { b with
        raftLog := raftLog
        uncommittedSize := b.uncommittedSize + payloadsSize (b.stamped es) }
  | commit {raftLog : RaftLog}
      (commits : b.raftLog.maybeCommit { term := b.term, index := b.committedIndex }
        = .ok (raftLog, true))
    : Duty heard beats changes b { b with
        raftLog := raftLog
        parked := if { b with raftLog := raftLog }.current then [] else b.parked }
  | park {m : Message} (hears : heard m) (type : m.type = .msgReadIndex)
      (early : b.current = false)
    : Duty heard beats changes b { b with parked := b.parked ++ [m] }
  | commitOnChange (may : changes) {raftLog : RaftLog}
      (commits : b.raftLog.maybeCommit { term := b.term, index := b.committedIndex }
        = .ok (raftLog, true))
    : Duty heard beats changes b { b with raftLog := raftLog }
  | stepDown {b' : Books} (follows : b'.state ≠ .stateLeader) : Duty heard beats changes b b'

end Books

/-- The books change by a sequence of duties. -/
def Raft.Duties [Codec] (heard : Message → Prop) (beats : ProgressState → Prop) (changes : Prop)
    (r r' : Raft) : Prop :=
  Relation.ReflTransGen (Books.Duty heard beats changes) r.books r'.books

namespace Raft.Duties

variable [Codec] {heard : Message → Prop} {beats : ProgressState → Prop} {changes : Prop}
  {r r' : Raft}

theorem refl (r : Raft) : r.Duties heard beats changes r := Relation.ReflTransGen.refl

theorem of_books (same : r'.books = r.books) : r.Duties heard beats changes r' := by
  unfold Duties
  rw [same]

theorem single (duty : Books.Duty heard beats changes r.books r'.books)
    : r.Duties heard beats changes r' :=
  Relation.ReflTransGen.single duty

theorem trans {r₁ r₂ r₃ : Raft} (first : r₁.Duties heard beats changes r₂)
    (second : r₂.Duties heard beats changes r₃)
    : r₁.Duties heard beats changes r₃ :=
  Relation.ReflTransGen.trans first second

theorem tend {id : Nat} {pr pr' : Progress} (found : r.trk.progress.get? id = some pr)
    (tends : r.books.Tends heard beats id pr pr')
    : r.Duties heard beats changes (r.setProgress id pr') :=
  single (.tend found tends)

end Raft.Duties

instance [Codec] (heard : Message → Prop) (beats : ProgressState → Prop) (changes : Prop)
    : IsTrans Raft (Raft.Duties heard beats changes) :=
  ⟨fun _ _ _ => Raft.Duties.trans⟩

end EtcdRaft
