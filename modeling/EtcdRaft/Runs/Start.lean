import EtcdRaft.Refinement.Followers
import EtcdRaft.Refinement.Keeps

/-! The node that `newRaft` starts from its storage. -/

namespace EtcdRaft

/-- The log of a node that starts: nothing is unstable, and what the hard state and
`Config.Applied` say lies within the stored log.
-/
structure StartedLog (c : Config) (l : RaftLog) : Prop where
  storage : l.storage = c.storage
  unstable : l.unstable = {
    offset := c.storage.lastIndex + 1
    offsetInProgress := c.storage.lastIndex + 1 }
  logical : l.logical = {
    base := c.storage.dummy.index
    baseTerm := c.storage.dummy.term
    entries := c.storage.ents }
  committed : l.committed = if isEmptyHardState c.storage.hardState then c.storage.dummy.index
    else c.storage.hardState.commit
  within : l.committed ≤ c.storage.lastIndex
  applied : l.applied = if c.applied = 0 then c.storage.dummy.index else c.applied
  applying : l.applying = l.applied
  available : c.storage.dummy.index ≤ l.applied
  appliedCommitted : l.applied ≤ l.committed
  limit : l.maxApplyingEntsSize = c.withDefaults.maxCommittedSizePerReady
  size : l.applyingEntsSize = 0
  paused : l.applyingEntsPaused = true → l.maxApplyingEntsSize = 0

/-- The node that starts with the configuration `c`. -/
structure Started (c : Config) (r : Raft) : Prop where
  id : r.id = c.id
  named : c.id ≠ none64
  remote : isLocalMsgTarget c.id = false
  term : r.term = c.storage.hardState.term
  vote : r.vote = c.storage.hardState.vote
  state : r.state = .stateFollower
  log : StartedLog c r.raftLog
  msgs : r.msgs = []
  msgsAfterAppend : r.msgsAfterAppend = []
  config : ∃ chg progress, chg.tracker.config = {} ∧ chg.tracker.progress = .empty
    ∧ restoreConf chg (c.confState.getD c.storage.snapshot.metadata.confState)
      = .ok (r.trk.config, progress)
    ∧ ∀ id, (r.trk.progress.get? id).map Progress.isLearner
      = (progress.get? id).map Progress.isLearner
  equivalent : (c.confState.getD c.storage.snapshot.metadata.confState).equivalent
    r.trk.config.confState = true
  votes : r.trk.votes = .empty
  pendingConfIndex : r.pendingConfIndex = 0
  validation : r.disableConfChangeValidation = c.disableConfChangeValidation
  preVote : r.preVote = c.preVote
  readOnly : r.readOnly = newReadOnly c.readOnlyOption
  readStates : r.readStates = []
  pendingReads : r.pendingReadIndexMessages = []

/-- The core of a node before its last step, which makes it a follower. -/
def startCore (c : Config) (cfg : TrackerConfig) (progress : ProgressMap) (l : RaftLog) : Core where
  id := c.id
  term := c.storage.hardState.term
  vote := c.storage.hardState.vote
  state := .stateFollower
  raftLog := l
  msgs := []
  msgsAfterAppend := []
  config := cfg
  progress := progressOf progress
  votes := .empty
  pendingConfIndex := 0
  validation := !c.disableConfChangeValidation
  preVote := c.preVote
  readOnly := newReadOnly c.readOnlyOption
  readStates := []
  pendingReads := []

theorem Started.of_core {c : Config} {r : Raft} {cfg : TrackerConfig}
    {progress : ProgressMap}
    {l : RaftLog} (named : c.id ≠ none64) (remote : isLocalMsgTarget c.id = false)
    (log : StartedLog c l)
    (restored : ∃ chg : Changer, chg.tracker.config = {} ∧ chg.tracker.progress = .empty
      ∧ restoreConf chg (c.confState.getD c.storage.snapshot.metadata.confState)
        = .ok (cfg, progress))
    (equivalent : (c.confState.getD c.storage.snapshot.metadata.confState).equivalent
      cfg.confState = true)
    (core : r.core = { (startCore c cfg progress l).reset c.storage.hardState.term with
      state := .stateFollower })
    : Started c r := by
  have raftLog : r.raftLog = l := congrArg Core.raftLog core
  have config : r.trk.config = cfg := congrArg Core.config core
  obtain ⟨chg, blank, empty, restored⟩ := restored
  exact {
    id := congrArg Core.id core
    named := named
    remote := remote
    term := congrArg Core.term core
    vote := (congrArg Core.vote core).trans (if_pos rfl)
    state := congrArg Core.state core
    log := raftLog ▸ log
    msgs := congrArg Core.msgs core
    msgsAfterAppend := congrArg Core.msgsAfterAppend core
    config := by
      refine ⟨chg, progress, blank, empty, config ▸ restored, fun id => ?_⟩
      have same : progressOf r.trk.progress id = _ :=
        congrFun (congrArg Core.progress core) id
      have same := congrArg (Option.map Prod.snd) same
      simpa [progressOf, startCore, Core.reset, Option.map_map, Function.comp_def] using same
    equivalent := config ▸ equivalent
    votes := congrArg Core.votes core
    pendingConfIndex := congrArg Core.pendingConfIndex core
    validation := by
      have same : (!r.disableConfChangeValidation) = !c.disableConfChangeValidation :=
        congrArg Core.validation core
      simpa using same
    preVote := congrArg Core.preVote core
    readOnly := congrArg Core.readOnly core
    readStates := congrArg Core.readStates core
    pendingReads := congrArg Core.pendingReads core }

namespace Raft

theorem ends_validate (c : Config)
    : Ends c.validate
        (fun c' => c' = c.withDefaults ∧ c.id ≠ none64 ∧ isLocalMsgTarget c.id = false) Sane := by
  unfold Config.validate
  refine Ends.ite (fun _ => rfl) fun named => ?_
  refine Ends.ite (fun _ => rfl) fun remote => ?_
  refine Ends.ite (fun _ => rfl) fun _ => ?_
  refine Ends.ite (fun _ => rfl) fun _ => ?_
  refine Ends.ite (fun _ => rfl) fun _ => ?_
  refine Ends.ite (fun _ => rfl) fun _ => ?_
  exact Ends.ite (fun _ => rfl) fun _ => ⟨rfl, named, Bool.eq_false_iff.mpr remote⟩

/-- The log with the commit index of the hard state. -/
theorem ends_loadHardState (r : Raft) (hs : HardState) (zero : r.term = 0 ∧ r.vote = 0)
    (within : r.raftLog.committed ≤ r.raftLog.lastIndex)
    : Ends (r.loadHardState hs)
        (fun r' => ∃ k, k = (if isEmptyHardState hs then r.raftLog.committed else hs.commit)
          ∧ r.raftLog.committed ≤ k ∧ k ≤ r.raftLog.lastIndex
          ∧ r' = { r with
            raftLog := { r.raftLog with committed := k }, term := hs.term, vote := hs.vote })
        Sane := by
  unfold loadHardState
  refine Ends.ite (fun empty => ?_) fun nonempty => ?_
  · have empty' : hs = {} := by simpa [isEmptyHardState] using empty
    refine Ends.pure ⟨r.raftLog.committed, by rw [if_pos empty], Nat.le_refl _, within, ?_⟩
    obtain ⟨term, vote⟩ := zero
    rw [empty']
    cases r
    simp_all
  · unfold loadState
    refine Ends.ite (fun _ => rfl) fun range => ?_
    simp only [not_or, Nat.not_lt, gt_iff_lt] at range
    exact Ends.pure ⟨hs.commit, by rw [if_neg nonempty], range.1, range.2, rfl⟩

/-- The log `l'` is `l` with the applied index of the configuration. -/
structure LoadedLog (applied : Nat) (l l' : RaftLog) : Prop where
  storage : l'.storage = l.storage
  unstable : l'.unstable = l.unstable
  logical : l'.logical = l.logical
  committed : l'.committed = l.committed
  applied : l'.applied = if applied = 0 then l.applied else applied
  applying : l'.applying = l'.applied
  available : l.applied ≤ l'.applied
  appliedCommitted : l'.applied ≤ l'.committed
  limit : l'.maxApplyingEntsSize = l.maxApplyingEntsSize
  size : l'.applyingEntsSize = 0
  paused : l'.applyingEntsPaused = true → l'.maxApplyingEntsSize = 0

theorem ends_loadApplied (r : Raft) (applied : Nat)
    (start : r.raftLog.applying = r.raftLog.applied)
    (committed : r.raftLog.applied ≤ r.raftLog.committed)
    (idle : r.raftLog.applyingEntsSize = 0)
    (running : r.raftLog.applyingEntsPaused = false)
    : Ends (r.loadApplied applied)
        (fun r' => ∃ l, r' = { r with raftLog := l } ∧ LoadedLog applied r.raftLog l) Sane := by
  unfold loadApplied
  refine Ends.ite (fun positive => ?_) fun zero => ?_
  · refine Ends.bind (q := LoadedLog applied r.raftLog) ?_
      fun l loaded => Ends.pure ⟨l, rfl, loaded⟩
    refine Ends.of_eq (fun l applies => ?_) fun p => (RaftLog.sane_appliedTo _ _ _).failure
    obtain ⟨inside, later, _⟩ := appliedTo_ok applies
    rw [RaftLog.appliedTo_eq applies]
    exact {
      storage := rfl
      unstable := rfl
      logical := rfl
      committed := rfl
      applied := (if_neg (Nat.ne_of_gt positive)).symm
      applying := Nat.max_eq_right (start ▸ later)
      available := later
      appliedCommitted := inside
      limit := rfl
      size := by rw [idle]
      paused := by
        intro paused
        rw [idle] at paused
        exact Nat.le_zero.mp (of_decide_eq_true paused) }
  · have zero : applied = 0 := by omega
    exact Ends.pure ⟨r.raftLog, rfl, {
      storage := rfl
      unstable := rfl
      logical := rfl
      committed := rfl
      applied := (if_pos zero).symm
      applying := start
      available := Nat.le_refl _
      appliedCommitted := committed
      limit := rfl
      size := idle
      paused := by
        rw [running]
        nofun }⟩

theorem newLogWithSize_lastIndex (ms : MemoryStorage) (size : Nat)
    : (newLogWithSize ms size).lastIndex = ms.lastIndex := by
  simp [RaftLog.lastIndex, newLogWithSize, Unstable.maybeLastIndex]

variable [Codec]

/-- What `newRaft` starts, unless it fails without finding a corrupt log. -/
theorem ends_newRaft (c : Config) : Ends (newRaft c) (Started c) Sane := by
  unfold newRaft
  refine Ends.bind (ends_validate c) ?_
  rintro _ ⟨rfl, named, remote⟩
  refine Ends.bind (RaftLog.sane_lastEntryID _) fun lastID _ => ?_
  refine Ends.bind ((ends_orPanic _).mono (fun _ h => h) fun _ => Benign.sane)
    fun res restored => ?_
  obtain ⟨cfg, progress⟩ := res
  dsimp only
  rw [switchToConfig_follower rfl, except_ok_bind]
  refine Ends.bind (q := fun _ =>
    (c.confState.getD c.storage.snapshot.metadata.confState).equivalent cfg.confState = true)
    (Ends.ite (fun same => same) fun _ => rfl) fun _ equivalent => ?_
  have last : (newLogWithSize c.withDefaults.storage
      c.withDefaults.maxCommittedSizePerReady).lastIndex = c.storage.lastIndex :=
    newLogWithSize_lastIndex _ _
  refine Ends.bind (ends_loadHardState _ _ ⟨rfl, rfl⟩ ?_) ?_
  · show c.storage.dummy.index ≤ RaftLog.lastIndex (newLogWithSize _ _)
    rw [last]
    exact Nat.le_add_right _ _
  rintro _ ⟨k, committed, later, within, rfl⟩
  have within : k ≤ c.storage.lastIndex := last ▸ within
  refine Ends.bind (ends_loadApplied _ _ rfl later rfl rfl) ?_
  rintro _ ⟨l, rfl, loaded⟩
  refine Ends.pure ?_
  have log : StartedLog c l := { loaded with
    committed := loaded.committed.trans committed
    within := loaded.committed ▸ within }
  exact .of_core named remote log ⟨_, rfl, rfl, restored⟩ equivalent (core_becomeFollower _ _ _)

end Raft

/-- What `NewRawNode` starts, unless it fails without finding a corrupt log. -/
theorem ends_newRawNode [Codec] (c : Config)
    : Ends (newRawNode c)
        (fun rn => Started c rn.raft ∧ rn.asyncStorageWrites = c.asyncStorageWrites
          ∧ rn.prevHardSt = rn.raft.hardState ∧ rn.prevSoftSt = rn.raft.softState
          ∧ rn.stepsOnAdvance = [])
        Sane :=
  Ends.bind (Raft.ends_newRaft c) fun _ started => ⟨started, rfl, rfl, rfl, rfl⟩

end EtcdRaft
