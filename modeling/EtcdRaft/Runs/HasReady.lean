import EtcdRaft.Runs.ApplyBudget
import EtcdRaft.Runs.BetweenReadies
import EtcdRaft.Runs.Configurations
import EtcdRaft.Runs.HardState

/-! `HasReady` stays true until the application takes the `Ready`. What makes it true is
handed out with the `Ready`, or something else takes its place.
-/

namespace EtcdRaft

-----------------------------------------------------------------------------------------
-- A change of the log is not silent
-----------------------------------------------------------------------------------------

theorem HardState.Advances.antisymm {st st' : HardState} (first : st.Advances st')
    (second : st'.Advances st)
    : st' = st := by
  have term : st'.term = st.term := Nat.le_antisymm second.term first.term
  have commit : st'.commit = st.commit := Nat.le_antisymm second.commit first.commit
  have vote : st'.vote = st.vote := by
    rcases first.vote term with same | ⟨unset, chosen⟩
    · exact same
    · rcases second.vote term.symm with same | ⟨unset', _⟩
      · exact same.symm
      · exact absurd unset' chosen
  cases st
  cases st'
  simp_all

/-- Nothing comes before a hard state that is not set. -/
theorem HardState.Advances.eq_of_empty {st st' : HardState} (advances : st.Advances st')
    (empty : isEmptyHardState st' = true)
    : st' = st := by
  have empty : st' = {} := by simpa [isEmptyHardState] using empty
  subst empty
  refine advances.antisymm ⟨Nat.zero_le _, Nat.zero_le _, fun term => ?_⟩
  rcases advances.vote term.symm with same | ⟨unset, chosen⟩
  · exact .inl same.symm
  · exact absurd rfl chosen

namespace Core

/-- How much waits for the next `Ready`. -/
def noise (c : Core) : Nat := c.msgs.length + c.msgsAfterAppend.length + c.readStates.length

/-- When the log changes, there is something to send, or the hard state changes too. -/
structure Tells (c c' : Core) : Prop where
  noise : c.noise ≤ c'.noise
  hardState : c.hardState.Advances c'.hardState
  log : c'.noise = c.noise → c'.hardState = c.hardState → c'.raftLog = c.raftLog

namespace Tells

variable {c c₁ c₂ c' : Core}

theorem refl (c : Core) : c.Tells c := ⟨Nat.le_refl _, .refl _, fun _ _ => rfl⟩

theorem trans (first : c.Tells c₁) (second : c₁.Tells c₂) : c.Tells c₂ where
  noise := first.noise.trans second.noise
  hardState := first.hardState.trans second.hardState
  log := by
    intro noise hardState
    have noise₁ := first.noise
    have noise₂ := second.noise
    have middle : c₁.hardState = c.hardState :=
      first.hardState.antisymm (hardState ▸ second.hardState)
    exact (second.log (by omega) (hardState.trans middle.symm)).trans
      (first.log (by omega) middle)

/-- The log is the same. -/
theorem of_log (noise : c.noise ≤ c'.noise)
    (hardState : c.hardState.Advances c'.hardState) (same : c'.raftLog = c.raftLog)
    : c.Tells c' :=
  ⟨noise, hardState, fun _ _ => same⟩

/-- There is something to send. -/
theorem of_noise (noise : c.noise < c'.noise)
    (hardState : c.hardState.Advances c'.hardState)
    : c.Tells c' :=
  ⟨noise.le, hardState, fun same => absurd same noise.ne'⟩

end Tells

theorem noise_send (c : Core) (new : List Message)
    : noise { c with msgs := c.msgs ++ new } = c.noise + new.length := by
  simp only [noise, List.length_append]
  omega

theorem noise_answered (c : Core) (states : List ReadState) (msgs : List Message)
    : (c.answered states msgs).noise = c.noise + states.length + msgs.length := by
  simp only [noise, answered, List.length_append]
  omega

theorem noise_answer (c : Core) (m : Message) : (c.answer m).noise = c.noise + 1 := by
  simp only [noise, answer, List.length_append, List.length_singleton]
  omega

end Core

section

variable [Codec] {now : Nat} {m : Message} {c c' : Core}

theorem Act.tells (act : Act now m c c') (remote : m.type.isStored = false)
    : c.Tells c' := by
  have advances := act.advances
  have committed : ∀ {l : RaftLog} {k : Nat}, c.raftLog.commitTo k = .ok l
      → l.committed = c.raftLog.committed → l = c.raftLog := by
    intro l k commits same
    rw [RaftLog.commitTo_ok commits] at same ⊢
    rw [show max c.raftLog.committed k = c.raftLog.committed from same]
  cases act with
  | send sent may => exact .of_log (c.noise_send _ ▸ Nat.le_add_right _ _) advances rfl
  | answer sent may => exact .of_noise (c.noise_answer _ ▸ Nat.lt_succ_self _) advances
  | grant => exact .of_noise (c.noise_answer _ ▸ Nat.lt_succ_self _) advances
  | commit leads raftLog commits =>
      refine ⟨Nat.le_refl _, advances, fun _ hardState => ?_⟩
      have same : raftLog.committed = c.raftLog.committed :=
        congrArg HardState.commit hardState
      unfold RaftLog.maybeCommit at commits
      split at commits
      · obtain ⟨l, moved, eq⟩ := except_bind_eq_ok.mp commits
        cases eq
        exact committed moved same
      · cases commits
  | accept =>
      exact .of_noise (by rw [Core.noise_answer]; exact Nat.lt_succ_self _) advances
  | ackCommitted => exact .of_noise (c.noise_answer _ ▸ Nat.lt_succ_self _) advances
  | heartbeat type follower term raftLog commits =>
      have louder := c.noise_send [c.heartbeatResp m]
      exact .of_noise (Nat.lt_of_lt_of_eq (Nat.lt_succ_self _) louder.symm) advances
  | fastForward type follower term newer holds raftLog commits =>
      exact ⟨Nat.le_refl _, advances, fun _ hardState =>
        committed commits (congrArg HardState.commit hardState)⟩
  | restore =>
      exact .of_noise (by rw [Core.noise_answer]; exact Nat.lt_succ_self _) advances
  | stored type => rw [type] at remote; cases remote
  | applied type => rw [type] at remote; cases remote
  | confirm type leads term safe acked acks readOnly reads moves states msgs answers =>
      refine .of_log ?_ advances rfl
      rw [Core.noise_answered]
      exact Nat.le_trans (Nat.le_add_right _ _) (Nat.le_add_right _ _)
  | answerAtOnce leads allowed states msgs answers =>
      refine .of_log ?_ advances rfl
      rw [Core.noise_answered]
      exact Nat.le_trans (Nat.le_add_right _ _) (Nat.le_add_right _ _)
  | received type rs =>
      refine .of_log ?_ advances rfl
      simp only [Core.noise, List.length_append]
      omega
  | _ => exact .of_log (Nat.le_refl _) advances rfl

theorem Steps.tells (steps : Steps now m c c') (remote : m.type.isStored = false)
    : c.Tells c' := by
  obtain ⟨c₁, acts, rest⟩ := steps
  have acted : c.Tells c₁ := by
    clear rest
    induction acts with
    | refl => exact .refl _
    | tail _ act ih => exact ih.trans (act.tells remote)
  rcases rest with rfl | ⟨c₂, appends, new, rfl, _⟩
  · exact acted
  · obtain ⟨leads, es, nonempty, index, proposal, source, raftLog, appends⟩ := appends
    refine acted.trans (.of_noise ?_ ⟨Nat.le_refl _, ?_, fun _ => .inl rfl⟩)
    · rw [Core.noise_send]
      refine Nat.lt_of_lt_of_le ?_ (Nat.le_add_right _ _)
      unfold Core.appended
      rw [Core.noise_answer]
      exact Nat.lt_succ_self _
    · exact (Keeps.append appends).committed

end

-----------------------------------------------------------------------------------------
-- A log with nothing to hand out
-----------------------------------------------------------------------------------------

/-- Nothing of the log is to be written or applied. -/
structure RaftLog.Rests (l : RaftLog) (allowUnstable : Bool) : Prop where
  snapshot : l.hasNextUnstableSnapshot = false
  entries : l.hasNextUnstableEnts = false
  committed : l.hasNextCommittedEnts allowUnstable = false

theorem RawNode.hasReady_eq_false {rn : RawNode}
    : rn.hasReady = false ↔ rn.raft.softState = rn.prevSoftSt
      ∧ (isEmptyHardState rn.raft.hardState = true ∨ rn.raft.hardState = rn.prevHardSt)
      ∧ rn.raft.noise = 0 ∧ rn.raft.raftLog.Rests rn.applyUnstableEntries := by
  have noise : rn.raft.noise = 0 ↔ rn.raft.msgs.length = 0 ∧ rn.raft.msgsAfterAppend.length = 0
      ∧ rn.raft.readStates.length = 0 := by
    unfold Raft.noise
    omega
  have rests : rn.raft.raftLog.Rests rn.applyUnstableEntries
      ↔ rn.raft.raftLog.hasNextUnstableSnapshot = false
        ∧ rn.raft.raftLog.hasNextUnstableEnts = false
        ∧ rn.raft.raftLog.hasNextCommittedEnts rn.applyUnstableEntries = false :=
    ⟨fun ok => ⟨ok.1, ok.2, ok.3⟩, fun ⟨a, b, c⟩ => ⟨a, b, c⟩⟩
  rw [noise, rests]
  unfold RawNode.hasReady
  simp only [Bool.or_eq_false_iff, Bool.and_eq_false_iff, Bool.not_eq_false', bne_eq_false_iff_eq,
    decide_eq_false_iff_not, Nat.not_lt, Nat.le_zero]
  tauto

/-- A log that runs, and of which nothing is pending, has no committed entries to apply
either, if more of it can be applied later and not even then there are any.
-/
theorem RaftLog.hasNextCommittedEnts_of_later {l l' : RaftLog} {allowUnstable : Bool}
    (running : l.applyingEntsPaused = false → l'.applyingEntsPaused = false)
    (snapshot : l.unstable.snapshot = none → l'.unstable.snapshot = none)
    (applying : l.unstable.snapshot = none → l'.applying = l.applying)
    (later : l.maxAppliableIndex allowUnstable ≤ l'.maxAppliableIndex allowUnstable)
    (nothing : l'.hasNextCommittedEnts allowUnstable = false)
    : l.hasNextCommittedEnts allowUnstable = false := by
  unfold hasNextCommittedEnts at nothing ⊢
  split
  · rfl
  · rename_i runs
    split
    · rfl
    · rename_i settled
      have none : l.unstable.snapshot = none := by simpa [hasNextOrInProgressSnapshot] using settled
      have settled' : l'.hasNextOrInProgressSnapshot = false := by
        simp [hasNextOrInProgressSnapshot, snapshot none]
      rw [running (Bool.eq_false_iff.mpr runs), settled', applying none] at nothing
      simp only [Bool.false_eq_true, ↓reduceIte, decide_eq_false_iff_not] at nothing ⊢
      omega

section

variable {L : Nat → List Entry} {async : Bool} {p : Pipeline} {l l' : RaftLog}
  {m : Message}
  {rest : List Message} {current : Bool}

/-- The first answer of the append thread does not make entries stable that are not handed
out.
-/
theorem Pipe.stored_offsets (pipe : Pipe L async p l) (first : p.done = m :: rest)
    (term : current = true → m.term = p.term) (stores : l.stored current m = .ok l')
    : l'.unstable.offsetInProgress = l.unstable.offsetInProgress
      ∧ l.unstable.offset ≤ l'.unstable.offset := by
  have stable : ∀ l₁, l₁ = (if current = true ∧ m.index ≠ 0 then
        l.stableTo { term := m.logTerm, index := m.index } else l)
      → l₁.unstable.offsetInProgress = l.unstable.offsetInProgress
        ∧ l.unstable.offset ≤ l₁.unstable.offset := by
    rintro l₁ rfl
    split
    · rename_i asked
      rcases pipe.stableTo_cases (m := m) with same | ⟨unstable, present, same, moved⟩
      · rw [RaftLog.stableTo, same]
        exact ⟨rfl, Nat.le_refl _⟩
      · have entries :=
          (pipe.resps.done m (first ▸ List.mem_cons_self)).entries (term asked.1) asked.2
        rw [← same] at entries
        rcases entries with held | ⟨diverges, leader⟩
        · have handed := held.handed
          rw [List.length_take, Nat.min_eq_left present] at handed
          rw [RaftLog.stableTo, moved]
          exact ⟨Nat.max_eq_left handed, unstable.trans (Nat.le_succ _)⟩
        · exact absurd ((List.take_prefix _ _).trans leader) diverges.1
    · exact ⟨rfl, Nat.le_refl _⟩
  unfold RaftLog.stored at stores
  generalize (if current = true ∧ m.index ≠ 0 then
    l.stableTo { term := m.logTerm, index := m.index } else l) = l₁ at stable stores
  obtain ⟨handed, offset⟩ := stable l₁ rfl
  cases carries : m.snapshot with
  | none =>
      rw [carries] at stores
      cases stores
      exact ⟨handed, offset⟩
  | some s =>
      rw [carries] at stores
      rw [RaftLog.appliedTo_eq stores]
      rcases Unstable.stableSnapTo_cases l₁.unstable s.metadata.index with same | ⟨none, _⟩
      · rw [RaftLog.stableSnapTo, same]
        exact ⟨handed, offset⟩
      · rw [RaftLog.stableSnapTo, none]
        exact ⟨handed, offset⟩

/-- The first answer of the append thread hides nothing that is still to be handed out. -/
theorem Piped.rests_of_stored {term : Nat} {allowUnstable : Bool}
    (piped : Piped L async p term l)
    (first : p.done = m :: rest) (now : current = true → m.term = term)
    (stores : l.stored current m = .ok l')
    (room : l.applyingEntsPaused = false → l.applyingEntsSize < l.maxApplyingEntsSize)
    (rests : l'.Rests allowUnstable)
    : l.Rests allowUnstable := by
  have kept := RaftLog.stored_ok stores
  have pipe' := (piped.stored first now stores).pipe
  obtain ⟨handed, offset⟩ := piped.pipe.stored_offsets first (piped.term ▸ now) stores
  have inResps : m ∈ p.resps := List.mem_append_left _ (first ▸ List.mem_cons_self)
  have pending := piped.pipe.resps.pending m inResps
  have plain : l.unstable.snapshot = none → m.snapshot = none := by
    intro none
    cases carries : m.snapshot with
    | none => rfl
    | some s =>
        obtain ⟨sn, some, _⟩ := pending s carries
        cases none.symm.trans some
  refine ⟨?_, ?_, ?_⟩
  · have snapshot := rests.snapshot
    unfold RaftLog.hasNextUnstableSnapshot Unstable.nextSnapshot at snapshot ⊢
    rcases kept.snapshot with ⟨same, inProgress⟩ | ⟨_, s, sn, carries, some, same⟩
    · rwa [same, inProgress] at snapshot
    · obtain ⟨sn', some', order⟩ := pending s carries
      cases some.symm.trans some'
      rcases order with older | ⟨_, handedOut⟩
      · omega
      · rw [handedOut]
        rfl
  · have entries := rests.entries
    unfold RaftLog.hasNextUnstableEnts at entries ⊢
    rw [pipe'.unstable.nextEntries, handed] at entries
    rw [piped.pipe.unstable.nextEntries]
    exact entries
  · refine RaftLog.hasNextCommittedEnts_of_later ?_ ?_ ?_ ?_ rests.committed
    · intro running
      rcases kept.paused with same | anew
      · rw [same, running]
      · rw [anew]
        exact decide_eq_false (Nat.not_le.mpr (room running))
    · intro none
      rcases kept.snapshot with ⟨same, _⟩ | ⟨cleared, _⟩
      · rw [same, none]
      · exact cleared
    · intro none
      rw [kept.applying, plain none]
    · unfold RaftLog.maxAppliableIndex
      rw [kept.committed]
      split
      · exact Nat.le_refl _
      · omega

/-- Nor does an answer of the apply thread. -/
theorem RaftLog.rests_of_applied {allowUnstable : Bool} {i size : Nat}
    (inside : i ≤ l.applying) (applies : l.appliedTo i size = .ok l')
    (room : l.applyingEntsPaused = false → l.applyingEntsSize < l.maxApplyingEntsSize)
    (rests : l'.Rests allowUnstable)
    : l.Rests allowUnstable := by
  rw [RaftLog.appliedTo_eq applies] at rests
  refine ⟨rests.snapshot, rests.entries,
    RaftLog.hasNextCommittedEnts_of_later ?_ ?_ ?_ ?_ rests.committed⟩
  · intro running
    have room := room running
    exact decide_eq_false (by omega)
  · exact fun none => none
  · exact fun _ => Nat.max_eq_left inside
  · exact Nat.le_refl _

end

-----------------------------------------------------------------------------------------
-- The node and what it has reported
-----------------------------------------------------------------------------------------

/-- The hard state is never behind the reported one. Unless there is something to send or
a new hard state to report, the soft state is the reported one, or the node has silently
lost its leader.
-/
structure RawNode.Reported (rn : RawNode) : Prop where
  hardState : rn.prevHardSt.Advances rn.raft.hardState
  softState : rn.raft.noise = 0 → rn.raft.hardState = rn.prevHardSt
    → rn.raft.softState = rn.prevSoftSt ∨ rn.raft.softState = Raft.idle

namespace RawNode.Reported

variable {rn : RawNode} {r : Raft} {l : RaftLog} {steps : List Message}

/-- The node changes its log to `l`, and then as every step does. -/
theorem still (ok : rn.Reported) (drifts : rn.raft.Drifts r)
    (committed : l.committed = rn.raft.raftLog.committed)
    (tells : Core.Tells { rn.raft.core with raftLog := l } r.core) (quiet : r.noise = 0)
    (same : r.hardState = rn.prevHardSt)
    : rn.raft.noise = 0 ∧ rn.raft.hardState = rn.prevHardSt ∧ r.raftLog = l
      ∧ (r.softState = rn.raft.softState ∨ r.softState = Raft.idle) := by
  have before : Core.hardState { rn.raft.core with raftLog := l } = rn.raft.hardState := by
    unfold Core.hardState
    dsimp only
    rw [committed]
    rfl
  have advances : rn.raft.hardState.Advances r.hardState := before ▸ tells.hardState
  have noise : rn.raft.noise = 0 := Nat.le_zero.mp (quiet ▸ drifts.noise)
  have hardState : rn.raft.hardState = rn.prevHardSt :=
    ok.hardState.antisymm (same ▸ advances)
  have unchanged : r.hardState = rn.raft.hardState := same.trans hardState.symm
  refine ⟨noise, hardState, tells.log (quiet.trans noise.symm) (unchanged.trans before.symm), ?_⟩
  rcases drifts.soft with louder | later | soft
  · omega
  · have term : r.term = rn.raft.term := congrArg HardState.term unchanged
    omega
  · exact soft

theorem step (ok : rn.Reported) (drifts : rn.raft.Drifts r)
    (committed : l.committed = rn.raft.raftLog.committed)
    (tells : Core.Tells { rn.raft.core with raftLog := l } r.core)
    : Reported { rn with raft := r, stepsOnAdvance := steps } where
  hardState := by
    refine ok.hardState.trans ?_
    have advances := tells.hardState
    unfold Core.hardState at advances
    dsimp only at advances
    rw [committed] at advances
    exact advances
  softState := by
    intro quiet same
    obtain ⟨noise, hardState, _, soft⟩ := ok.still drifts committed tells quiet same
    rcases soft with unchanged | idle
    · rw [show Raft.softState _ = rn.raft.softState from unchanged]
      exact ok.softState noise hardState
    · exact .inr idle

/-- Such a step does not hide that there is something to report. -/
theorem hasReady (ok : rn.Reported) (drifts : rn.raft.Drifts r)
    (committed : l.committed = rn.raft.raftLog.committed)
    (tells : Core.Tells { rn.raft.core with raftLog := l } r.core)
    (rests : l.Rests rn.applyUnstableEntries → rn.raft.raftLog.Rests rn.applyUnstableEntries)
    (nothing : RawNode.hasReady { rn with raft := r, stepsOnAdvance := steps } = false)
    : rn.hasReady = false := by
  have after : Reported { rn with raft := r, stepsOnAdvance := steps } :=
    ok.step drifts committed tells
  obtain ⟨soft, hard, quiet, log⟩ := RawNode.hasReady_eq_false.mp nothing
  have same : r.hardState = rn.prevHardSt := hard.elim after.hardState.eq_of_empty id
  obtain ⟨noise, hardState, raftLog, soft'⟩ := ok.still drifts committed tells quiet same
  have log : l.Rests rn.applyUnstableEntries := raftLog ▸ log
  refine RawNode.hasReady_eq_false.mpr ⟨?_, .inr hardState, noise, rests log⟩
  have soft : r.softState = rn.prevSoftSt := soft
  rcases soft' with unchanged | idle
  · exact unchanged.symm.trans soft
  · rcases ok.softState noise hardState with before | before
    · exact before
    · exact before.trans (idle.symm.trans soft)

end RawNode.Reported

section

variable [Codec]

theorem RawNode.Taken.reported {rn rn' : RawNode} {rd : Ready} (taken : rn.Taken rn' rd)
    (ok : rn.Reported)
    : rn'.Reported := by
  have accepted : ∀ {committed : List Entry} {append : Option StorageMessage} {raftLog : RaftLog}
      {steps : List Message}, rn.handedOutLog committed = .ok raftLog
      → (rn.accepted (rn.readyOf committed append) steps raftLog).Reported := by
    intro committed append raftLog steps accepts
    have commit := (handedOutLog_ok accepts).2.2.1
    have hardState : (rn.accepted (rn.readyOf committed append) steps raftLog).raft.hardState
        = rn.raft.hardState := by
      unfold RawNode.accepted Raft.hardState
      dsimp only
      rw [commit]
    have reported : (rn.accepted (rn.readyOf committed append) steps raftLog).prevHardSt
        = rn.raft.hardState := by
      unfold RawNode.accepted RawNode.readyOf
      dsimp only
      by_cases same : rn.raft.hardState = rn.prevHardSt
      · rw [if_pos same, same]
        rfl
      · rw [if_neg same]
        cases empty : isEmptyHardState rn.raft.hardState with
        | true => exact absurd (ok.hardState.eq_of_empty empty) same
        | false => exact if_neg nofun
    refine ⟨?_, fun _ _ => .inl ?_⟩
    · rw [hardState, reported]
      exact .refl _
    · unfold RawNode.accepted RawNode.readyOf
      dsimp only
      by_cases same : rn.raft.softState = rn.prevSoftSt
      · rw [if_pos same]
        exact same
      · rw [if_neg same]
        rfl
  cases taken with
  | sync mode fresh appliable answers accepts => exact accepted accepts
  | async mode appliable request accepts => exact accepted accepts

theorem Raft.Called.drifts {r r' : Raft} {m : Message} {changes : Prop}
    (called : r.Called changes m r')
    (termed : m.type.termed = true → m.term ≠ 0) (voters : r.HasVoters)
    : r.Drifts r' := by
  cases called with
  | step steps => exact (r.drifting_step m termed voters).result steps
  | tick ticks => exact (r.drifting_tick voters).result ticks
  | applyConfChange applied => exact (r.drifting_applyConfChange _).result applied

theorem Raft.Called.tells {r r' : Raft} {m : Message} {changes : Prop}
    (called : r.Called changes m r')
    (termed : m.type.termed = true → m.term ≠ 0) (remote : m.type.isStored = false)
    : r.core.Tells r'.core := by
  obtain ⟨now, cfg, progress, steps⟩ := called.exists_steps termed
  have tells := steps.tells remote
  exact ⟨tells.noise, tells.hardState, tells.log⟩

/-- What every input does to a node in order: `Reported` is kept, and an input that takes
no `Ready` does not hide that there is one.
-/
theorem Host.Turns.reported {L : Nat → List Entry} {d : Version} {takes changes : Prop}
    {async : Bool} {arrives : Message → Prop} {p : Pipeline} {limit : Nat} {h h' : Host}
    {rn rn' : RawNode}
    (turns : Turns takes changes async arrives h rn h' rn')
    (sound : EtcdRaft.Sound L d async p h rn)
    (budget : Budget limit rn.raft.raftLog (h.applyResps rn)) (placed : rn.raft.Placed)
    (ok : rn.Reported)
    : rn'.Reported ∧ (¬takes → rn'.hasReady = false → rn.hasReady = false) := by
  have voters := placed.hasVoters
  have room : rn.raft.raftLog.applyingEntsPaused = false
      → rn.raft.raftLog.applyingEntsSize < rn.raft.raftLog.maxApplyingEntsSize :=
    budget.bound.symm ▸ budget.room
  cases turns with
  | rest => exact ⟨ok, fun _ nothing => nothing⟩
  | call called remote termed source writes appended applied own =>
      have drifts := called.drifts termed voters
      have tells := called.tells termed remote
      exact ⟨ok.step drifts rfl tells, fun _ => ok.hasReady drifts rfl tells id⟩
  | answerAppend answer handled popped writes applied =>
      have drifts := (Raft.called_step handled).drifts (fun _ => answer.term) voters
      obtain ⟨rest, first, _⟩ := sound.done_of_pops answer popped
      have older := (sound.piped.pipe.resps.done _ (first ▸ List.mem_cons_self)).term.1
      rw [sound.piped.term] at older
      obtain ⟨current, l, now, stores, steps⟩ :=
        Raft.step_stored answer.type answer.term older handled
      have tells := steps.tells rfl
      have committed := (RaftLog.stored_ok stores).committed
      exact ⟨ok.step drifts committed tells, fun _ => ok.hasReady drifts committed tells
        (sound.piped.rests_of_stored first now stores room)⟩
  | @answerApply m r err steps answer handled popped writes appended applied =>
      have drifts := (Raft.called_step handled).drifts (by rw [answer.type]; nofun) voters
      rcases Raft.step_applied answer.type answer.term handled with
        ⟨same, _⟩ | ⟨e, l, last, applies, steps⟩
      · have tells : Core.Tells rn.raft.core r.core := same ▸ .refl _
        exact ⟨ok.step drifts rfl tells, fun _ => ok.hasReady drifts rfl tells id⟩
      · have tells := steps.tells rfl
        have committed : l.committed = rn.raft.raftLog.committed := by
          rw [RaftLog.appliedTo_eq applies]
        have handedOut := sound.applyResps m (applied ▸ List.mem_cons_self) e last
        have inside := Nat.max_le.mpr ⟨handedOut, sound.piped.pipe.index.applied⟩
        exact ⟨ok.step drifts committed tells, fun _ => ok.hasReady drifts committed tells
          (RaftLog.rests_of_applied inside applies room)⟩
  | ready taken writes appended applied may =>
      exact ⟨taken.reported ok, fun never => absurd may never⟩
  | persist => exact ⟨⟨ok.hardState, ok.softState⟩, fun _ nothing => nothing⟩
  | createSnapshot => exact ⟨⟨ok.hardState, ok.softState⟩, fun _ nothing => nothing⟩
  | compact => exact ⟨⟨ok.hardState, ok.softState⟩, fun _ nothing => nothing⟩

-----------------------------------------------------------------------------------------
-- Lifetimes
-----------------------------------------------------------------------------------------

/-- A running node in order. -/
structure RawNode.Fit (L : Nat → List Entry) (d : Version) (async : Bool) (limit : Nat)
    (h : Host)
    (rn : RawNode) : Prop where
  sound : ∃ p, Sound L d async p h rn
  budget : Budget limit rn.raft.raftLog (h.applyResps rn)
  placed : rn.raft.Placed
  reported : rn.Reported

/-- A host in order. -/
structure Host.Fit (L : Nat → List Entry) (d : Version) (async : Bool) (limit : Nat)
    (h : Host)
    : Prop where
  termed : h.Termed
  separate : h.Separate async
  node : ∀ rn, h.node = some rn → rn.Fit L d async limit h

namespace Host.Fit

variable {L : Nat → List Entry} {d : Version} {async : Bool} {limit : Nat} {h : Host}
  {σ : Setup}
  {id : Nat} {i : Input}

/-- Every input leaves the host in order. -/
theorem input (ok : h.Fit L d async limit) (logs : ∀ t, Matched L (L t))
    (positive : 0 < limit) (admitted : h.Admits L σ id i)
    : (h.input σ id i).1.Fit L d async limit := by
  obtain ⟨source, leads⟩ := admitted
  have network := source.network
  have isPublic : ∀ m, i = .receive m → m.Public := fun m arrived => (network m arrived).1
  have goes := @Host.goes _ σ id h i source.steady
  refine ⟨ok.termed.goes isPublic goes, ok.separate.goes goes, fun rn' node' => ?_⟩
  obtain ⟨rn, node, turns⟩ := goes.turns ok.termed ok.separate isPublic node' (fun _ => trivial)
    fun _ => trivial
  obtain ⟨⟨p, sound⟩, budget, placed, reported⟩ := ok.node rn node
  exact ⟨sound.turns logs (ok.termed.core rn node) (ok.separate.mode rn node)
    (fun m arrived => (network m arrived).2) (leads rn' node') turns, budget.turns positive turns,
    turns.placed placed, (turns.reported sound budget placed reported).1⟩

/-- An input that takes no `Ready` leaves `HasReady` true. -/
theorem hasReady {rn' : RawNode} (ok : h.Fit L d async limit) (source : i.OfLeader L)
    (other : i ≠ .event .ready) (node' : (h.input σ id i).1.node = some rn')
    : ∃ rn, h.node = some rn ∧ (rn.hasReady = true → rn'.hasReady = true) := by
  have isPublic : ∀ m, i = .receive m → m.Public :=
    fun m arrived => (source.network m arrived).1
  obtain ⟨rn, node, turns⟩ :=
    turns_input source.steady other ok.termed ok.separate isPublic node'
  obtain ⟨⟨p, sound⟩, budget, placed, reported⟩ := ok.node rn node
  refine ⟨rn, node, fun ready => ?_⟩
  cases later : rn'.hasReady with
  | true => rfl
  | false =>
      rw [(turns.reported sound budget placed reported).2 (fun never => never) later] at ready
      cases ready

/-- So does a change of the configuration. -/
theorem hasReady_applyConfChange {rn rn' : RawNode} {cc : ConfChangeV2} {cs : ConfState}
    (ok : h.Fit L d async limit) (node : h.node = some rn)
    (applied : rn.applyConfChange cc = .ok (rn', cs)) (ready : rn.hasReady = true)
    : rn'.hasReady = true := by
  obtain ⟨_, _, placed, reported⟩ := ok.node rn node
  obtain ⟨⟨r, cs'⟩, changed, eq⟩ := except_bind_eq_ok.mp applied
  cases eq
  have called : rn.raft.Called True { type := .msgHup } r :=
    .applyConfChange changed trivial
  cases later : RawNode.hasReady { rn with raft := r } with
  | true => rfl
  | false =>
      have before := reported.hasReady (called.drifts nofun placed.hasVoters) rfl
        (called.tells nofun rfl) id later
      rw [before] at ready
      cases ready

end Host.Fit

namespace Launch

variable {L : Nat → List Entry} {x : Launch} {limit : Nat} {d : List Entry}

/-- The host is in order at the start. -/
theorem fit_host (prepared : x.Prepared L) (stored : Stored x.disk d)
    (matched : Matched L d)
    (positive : 0 < limit) (same : x.config.withDefaults.maxCommittedSizePerReady = limit)
    : x.host.Fit L ⟨x.disk.hardState.term, d⟩ x.setup.asyncStorageWrites limit := by
  refine ⟨x.host_ok.1, x.host_ok.2, fun rn node => ?_⟩
  have up := up_of_node node
  refine ⟨up.sound prepared stored matched, up.budget positive same, up.placed, ?_, ?_⟩
  · rw [up.prevHardSt]
    exact .refl _
  · exact fun _ _ => .inl up.prevSoftSt.symm

end Launch

end

end EtcdRaft
