import EtcdRaft.Membership.Reachable
import EtcdRaft.Model.Step

/-! What a leader accepts as a configuration change, compared with what can be applied. -/

namespace EtcdRaft

namespace Raft

theorem orPanic_error {x : ChangeResult} {p : Panic} (fails : orPanic x = .error p)
    : ∃ err, x = .error err ∧ p = .confChange err := by
  cases x with
  | ok res => cases fails
  | error err => exact ⟨err, rfl, (Except.error.inj fails).symm⟩

/-- The failures that are left to whoever proposes a change. -/
def Excused (p : Panic) : Prop :=
  p = .confChange .removedAllVoters
    ∨ ∃ value, p = .confChange (.unexpectedConfType (.unknown value))

variable {r r' : Raft} {cc : ConfChangeV2} {places : Places}

/-- Outside a joint configuration, a change that passes can be applied in any way. -/
theorem changedConfig_settled (ok : Configured r.trk.config r.trk.progress places)
    (settled : places.Settled) (voted : places.Voted) (nonempty : cc.changes ≠ [])
    (defined : ∀ value, cc.transition ≠ .unknown value) {p : Panic}
    (fails : r.changedConfig cc = .error p)
    : Excused p := by
  unfold changedConfig at fails
  have stays : cc.leaveJoint = false := by simp [ConfChangeV2.leaveJoint, nonempty]
  rw [stays, if_neg Bool.false_ne_true] at fails
  split at fails
  · -- the transitions that can be encoded are defined
    rename_i undefined
    unfold ConfChangeV2.enterJoint at undefined
    split at undefined
    · split at undefined
      · cases undefined
      · cases undefined
      · cases undefined
      · exact absurd ‹_› (defined _)
    · cases undefined
  · obtain ⟨err, failed, rfl⟩ := orPanic_error fails
    rcases (Changer.enterJoint_spec
      (c := { tracker := r.trk, lastIndex := r.raftLog.lastIndex }) ok _ _).failure failed with
      ⟨joint, _⟩ | ⟨_, ⟨empty, _⟩ | ⟨_, value, rfl⟩ | ⟨_, _, rfl⟩⟩
    · exact absurd settled joint
    · exact absurd voted empty
    · exact .inr ⟨value, rfl⟩
    · exact .inl rfl
  · rename_i simple
    obtain ⟨err, failed, rfl⟩ := orPanic_error fails
    rcases (Changer.simple_spec
      (c := { tracker := r.trk, lastIndex := r.raftLog.lastIndex }) ok _).failure failed with
      ⟨joint, _⟩ | ⟨_, ⟨_, value, rfl⟩ | ⟨_, _, rfl⟩ | ⟨many, _⟩⟩
    · exact absurd settled joint
    · exact .inr ⟨value, rfl⟩
    · exact .inl rfl
    · -- a change that is made in one step has a single part
      refine absurd ?_ many
      have one : cc.changes.length ≤ 1 := by
        unfold ConfChangeV2.enterJoint at simple
        split at simple
        · split at simple <;> cases simple
        · omega
      obtain ⟨first, only⟩ : ∃ first, cc.changes = [first] := by
        rw [← List.length_eq_one_iff]
        have := List.length_pos_of_ne_nil nonempty
        omega
      rw [only]
      exact Places.oneVoter_change places first

/-- In a joint configuration, an empty change can be applied only without a transition. -/
theorem changedConfig_joint (ok : Configured r.trk.config r.trk.progress places)
    (joint : ¬places.Settled) (empty : cc.changes = [])
    (defined : ∀ value, cc.transition ≠ .unknown value)
    : (cc.transition = .confChangeTransitionAuto ∧ ∀ p, r.changedConfig cc ≠ .error p)
      ∨ (cc.transition ≠ .confChangeTransitionAuto
        ∧ r.changedConfig cc = .error (.confChange .alreadyJoint)) := by
  unfold changedConfig
  by_cases auto : cc.transition = .confChangeTransitionAuto
  · refine .inl ⟨auto, fun p fails => ?_⟩
    have leaves : cc.leaveJoint = true := by simp [ConfChangeV2.leaveJoint, auto, empty]
    rw [leaves, if_pos rfl] at fails
    obtain ⟨err, failed, _⟩ := orPanic_error fails
    exact joint ((Changer.leaveJoint_spec
      (c := { tracker := r.trk, lastIndex := r.raftLog.lastIndex }) ok).failure failed).1
  · refine .inr ⟨auto, ?_⟩
    have stays : cc.leaveJoint = false := by simp [ConfChangeV2.leaveJoint, auto]
    obtain ⟨autoLeave, enters⟩ : ∃ autoLeave, cc.enterJoint = .ok (some autoLeave) := by
      unfold ConfChangeV2.enterJoint
      rw [if_pos (.inl auto)]
      cases transition : cc.transition with
      | confChangeTransitionAuto => exact ⟨_, rfl⟩
      | confChangeTransitionJointImplicit => exact ⟨_, rfl⟩
      | confChangeTransitionJointExplicit => exact ⟨_, rfl⟩
      | unknown value => exact absurd transition (defined value)
    rw [stays, if_neg Bool.false_ne_true, enters]
    have refused := Changer.enterJoint_spec
      (c := { tracker := r.trk, lastIndex := r.raftLog.lastIndex }) ok autoLeave cc.changes
    obtain ⟨err, failed⟩ := refused.exists_error fun _ done => joint done.1
    rcases refused.failure failed with ⟨_, rfl⟩ | ⟨settled, _⟩
    · dsimp only
      rw [failed]
      rfl
    · exact absurd settled joint

-----------------------------------------------------------------------------------------
-- Proposals
-----------------------------------------------------------------------------------------

variable [Codec]

/-- The leader `r` is a member, validates proposals and lets an entry with the change
pass.
-/
structure Accepts (r : Raft) (cc : ConfChangeV2) : Prop where
  tracked : r.trk.progress.contains r.id = true
  validates : r.disableConfChangeValidation = false
  passes : ∃ i e r', confChangeOf e = .ok (some cc) ∧ r.checkProposal i e = .ok (r', e)

theorem isConfChange_of_confChangeOf {e : Entry} {cc : ConfChangeV2}
    (decoded : confChangeOf e = .ok (some cc))
    : e.type ≠ .entryNormal := by
  intro normal
  unfold confChangeOf at decoded
  rw [normal] at decoded
  cases decoded

/-- A change that passes is empty exactly if the configuration is joint. -/
theorem Accepts.joint_iff (accepts : r.Accepts cc)
    : r.trk.config.joint = true ↔ cc.changes = [] := by
  obtain ⟨i, e, r', decoded, checked⟩ := accepts.passes
  have change := isConfChange_of_confChangeOf decoded
  unfold checkProposal at checked
  rw [decoded, except_ok_bind] at checked
  dsimp only at checked
  split at checked
  · cases checked
    exact absurd rfl change
  · rename_i passed
    have passed : ¬(r.trk.config.voters.outgoingSet.size > 0 ∧ ¬cc.changes.length = 0)
        ∧ ¬(¬r.trk.config.voters.outgoingSet.size > 0 ∧ cc.changes.length = 0) := by
      rw [accepts.validates] at passed
      simp only [Bool.not_false, and_true, not_or] at passed
      exact passed.2
    unfold TrackerConfig.joint
    rw [decide_eq_true_iff, ← List.length_eq_zero_iff]
    omega

/-- A change that the leader accepts can be applied by every node in its configuration,
but for the removal of all voters and unknown types, exactly unless the configuration is
joint and the change asks for a transition.
-/
theorem Accepts.applies_iff (accepts : r.Accepts cc) (reachable : r.trk.Reachable)
    (reachable' : r'.trk.Reachable) (same : r'.trk.config = r.trk.config)
    (defined : ∀ value, cc.transition ≠ .unknown value)
    : (∀ p, r'.changedConfig cc = .error p → Excused p)
      ↔ ¬(r.trk.config.joint = true ∧ cc.transition ≠ .confChangeTransitionAuto) := by
  obtain ⟨places, ok⟩ := reachable.configured
  obtain ⟨places', ok'⟩ := reachable'.configured
  have voted : places.Voted := by
    refine ok.voted.resolve_right fun absent => ?_
    have tracked := accepts.tracked
    rw [ok.contains, absent] at tracked
    cases tracked
  have voted' : places'.Voted := by
    rw [← ok'.size_ne_zero, same]
    exact ok.size_ne_zero.mpr voted
  cases joint : r.trk.config.joint with
  | false =>
      have settled' : places'.Settled := ok'.joint_eq_false.mp (same ▸ joint)
      have nonempty : cc.changes ≠ [] := fun empty => by
        rw [accepts.joint_iff.mpr empty] at joint
        cases joint
      have applies :=
        fun p => changedConfig_settled (p := p) ok' settled' voted' nonempty defined
      simpa using applies
  | true =>
      have joint' : ¬places'.Settled := fun settled' => by
        rw [← same, ok'.joint_eq_false.mpr settled'] at joint
        cases joint
      rcases changedConfig_joint ok' joint' (accepts.joint_iff.mp joint) defined with
        ⟨auto, applies⟩ | ⟨other, fails⟩
      · exact ⟨fun _ => fun ⟨_, other⟩ => other auto, fun _ p fails => absurd fails (applies p)⟩
      · refine ⟨fun excused => ?_, fun allowed => absurd ⟨rfl, other⟩ allowed⟩
        rcases excused _ fails with impossible | ⟨_, impossible⟩ <;> cases impossible

end Raft

/-- A leader that enters a joint configuration explicitly, to add the voter 2 to the voter
1.
-/
def jointLeader (chg : Changer) : Raft :=
  { blankRaft {
      id := 1
      electionTick := 10
      heartbeatTick := 1
      storage := {}
      maxSizePerMsg := 1000
      maxInflightMsgs := 256 } with
    state := .stateLeader
    trk := chg.tracker }

/-- The leader accepts an empty change with an explicit transition, which no node can
apply.
-/
theorem empty_transition_fails
    : letI : Codec := .wire
      ∃ chg, chain { tracker := makeProgressTracker 1 1, lastIndex := 0 }
        ([.simple [{ nodeId := 1 }], .enterJoint false [{ nodeId := 2 }]].map Operation.run)
          = .ok chg
      ∧ ∃ cc : ConfChangeV2, cc.transition = .confChangeTransitionJointExplicit
        ∧ (jointLeader chg).Accepts cc
        ∧ (jointLeader chg).applyConfChange cc = .error (.confChange .alreadyJoint) := by
  let _ : Codec := .wire
  refine ⟨_, rfl, { transition := .confChangeTransitionJointExplicit }, rfl, ⟨rfl, rfl, 0, {
    type := .entryConfChangeV2
    data := [0x08, 2] }, _, rfl, rfl⟩, rfl⟩

/-- The same leader accepts the change that leaves the joint configuration, which can be
applied.
-/
theorem applies_iff_leave
    : letI : Codec := .wire
      ∃ chg, chain { tracker := makeProgressTracker 1 1, lastIndex := 0 }
        ([.simple [{ nodeId := 1 }], .enterJoint false [{ nodeId := 2 }]].map Operation.run)
          = .ok chg
      ∧ (jointLeader chg).Accepts {}
      ∧ ∀ p, (jointLeader chg).changedConfig {} = .error p → Raft.Excused p := by
  let _ : Codec := .wire
  obtain ⟨chg, done, accepts⟩ : ∃ chg,
      chain { tracker := makeProgressTracker 1 1, lastIndex := 0 }
        ([.simple [{ nodeId := 1 }], .enterJoint false [{ nodeId := 2 }]].map Operation.run)
          = .ok chg
      ∧ (jointLeader chg).Accepts {} :=
    ⟨_, rfl, rfl, rfl, 0, { type := .entryConfChangeV2 }, _, rfl, rfl⟩
  have reachable : (jointLeader chg).trk.Reachable := .chain (.make 1 1) done
  exact ⟨chg, done, accepts,
    (accepts.applies_iff reachable reachable rfl nofun).mpr fun ⟨_, other⟩ => other rfl⟩

end EtcdRaft
