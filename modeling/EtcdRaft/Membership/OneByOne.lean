import EtcdRaft.Membership.Reachable

/-! A list of changes made in one joint configuration that is left afterwards, compared
with the same changes made one by one.
-/

namespace EtcdRaft

variable {places : Places}

/-- `t'` comes from `t` by calls of `Simple`, one for each change. -/
inductive SimpleCalls : ProgressTracker → List ConfChangeSingle → ProgressTracker → Prop where
  | nil (t : ProgressTracker) : SimpleCalls t [] t
  | cons {t t' : ProgressTracker} {cc : ConfChangeSingle} {ccs : List ConfChangeSingle}
      (lastIndex : Nat) {cfg : TrackerConfig} {trk : ProgressMap}
      (done : Changer.simple { tracker := t, lastIndex := lastIndex } [cc] = .ok (cfg, trk))
      (rest : SimpleCalls { t with config := cfg, progress := trk } ccs t')
    : SimpleCalls t (cc :: ccs) t'

theorem SimpleCalls.configured {t t' : ProgressTracker} {ccs : List ConfChangeSingle}
    (calls : SimpleCalls t ccs t') (ok : Configured t.config t.progress places)
    (voted : places.Voted) (settled : places.Settled)
    : (∀ cc ∈ ccs, Places.Known cc) ∧ Configured t'.config t'.progress (places.changes ccs)
      ∧ (places.changes ccs).Voted := by
  induction calls generalizing places with
  | nil t => exact ⟨nofun, ok, voted⟩
  | cons lastIndex done rest ih =>
      obtain ⟨_, known, ok', voted', _⟩ :=
        (Changer.simple_spec (c := { tracker := _, lastIndex := lastIndex }) ok _).result done
      obtain ⟨known', ok'', voted''⟩ :=
        ih ok' voted' ((Places.settled_changes _).mpr settled)
      exact ⟨List.forall_mem_cons.mpr ⟨known _ List.mem_cons_self, known'⟩, ok'', voted''⟩

/-- The outgoing half may as well be given up before the changes. -/
theorem Places.left_changes (places : Places) (ccs : List ConfChangeSingle)
    : (places.changes ccs).left = places.left.changes ccs := by
  unfold Places.changes
  induction ccs generalizing places with
  | nil => rfl
  | cons cc rest ih =>
      rw [List.foldl_cons, List.foldl_cons, ih]
      congr 1
      unfold Places.change
      split
      · rfl
      · funext id
        unfold Places.left
        rw [Function.update_apply, Function.update_apply]
        split
        · exact Place.leave_change _ _
        · rfl

theorem Places.left_entered (settled : places.Settled) : places.entered.left = places :=
  funext fun id => Place.leave_enter (settled id)

theorem Places.voted_left : places.left.Voted ↔ places.Voted := by
  unfold Places.Voted Places.left
  simp only [Place.isIncoming_leave]

/-- Changes that succeed one by one also succeed in a joint configuration, and the
configuration after it is the same.
-/
theorem SimpleCalls.joint_agrees {t t' : ProgressTracker} {ccs : List ConfChangeSingle}
    (reachable : t.Reachable) (notJoint : t.config.joint = false)
    (voters : t.config.voters.incoming.size ≠ 0) (calls : SimpleCalls t ccs t')
    (autoLeave : Bool) (lastIndex lastIndex' : Nat)
    : ∃ cfg trk cfg' trk',
        Changer.enterJoint { tracker := t, lastIndex := lastIndex } autoLeave ccs = .ok (cfg, trk)
        ∧ Changer.leaveJoint {
            tracker := { t with config := cfg, progress := trk }
            lastIndex := lastIndex' } = .ok (cfg', trk')
        ∧ cfg' = t'.config ∧ cfg'.learnersNext = none ∧ cfg'.autoLeave = false
        ∧ ∀ id, (trk'.get? id).map Progress.isLearner
          = (t'.progress.get? id).map Progress.isLearner := by
  obtain ⟨places, ok⟩ := reachable.configured
  have settled := ok.joint_eq_false.mp notJoint
  have voted := ok.size_ne_zero.mp voters
  obtain ⟨known, ok', voted'⟩ := calls.configured ok voted settled
  have same : (places.entered.changes ccs).left = places.changes ccs := by
    rw [Places.left_changes, Places.left_entered settled]
  have votedJoint : (places.entered.changes ccs).Voted := by
    rw [← Places.voted_left, same]
    exact voted'
  obtain ⟨⟨cfg, trk⟩, entered, _, _, _, okJoint, _⟩ :=
    (Changer.enterJoint_spec (c := { tracker := t, lastIndex := lastIndex }) ok autoLeave
      ccs).exists_ok (by
        rintro err (⟨joint, _⟩ | ⟨_, ⟨empty, _⟩ | ⟨unknown, _⟩ | ⟨_, empty, _⟩⟩)
        · exact joint settled
        · exact empty voted
        · exact unknown known
        · exact empty votedJoint)
  have joint : ¬(places.entered.changes ccs).Settled := fun still =>
    Changer.not_settled_entered settled voted ((Places.settled_changes ccs).mp still)
  obtain ⟨⟨cfg', trk'⟩, left, _, okLeft⟩ :=
    (Changer.leaveJoint_spec (c := {
      tracker := { t with config := cfg, progress := trk }
      lastIndex := lastIndex' }) okJoint).exists_ok fun _ still => joint still.1
  rw [same] at okLeft
  have settled' := (Places.settled_changes ccs).mpr settled
  have notLeaving := okLeft.autoLeave settled'
  refine ⟨cfg, trk, cfg', trk', entered, left, ?_, ?_, notLeaving, fun id => ?_⟩
  · exact okLeft.config_eq ok'.toRepresents (notLeaving.trans (ok'.autoLeave settled').symm)
  · exact okLeft.learnersNext_eq_none settled'
  · exact (okLeft.progress id).trans (ok'.progress id).symm

/-- The voters 1 and 2, of which 2 is demoted, promoted again and removed, all in one go.
-/
theorem joint_agrees_demotion
    : ∃ chg, chain { tracker := makeProgressTracker 1 1, lastIndex := 0 }
        ([.simple [{ nodeId := 1 }], .simple [{ nodeId := 2 }]].map Operation.run) = .ok chg
      ∧ ∃ t', SimpleCalls chg.tracker [
          { type := .confChangeAddLearnerNode, nodeId := 2 }, { nodeId := 2 },
          { type := .confChangeRemoveNode, nodeId := 2 }] t'
        ∧ ∃ cfg trk cfg' trk', chg.enterJoint true [
            { type := .confChangeAddLearnerNode, nodeId := 2 }, { nodeId := 2 },
            { type := .confChangeRemoveNode, nodeId := 2 }] = .ok (cfg, trk)
          ∧ Changer.leaveJoint {
              tracker := { chg.tracker with config := cfg, progress := trk }
              lastIndex := 0 } = .ok (cfg', trk')
          ∧ cfg' = t'.config := by
  obtain ⟨chg, done, notJoint, voters, start⟩ : ∃ chg,
      chain { tracker := makeProgressTracker 1 1, lastIndex := 0 }
        ([.simple [{ nodeId := 1 }], .simple [{ nodeId := 2 }]].map Operation.run) = .ok chg
      ∧ chg.tracker.config.joint = false ∧ chg.tracker.config.voters.incoming.size ≠ 0
      ∧ chg.lastIndex = 0 :=
    ⟨_, rfl, rfl, nofun, rfl⟩
  obtain ⟨t', calls⟩ : ∃ t', SimpleCalls chg.tracker [
      { type := .confChangeAddLearnerNode, nodeId := 2 }, { nodeId := 2 },
      { type := .confChangeRemoveNode, nodeId := 2 }] t' := by
    cases done
    exact ⟨_, .cons 0 rfl (.cons 0 rfl (.cons 0 rfl (.nil _)))⟩
  have reachable := ProgressTracker.Reachable.chain (.make 1 1) done
  obtain ⟨cfg, trk, cfg', trk', entered, left, same, _⟩ :=
    calls.joint_agrees reachable notJoint voters true chg.lastIndex 0
  exact ⟨chg, done, t', calls, cfg, trk, cfg', trk', entered, left, same⟩

end EtcdRaft
