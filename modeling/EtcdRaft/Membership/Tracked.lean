import EtcdRaft.Membership.Reachable
import EtcdRaft.Model.Raft

/-! What a change of the configuration does to the progress of the peers. A peer that
stays keeps its progress, up to the mark of a learner; a peer that joins gets a fresh one,
and so does a learner that is removed and added again.
-/

namespace EtcdRaft

/-- The same progress, up to the mark of a learner. -/
def Progress.Marked (pr pr' : Progress) : Prop :=
  ∃ isLearner, pr' = { pr with isLearner := isLearner }

theorem Progress.Marked.refl (pr : Progress) : pr.Marked pr := ⟨pr.isLearner, rfl⟩

theorem Progress.Marked.trans {pr₁ pr₂ pr₃ : Progress} (first : pr₁.Marked pr₂)
    (second : pr₂.Marked pr₃)
    : pr₁.Marked pr₃ := by
  obtain ⟨_, rfl⟩ := first
  obtain ⟨isLearner, rfl⟩ := second
  exact ⟨isLearner, rfl⟩

/-- One of the changes removes the peer. -/
def ConfChangeV2.Removes (cc : ConfChangeV2) (id : Nat) : Prop :=
  ∃ change ∈ cc.changes, change.type = .confChangeRemoveNode ∧ change.nodeId = id

instance (cc : ConfChangeV2) (id : Nat) : Decidable (cc.Removes id) :=
  inferInstanceAs (Decidable (∃ change ∈ cc.changes, _ ∧ _))

/-- Several changes at once are made by way of a joint configuration. -/
theorem ConfChangeV2.one_change {change change' : ConfChangeSingle} (cc : ConfChangeV2)
    (simple : cc.enterJoint = .ok none) (member : change ∈ cc.changes)
    (member' : change' ∈ cc.changes)
    : change = change' := by
  have few : cc.changes.length ≤ 1 := by
    unfold enterJoint at simple
    split at simple
    · split at simple <;> cases simple
    · omega
  obtain ⟨only, same⟩ := List.length_eq_one_iff.mp
    (Nat.le_antisymm few (List.length_pos_of_mem member))
  rw [same, List.mem_singleton] at member member'
  exact member.trans member'.symm

namespace Changer

/-- The progress that `initProgress` starts with. -/
def freshProgress (c : Changer) (isLearner : Bool) : Progress where
  next := max c.lastIndex 1
  inflights := newInflights c.tracker.maxInflight c.tracker.maxInflightBytes
  isLearner := isLearner
  recentActive := true

/-- What changes may make of the progress of the peers, where those in `gone` may be
removed and those in `new` may join.
-/
structure Retracks (c : Changer) (gone new : Nat → Prop)
    (trk trk' : ProgressMap) : Prop where
  source : ∀ {id pr'}, trk'.get? id = some pr'
    → (∃ pr, trk.get? id = some pr ∧ pr.Marked pr')
      ∨ (new id ∧ (c.freshProgress false).Marked pr')
  stays : ∀ {id pr}, trk.get? id = some pr
    → gone id ∨ ∃ pr', trk'.get? id = some pr' ∧ pr.Marked pr'

namespace Retracks

variable {c : Changer} {gone new : Nat → Prop} {trk trk' trk₁ trk₂ trk₃ : ProgressMap}
  {id : Nat}
  {pr pr' : Progress}

theorem refl (trk : ProgressMap) : c.Retracks gone new trk trk where
  source := fun found => .inl ⟨_, found, .refl _⟩
  stays := fun found => .inr ⟨_, found, .refl _⟩

theorem trans (first : c.Retracks gone new trk₁ trk₂)
    (second : c.Retracks gone new trk₂ trk₃)
    : c.Retracks gone new trk₁ trk₃ where
  source := by
    intro id pr₃ found
    rcases second.source found with ⟨pr₂, found₂, marked⟩ | joins
    · rcases first.source found₂ with ⟨pr₁, found₁, marked₁⟩ | ⟨joins, fresh⟩
      · exact .inl ⟨pr₁, found₁, marked₁.trans marked⟩
      · exact .inr ⟨joins, fresh.trans marked⟩
    · exact .inr joins
  stays := by
    intro id pr₁ found
    rcases first.stays found with left | ⟨pr₂, found₂, marked⟩
    · exact .inl left
    · rcases second.stays found₂ with left | ⟨pr₃, found₃, marked₃⟩
      · exact .inl left
      · exact .inr ⟨pr₃, found₃, marked.trans marked₃⟩

/-- A peer gets a new mark. -/
theorem mark (found : trk.get? id = some pr) (marked : pr.Marked pr')
    (others : ∀ key, key ≠ id → trk₁.get? key = trk.get? key)
    : c.Retracks gone new trk (trk₁.insert id pr') := by
  refine ⟨fun {key pr₂} after => ?_, fun {key pr₁} before => .inr ?_⟩ <;> by_cases here : key = id
  · rw [IdMap.get?_insert, if_pos here] at after
    cases after
    exact .inl ⟨pr, here ▸ found, marked⟩
  · rw [IdMap.get?_insert, if_neg here, others key here] at after
    exact .inl ⟨pr₂, after, .refl _⟩
  · rw [here, found] at before
    cases before
    exact ⟨pr', by rw [IdMap.get?_insert, if_pos here], marked⟩
  · exact ⟨pr₁, by rw [IdMap.get?_insert, if_neg here, others key here, before], .refl _⟩

theorem join (absent : trk.get? id = none) (joins : new id)
    (fresh : (c.freshProgress false).Marked pr)
    : c.Retracks gone new trk (trk.insert id pr) := by
  refine ⟨fun {key pr₂} after => ?_, fun {key pr₁} before => .inr ⟨pr₁, ?_, .refl _⟩⟩
  · rw [IdMap.get?_insert] at after
    split at after
    · rename_i here
      cases after
      exact .inr ⟨here ▸ joins, fresh⟩
    · exact .inl ⟨pr₂, after, .refl _⟩
  · rw [IdMap.get?_insert, if_neg, before]
    rintro rfl
    exact absurd (absent.symm.trans before) nofun

theorem leave (left : gone id) : c.Retracks gone new trk (trk.erase id) := by
  refine ⟨fun {key pr₂} after => ?_, fun {key pr₁} before => ?_⟩ <;> by_cases here : key = id
  · rw [IdMap.get?_erase, if_pos here] at after
    cases after
  · rw [IdMap.get?_erase, if_neg here] at after
    exact .inl ⟨pr₂, after, .refl _⟩
  · exact .inl (here ▸ left)
  · exact .inr ⟨pr₁, by rw [IdMap.get?_erase, if_neg here, before], .refl _⟩

end Retracks

variable {c : Changer} {gone new : Nat → Prop} {cfg cfg' : TrackerConfig}
  {trk trk' : ProgressMap}

theorem retracks_initProgress {id : Nat} (absent : trk.get? id = none) (joins : new id)
    (isLearner : Bool)
    : c.Retracks gone new trk (c.initProgress cfg trk id isLearner).2 :=
  .join absent joins ⟨isLearner, rfl⟩

/-- A voter of the outgoing half keeps its progress. -/
theorem retracks_remove {id : Nat}
    (left : cfg.voters.outgoingSet.contains id = false → gone id)
    : c.Retracks gone new trk (remove cfg trk id).2 := by
  unfold remove
  split
  · exact .refl _
  · dsimp only
    split
    · exact .refl _
    · exact .leave (left (Bool.eq_false_iff.mpr ‹_›))

theorem get?_remove {id key : Nat} (other : key ≠ id)
    : (remove cfg trk id).2.get? key = trk.get? key := by
  unfold remove
  split
  · rfl
  · dsimp only
    split
    · rfl
    · rw [IdMap.get?_erase, if_neg other]

theorem retracks_makeVoter {id : Nat} (joins : new id)
    : c.Retracks gone new trk (c.makeVoter cfg trk id).2 := by
  unfold makeVoter
  split
  · exact retracks_initProgress ‹_› joins false
  · exact .mark ‹_› ⟨false, rfl⟩ fun _ _ => rfl

theorem retracks_makeLearner {id : Nat} (joins : new id)
    : c.Retracks gone new trk (c.makeLearner cfg trk id).2 := by
  unfold makeLearner
  split
  · exact retracks_initProgress ‹_› joins true
  split
  · exact .refl _
  dsimp only
  split
  · exact .mark ‹_› (.refl _) fun _ other => get?_remove other
  · exact .mark ‹_› ⟨true, rfl⟩ fun _ other => get?_remove other

theorem outgoing_remove (cfg : TrackerConfig) (trk : ProgressMap) (id : Nat)
    : (remove cfg trk id).1.voters.outgoing = cfg.voters.outgoing := by
  unfold remove
  split <;> rfl

theorem outgoing_initProgress (id : Nat) (isLearner : Bool)
    : (c.initProgress cfg trk id isLearner).1.voters.outgoing = cfg.voters.outgoing := by
  unfold initProgress
  cases isLearner <;> rfl

/-- A single change, which leaves the outgoing half as it is. -/
theorem retracks_applySingle {cc : ConfChangeSingle}
    (left : cc.type = .confChangeRemoveNode → cfg.voters.outgoingSet.contains cc.nodeId = false
      → gone cc.nodeId)
    (joins : cc.type ≠ .confChangeRemoveNode → new cc.nodeId)
    : Ends (c.applySingle cfg trk cc) (fun s => c.Retracks gone new trk s.2
        ∧ s.1.voters.outgoing = cfg.voters.outgoing) fun _ => True := by
  unfold applySingle
  refine Ends.ite (fun _ => ⟨.refl _, rfl⟩) fun _ => ?_
  cases type : cc.type with
  | confChangeAddNode =>
      refine ⟨retracks_makeVoter (joins (by simp [type])), ?_⟩
      unfold makeVoter
      split
      · exact outgoing_initProgress _ _
      · rfl
  | confChangeAddLearnerNode =>
      refine ⟨retracks_makeLearner (joins (by simp [type])), ?_⟩
      unfold makeLearner
      split
      · exact outgoing_initProgress _ _
      split
      · rfl
      dsimp only
      split <;> exact outgoing_remove cfg trk cc.nodeId
  | confChangeRemoveNode => exact ⟨retracks_remove (left type), outgoing_remove _ _ _⟩
  | confChangeUpdateNode => exact ⟨.refl _, rfl⟩
  | unknown value => exact trivial

/-- Only the peers that a change removes may be gone, and only those that one adds join.
-/
theorem retracks_apply (ccs : List ConfChangeSingle)
    (left : ∀ cc ∈ ccs, cc.type = .confChangeRemoveNode
      → cfg.voters.outgoingSet.contains cc.nodeId = false → gone cc.nodeId)
    (joins : ∀ cc ∈ ccs, cc.type ≠ .confChangeRemoveNode → new cc.nodeId)
    : Ends (c.apply cfg trk ccs) (fun s => c.Retracks gone new trk s.2) fun _ => True := by
  unfold apply
  refine Ends.bind (q := fun s => c.Retracks gone new trk s.2
    ∧ s.1.voters.outgoing = cfg.voters.outgoing) (Ends.foldlM ⟨.refl _, rfl⟩ ?_) ?_
  · rintro s cc member ⟨before, outgoing⟩
    have left := left cc member
    unfold JointConfig.outgoingSet at left
    rw [← outgoing] at left
    refine Ends.mono (retracks_applySingle left (joins cc member)) ?_ fun _ _ => trivial
    exact fun _ ⟨after, same⟩ => ⟨before.trans after, same.trans outgoing⟩
  · rintro s ⟨retracks, _⟩
    exact Ends.ite (fun _ => trivial) fun _ => retracks

theorem checkAndReturn_progress (done : checkAndReturn cfg trk = .ok (cfg', trk'))
    : trk' = trk := by
  obtain ⟨_, _, same⟩ := except_bind_eq_ok.mp done
  cases same
  rfl

theorem retracks_simple {ccs : List ConfChangeSingle}
    (left : ∀ cc ∈ ccs, cc.type = .confChangeRemoveNode → gone cc.nodeId)
    (joins : ∀ cc ∈ ccs, cc.type ≠ .confChangeRemoveNode → new cc.nodeId)
    (done : c.simple ccs = .ok (cfg, trk))
    : c.Retracks gone new c.tracker.progress trk := by
  obtain ⟨⟨cfg₁, trk₁⟩, copied, done⟩ := except_bind_eq_ok.mp done
  dsimp only at done
  split at done
  · cases done
  obtain ⟨⟨cfg₂, trk₂⟩, changed, done⟩ := except_bind_eq_ok.mp done
  dsimp only at done
  split at done
  · cases done
  · rw [checkAndReturn_progress done, ← checkAndReturn_progress copied]
    exact (retracks_apply ccs (fun cc member type _ => left cc member type) joins).result changed

/-- The voters of a configuration stay in its outgoing half. -/
theorem retracks_enterJoint {autoLeave : Bool} {ccs : List ConfChangeSingle}
    (left : ∀ cc ∈ ccs, cc.type = .confChangeRemoveNode
      → c.tracker.config.voters.incoming.contains cc.nodeId = false → gone cc.nodeId)
    (joins : ∀ cc ∈ ccs, cc.type ≠ .confChangeRemoveNode → new cc.nodeId)
    (done : c.enterJoint autoLeave ccs = .ok (cfg, trk))
    : c.Retracks gone new c.tracker.progress trk := by
  obtain ⟨⟨cfg₁, trk₁⟩, copied, done⟩ := except_bind_eq_ok.mp done
  cases checkAndReturn_eq copied
  dsimp only at done
  split at done
  · cases done
  split at done
  · cases done
  obtain ⟨⟨cfg₂, trk₂⟩, changed, done⟩ := except_bind_eq_ok.mp done
  rw [checkAndReturn_progress done, ← checkAndReturn_progress copied]
  have applied := @retracks_apply c gone new { c.tracker.config.clone with
    voters.outgoing := some c.tracker.config.voters.incoming } trk₁ ccs left joins
  exact applied.result changed

/-- Nobody joins when a joint configuration is left. -/
theorem leaveJoint_source {id : Nat} {pr' : Progress}
    (done : c.leaveJoint = .ok (cfg, trk)) (found : trk.get? id = some pr')
    : ∃ pr, c.tracker.progress.get? id = some pr ∧ pr.Marked pr' := by
  obtain ⟨⟨cfg₁, trk₁⟩, copied, done⟩ := except_bind_eq_ok.mp done
  dsimp only at done
  split at done
  · cases done
  rw [checkAndReturn_progress done, get?_foldl_erase] at found
  split at found
  · cases found
  rw [IdMap.get?_mapValues, checkAndReturn_progress copied] at found
  obtain ⟨pr, before, rfl⟩ := Option.map_eq_some_iff.mp found
  refine ⟨pr, before, ?_⟩
  split
  · exact ⟨true, rfl⟩
  · exact .refl pr

end Changer

theorem orPanic_ok {result : ChangeResult} {cfg : TrackerConfig} {trk : ProgressMap}
    (changed : Raft.orPanic result = .ok (cfg, trk))
    : result = .ok (cfg, trk) := by
  cases result with
  | error err => cases changed
  | ok res =>
      cases changed
      rfl

namespace Raft

variable {r : Raft} {cc : ConfChangeV2} {cfg : TrackerConfig} {trk : ProgressMap}
  {id : Nat}
  {pr pr' : Progress}

/-- A tracked peer has the progress that it had before a change of the configuration, or a
fresh one.
-/
theorem changedConfig_source (changed : r.changedConfig cc = .ok (cfg, trk))
    (found : trk.get? id = some pr')
    : (∃ pr, r.trk.progress.get? id = some pr ∧ pr.Marked pr')
      ∨ (Changer.freshProgress ⟨r.trk, r.raftLog.lastIndex⟩ false).Marked pr' := by
  have known {c : Changer} (progress : c.tracker.progress = r.trk.progress)
      (retracks : c.Retracks (fun _ => True) (fun _ => True) c.tracker.progress trk)
      : (∃ pr, r.trk.progress.get? id = some pr ∧ pr.Marked pr')
        ∨ (c.freshProgress false).Marked pr' := by
    rcases retracks.source found with old | ⟨_, fresh⟩
    · exact .inl (progress ▸ old)
    · exact .inr fresh
  unfold changedConfig at changed
  dsimp only at changed
  split at changed
  · exact .inl (Changer.leaveJoint_source (orPanic_ok changed) found)
  split at changed
  · cases changed
  · exact known rfl (Changer.retracks_enterJoint (fun _ _ _ _ => trivial) (fun _ _ _ => trivial)
      (orPanic_ok changed))
  · exact known rfl (Changer.retracks_simple (fun _ _ _ => trivial) (fun _ _ _ => trivial)
      (orPanic_ok changed))

/-- A peer that is tracked before and after a change of the configuration keeps its
progress, unless it is removed without being a voter.
-/
theorem changedConfig_stays (changed : r.changedConfig cc = .ok (cfg, trk))
    (found : r.trk.progress.get? id = some pr) (found' : trk.get? id = some pr')
    (stays : r.trk.config.voters.incoming.contains id = true ∨ ¬cc.Removes id)
    : pr.Marked pr' := by
  have old (source : ∃ pr, r.trk.progress.get? id = some pr ∧ pr.Marked pr') : pr.Marked pr' := by
    obtain ⟨pr₀, found₀, marked⟩ := source
    cases found.symm.trans found₀
    exact marked
  have kept (later : ∃ pr', trk.get? id = some pr' ∧ pr.Marked pr') : pr.Marked pr' := by
    obtain ⟨pr₁, found₁, marked⟩ := later
    cases found'.symm.trans found₁
    exact marked
  have removes : ∀ change ∈ cc.changes, change.type = .confChangeRemoveNode
      → cc.Removes change.nodeId := fun change member type => ⟨change, member, type, rfl⟩
  unfold changedConfig at changed
  dsimp only at changed
  split at changed
  · exact old (Changer.leaveJoint_source (orPanic_ok changed) found')
  cases joint : cc.enterJoint with
  | error => simp [joint] at changed
  | ok enters =>
      simp only [joint] at changed
      cases enters with
      | some autoLeave =>
          have retracks := @Changer.retracks_enterJoint _
            (fun id => cc.Removes id ∧ r.trk.config.voters.incoming.contains id = false)
            (fun _ => True) _ _ _ _
            (fun change member type left => ⟨removes change member type, left⟩)
            (fun _ _ _ => trivial) (orPanic_ok changed)
          refine kept ((retracks.stays found).resolve_left ?_)
          rintro ⟨removed, noVoter⟩
          rcases stays with voter | stays
          · exact absurd (voter.symm.trans noVoter) nofun
          · exact stays removed
      | none =>
          have retracks := @Changer.retracks_simple _ cc.Removes
            (fun id => ∃ change ∈ cc.changes, change.type ≠ .confChangeRemoveNode
              ∧ change.nodeId = id)
            _ _ _ removes (fun change member type => ⟨change, member, type, rfl⟩)
            (orPanic_ok changed)
          rcases retracks.stays found with removed | later
          · rcases retracks.source found' with source | ⟨added, _⟩
            · exact old source
            · -- one change cannot both remove and add
              obtain ⟨change, member, type, _⟩ := removed
              obtain ⟨change', member', type', _⟩ := added
              cases cc.one_change joint member member'
              exact absurd type type'
          · exact kept later

end Raft

end EtcdRaft
