import EtcdRaft.Membership.Changer

/-! `Simple`, `EnterJoint` and `LeaveJoint` on configurations that stand for places: when
they succeed, what they lead to, and which error they report otherwise.
-/

namespace EtcdRaft

variable {cfg cfg' : TrackerConfig} {trk trk' : ProgressMap} {places places' : Places}

-----------------------------------------------------------------------------------------
-- Voters that differ
-----------------------------------------------------------------------------------------

namespace Places

/-- At most one node is a voter of the incoming half in one of the two only. -/
def OneVoter (places places' : Places) : Prop :=
  ∀ a b, (places a).isIncoming ≠ (places' a).isIncoming
    → (places b).isIncoming ≠ (places' b).isIncoming → a = b

theorem oneVoter_change (places : Places) (cc : ConfChangeSingle)
    : places.OneVoter (places.change cc) := by
  have only : ∀ id, (places id).isIncoming ≠ (places.change cc id).isIncoming
      → id = cc.nodeId := by
    intro id differs
    by_contra other
    refine differs ?_
    unfold Places.change
    split
    · rfl
    · rw [Function.update_of_ne other]
  intro a b first second
  exact (only a first).trans (only b second).symm

/-- The voters become the outgoing half as well. -/
def entered (places : Places) : Places := fun id => (places id).enter

/-- The outgoing half is given up. -/
def left (places : Places) : Places := fun id => (places id).leave

end Places

theorem mem_filter_keys {l r : IdSet} {id : Nat}
    : id ∈ l.keys.filter (fun id => !r.contains id)
      ↔ l.contains id = true ∧ r.contains id = false := by
  rw [List.mem_filter, ← IdMap.contains_iff]
  simp

/-- `symdiff` counts the members of exactly one of the sets. -/
theorem symdiff_le_one {l r : IdSet}
    : symdiff l r ≤ 1
      ↔ ∀ a b, l.contains a ≠ r.contains a → l.contains b ≠ r.contains b → a = b := by
  have count : symdiff l r = (l.keys.filter (fun id => !r.contains id)
      ++ r.keys.filter (fun id => !l.contains id)).length := by
    rw [symdiff, List.countP_eq_length_filter, List.countP_eq_length_filter, List.length_append]
  have nodup : (l.keys.filter (fun id => !r.contains id)
      ++ r.keys.filter (fun id => !l.contains id)).Nodup := by
    refine List.Nodup.append (l.keys_nodup.filter _) (r.keys_nodup.filter _) ?_
    intro id left right
    have := (mem_filter_keys.mp left).1
    rw [(mem_filter_keys.mp right).2] at this
    cases this
  have members : ∀ id, id ∈ l.keys.filter (fun id => !r.contains id)
      ++ r.keys.filter (fun id => !l.contains id) ↔ l.contains id ≠ r.contains id := by
    intro id
    rw [List.mem_append, mem_filter_keys, mem_filter_keys]
    cases l.contains id <;> cases r.contains id <;> simp
  rw [count]
  generalize l.keys.filter (fun id => !r.contains id) ++ r.keys.filter (fun id => !l.contains id)
    = differing at nodup members
  constructor
  · intro short a b here there
    match differing, short with
    | [], _ => exact absurd ((members a).mpr here) List.not_mem_nil
    | [x], _ =>
        have first := List.mem_singleton.mp ((members a).mpr here)
        have second := List.mem_singleton.mp ((members b).mpr there)
        exact first.trans second.symm
  · intro same
    match differing with
    | [] => exact Nat.zero_le 1
    | [x] => exact Nat.le_refl 1
    | x :: y :: rest =>
        have first := (members x).mp List.mem_cons_self
        have second := (members y).mp (List.mem_cons_of_mem _ List.mem_cons_self)
        have differ := (List.nodup_cons.mp nodup).1
        rw [same x y first second] at differ
        exact absurd List.mem_cons_self differ

theorem Represents.symdiff_le_one (rep : Represents cfg trk places)
    (rep' : Represents cfg' trk' places')
    : symdiff cfg.voters.incoming cfg'.voters.incoming ≤ 1 ↔ places.OneVoter places' := by
  rw [EtcdRaft.symdiff_le_one]
  simp only [rep.incoming, rep'.incoming]
  rfl

-----------------------------------------------------------------------------------------
-- Configurations in use
-----------------------------------------------------------------------------------------

/-- A configuration that the operations may start from. -/
structure Configured (cfg : TrackerConfig) (trk : ProgressMap) (places : Places) : Prop
    extends Represents cfg trk places where
  autoLeave : places.Settled → cfg.autoLeave = false
  zero : places 0 = .absent
  voted : places.Voted ∨ ∀ id, places id = .absent

theorem Configured.empty : Configured {} .empty fun _ => .absent where
  toRepresents := .empty
  autoLeave := fun _ => rfl
  zero := rfl
  voted := .inr fun _ => rfl

theorem Represents.clone (rep : Represents cfg trk places) : Represents cfg.clone trk places where
  incoming := rep.incoming
  outgoing := rep.outgoing
  learners := rep.learners
  learnersNext := rep.learnersNext
  progress := rep.progress
  nilOutgoing := rep.nilOutgoing
  nilLearners := rep.nilLearners
  nilNext := rep.nilNext

theorem Represents.withAutoLeave (rep : Represents cfg trk places) (autoLeave : Bool)
    : Represents { cfg with autoLeave := autoLeave } trk places where
  incoming := rep.incoming
  outgoing := rep.outgoing
  learners := rep.learners
  learnersNext := rep.learnersNext
  progress := rep.progress
  nilOutgoing := rep.nilOutgoing
  nilLearners := rep.nilLearners
  nilNext := rep.nilNext

theorem Represents.checkAndReturn (rep : Represents cfg trk places)
    (autoLeave : cfg.joint = false → cfg.autoLeave = false)
    : checkAndReturn cfg trk = .ok (cfg, trk) := by
  unfold EtcdRaft.checkAndReturn
  rw [rep.checkInvariants autoLeave]
  rfl

theorem Represents.checkAndCopy {c : Changer}
    (rep : Represents c.tracker.config c.tracker.progress places)
    : c.checkAndCopy = .ok (c.tracker.config.clone, c.tracker.progress) :=
  rep.clone.checkAndReturn fun _ => rfl

theorem Places.changes_zero (places : Places) (ccs : List ConfChangeSingle)
    : places.changes ccs 0 = places 0 := by
  unfold Places.changes
  induction ccs generalizing places with
  | nil => rfl
  | cons cc rest ih =>
      rw [List.foldl_cons, ih]
      unfold Places.change
      split
      · rfl
      · rename_i nonzero
        exact Function.update_of_ne (Ne.symm nonzero) _ _

theorem Places.isOutgoing_changes (places : Places) (ccs : List ConfChangeSingle)
    (id : Nat)
    : (places.changes ccs id).isOutgoing = (places id).isOutgoing := by
  unfold Places.changes
  induction ccs generalizing places with
  | nil => rfl
  | cons cc rest ih =>
      rw [List.foldl_cons, ih]
      unfold Places.change
      split
      · rfl
      · rw [Function.update_apply]
        split
        · rename_i same
          rw [Place.isOutgoing_change, same]
        · rfl

theorem Places.settled_changes (ccs : List ConfChangeSingle)
    : (places.changes ccs).Settled ↔ places.Settled := by
  unfold Places.Settled Place.Settled
  simp only [Places.isOutgoing_changes]

namespace Changer

variable {c : Changer}

/-- `apply` ends with the changes made, unless one is unknown or no voter is left. -/
theorem apply_spec (rep : Represents cfg trk places) (ccs : List ConfChangeSingle)
    : Ends (c.apply cfg trk ccs)
        (fun res => (∀ cc ∈ ccs, Places.Known cc) ∧ Represents res.1 res.2 (places.changes ccs)
          ∧ res.1.voters.outgoing = cfg.voters.outgoing ∧ res.1.autoLeave = cfg.autoLeave
          ∧ (places.changes ccs).Voted)
        (fun err => ((¬∀ cc ∈ ccs, Places.Known cc)
            ∧ ∃ value, err = .unexpectedConfType (.unknown value))
          ∨ ((∀ cc ∈ ccs, Places.Known cc) ∧ ¬(places.changes ccs).Voted
            ∧ err = .removedAllVoters)) := by
  unfold apply
  refine Ends.bind ((foldlM_applySingle_spec rep ccs).mono (fun _ done => done) fun _ => .inl) ?_
  rintro ⟨cfg', trk'⟩ ⟨known, rep', outgoing, autoLeave⟩
  refine Ends.ite (fun empty => ?_) fun nonempty => ?_
  · exact .inr ⟨known, fun voted => rep'.size_ne_zero.mpr voted empty, rfl⟩
  · exact ⟨known, rep', outgoing, autoLeave, rep'.size_ne_zero.mp nonempty⟩

/-- When `Simple` succeeds, what it leads to, and its errors. -/
theorem simple_spec (ok : Configured c.tracker.config c.tracker.progress places)
    (ccs : List ConfChangeSingle)
    : Ends (c.simple ccs)
        (fun res => places.Settled ∧ (∀ cc ∈ ccs, Places.Known cc)
          ∧ Configured res.1 res.2 (places.changes ccs) ∧ (places.changes ccs).Voted
          ∧ places.OneVoter (places.changes ccs))
        (fun err => (¬places.Settled ∧ err = .simpleInJoint)
          ∨ (places.Settled ∧ (((¬∀ cc ∈ ccs, Places.Known cc)
              ∧ ∃ value, err = .unexpectedConfType (.unknown value))
            ∨ ((∀ cc ∈ ccs, Places.Known cc) ∧ ¬(places.changes ccs).Voted
              ∧ err = .removedAllVoters)
            ∨ (¬places.OneVoter (places.changes ccs) ∧ err = .moreThanOneVoterChanged)))) := by
  have rep := ok.toRepresents
  unfold simple
  rw [rep.checkAndCopy, except_ok_bind]
  refine Ends.ite (fun joint => ?_) fun notJoint => ?_
  · refine .inl ⟨fun settled => ?_, rfl⟩
    rw [rep.clone.joint_eq_false.mpr settled] at joint
    cases joint
  have settled : places.Settled := rep.clone.joint_eq_false.mp (by simpa using notJoint)
  refine Ends.bind ((apply_spec rep.clone ccs).mono (fun _ done => done) fun err fails => ?_) ?_
  · exact .inr ⟨settled, fails.imp_right .inl⟩
  rintro ⟨cfg', trk'⟩ ⟨known, rep', outgoing, autoLeave, voted⟩
  refine Ends.ite (fun many => ?_) fun one => ?_
  · refine .inr ⟨settled, .inr (.inr ⟨fun same => ?_, rfl⟩)⟩
    exact absurd ((rep.symdiff_le_one rep').mpr same) (Nat.not_le.mpr many)
  · have oneVoter := (rep.symdiff_le_one rep').mp (Nat.not_lt.mp one)
    refine Ends.of_ok (rep'.checkAndReturn fun _ => autoLeave) ?_
    exact ⟨settled, known, {
      toRepresents := rep'
      autoLeave := fun _ => autoLeave
      zero := (places.changes_zero ccs).trans ok.zero
      voted := .inl voted }, voted, oneVoter⟩

/-- The incoming half is copied to the outgoing one. -/
theorem represents_entered (rep : Represents cfg trk places) (settled : places.Settled)
    (voted : places.Voted)
    : Represents { cfg with voters.outgoing := some cfg.voters.incoming } trk places.entered where
  incoming := fun id => (rep.incoming id).trans (Place.isIncoming_enter _).symm
  outgoing := fun id => (rep.incoming id).trans (Place.isOutgoing_enter (settled id)).symm
  learners := by
    intro id
    refine (rep.learners id).trans ?_
    simp only [Places.entered]
    cases places id <;> rfl
  learnersNext := by
    intro id
    refine (rep.learnersNext id).trans ?_
    simp only [Places.entered]
    cases places id <;> rfl
  progress := by
    intro id
    refine (rep.progress id).trans ?_
    simp only [Places.entered]
    cases places id <;> rfl
  nilOutgoing := by
    intro m same
    cases same
    exact rep.size_ne_zero.mpr voted
  nilLearners := rep.nilLearners
  nilNext := rep.nilNext

theorem not_settled_entered (settled : places.Settled) (voted : places.Voted)
    : ¬places.entered.Settled := by
  obtain ⟨id, incoming⟩ := voted
  intro still
  have outgoing := Place.isOutgoing_enter (settled id)
  rw [incoming] at outgoing
  have gone := still id
  unfold Place.Settled Places.entered at gone
  rw [outgoing] at gone
  cases gone

/-- When `EnterJoint` succeeds, what it leads to, and its errors. -/
theorem enterJoint_spec (ok : Configured c.tracker.config c.tracker.progress places)
    (autoLeave : Bool) (ccs : List ConfChangeSingle)
    : Ends (c.enterJoint autoLeave ccs)
        (fun res => places.Settled ∧ places.Voted ∧ (∀ cc ∈ ccs, Places.Known cc)
          ∧ Configured res.1 res.2 (places.entered.changes ccs)
          ∧ (places.entered.changes ccs).Voted ∧ res.1.autoLeave = autoLeave)
        (fun err => (¬places.Settled ∧ err = .alreadyJoint)
          ∨ (places.Settled ∧ ((¬places.Voted ∧ err = .zeroVoterJoint)
            ∨ ((¬∀ cc ∈ ccs, Places.Known cc)
              ∧ ∃ value, err = .unexpectedConfType (.unknown value))
            ∨ ((∀ cc ∈ ccs, Places.Known cc) ∧ ¬(places.entered.changes ccs).Voted
              ∧ err = .removedAllVoters)))) := by
  have rep := ok.toRepresents
  unfold enterJoint
  rw [rep.checkAndCopy, except_ok_bind]
  refine Ends.ite (fun joint => ?_) fun notJoint => ?_
  · refine .inl ⟨fun settled => ?_, rfl⟩
    rw [rep.clone.joint_eq_false.mpr settled] at joint
    cases joint
  have settled : places.Settled := rep.clone.joint_eq_false.mp (by simpa using notJoint)
  refine Ends.ite (fun empty => ?_) fun nonempty => ?_
  · exact .inr ⟨settled, .inl ⟨fun voted => rep.size_ne_zero.mpr voted empty, rfl⟩⟩
  have voted : places.Voted := rep.size_ne_zero.mp nonempty
  have entered := represents_entered rep.clone settled voted
  refine Ends.bind ((apply_spec entered ccs).mono (fun _ done => done) fun err fails => ?_) ?_
  · exact .inr ⟨settled, .inr fails⟩
  rintro ⟨cfg', trk'⟩ ⟨known, rep', outgoing, _, voted'⟩
  have joint : ¬(places.entered.changes ccs).Settled := fun still =>
    not_settled_entered settled voted ((Places.settled_changes ccs).mp still)
  have rep'' := rep'.withAutoLeave autoLeave
  refine Ends.of_ok (rep''.checkAndReturn fun notJoint =>
    absurd (rep''.joint_eq_false.mp notJoint) joint) ?_
  refine ⟨settled, voted, known, {
    toRepresents := rep''
    autoLeave := fun still => absurd still joint
    zero := ?_
    voted := .inl voted' }, voted', rfl⟩
  rw [Places.changes_zero, Places.entered, ok.zero]
  rfl

theorem contains_foldl_nilAwareAdd (ids : List Nat) (s : Option IdSet) (key : Nat)
    : (IdSet.ofNil (ids.foldl nilAwareAdd s)).contains key
      = (decide (key ∈ ids) || (IdSet.ofNil s).contains key) := by
  induction ids generalizing s with
  | nil => simp
  | cons id rest ih =>
      rw [List.foldl_cons, ih, contains_nilAwareAdd]
      by_cases same : key = id <;> simp [same]

theorem nilIfEmpty_foldl_nilAwareAdd (ids : List Nat) {s : Option IdSet}
    (ok : NilIfEmpty s)
    : NilIfEmpty (ids.foldl nilAwareAdd s) := by
  induction ids generalizing s with
  | nil => exact ok
  | cons id rest ih => exact ih (nilIfEmpty_nilAwareAdd s id)

theorem get?_foldl_erase (ids : List Nat) (trk : ProgressMap) (key : Nat)
    : (ids.foldl IdMap.erase trk).get? key
      = if key ∈ ids then none else trk.get? key := by
  induction ids generalizing trk with
  | nil => simp
  | cons id rest ih =>
      rw [List.foldl_cons, ih, IdMap.get?_erase]
      by_cases same : key = id <;> simp [same]

/-- The nodes whose progress `LeaveJoint` drops. -/
theorem mem_gone (rep : Represents cfg trk places) (key : Nat)
    : key ∈ cfg.voters.outgoingSet.keys.filter (fun id => !cfg.voters.incoming.contains id
        && !(IdSet.ofNil (cfg.learnerNextSet.keys.foldl nilAwareAdd cfg.learners)).contains id)
      ↔ places key = .outgoing := by
  have next : decide (key ∈ cfg.learnerNextSet.keys) = (places key).isNext := by
    rw [← rep.learnersNext, Bool.eq_iff_iff, decide_eq_true_iff, IdMap.contains_iff]
  have learners : (IdSet.ofNil cfg.learners).contains key = (places key).isLearner :=
    rep.learners key
  rw [List.mem_filter, ← IdMap.contains_iff, contains_foldl_nilAwareAdd, rep.outgoing,
    rep.incoming, next, learners]
  cases places key <;> simp [Place.isOutgoing, Place.isIncoming, Place.isNext, Place.isLearner]

theorem represents_left (rep : Represents cfg trk places)
    : Represents
        { cfg with
          voters.outgoing := none
          autoLeave := false
          learners := cfg.learnerNextSet.keys.foldl nilAwareAdd cfg.learners
          learnersNext := none }
        ((cfg.voters.outgoingSet.keys.filter fun id => !cfg.voters.incoming.contains id
            && !(IdSet.ofNil (cfg.learnerNextSet.keys.foldl nilAwareAdd cfg.learners)).contains
              id).foldl IdMap.erase
          (trk.mapValues fun id pr => if cfg.learnerNextSet.keys.contains id
            then { pr with isLearner := true } else pr))
        places.left where
  incoming := fun id => (rep.incoming id).trans (Place.isIncoming_leave _).symm
  outgoing := fun id => (Place.settled_leave (places id)).symm
  learners := by
    intro key
    have next : decide (key ∈ cfg.learnerNextSet.keys) = (places key).isNext := by
      rw [← rep.learnersNext, Bool.eq_iff_iff, decide_eq_true_iff, IdMap.contains_iff]
    have learners : (IdSet.ofNil cfg.learners).contains key = (places key).isLearner :=
      rep.learners key
    simp only [TrackerConfig.learnerSet, Places.left]
    rw [contains_foldl_nilAwareAdd, next, learners]
    cases places key <;> rfl
  learnersNext := by
    intro key
    simp only [TrackerConfig.learnerNextSet, Places.left]
    cases places key <;> rfl
  progress := by
    intro key
    have flag := rep.progress key
    have next : cfg.learnerNextSet.keys.contains key = (places key).isNext := by
      rw [← rep.learnersNext, Bool.eq_iff_iff, List.contains_iff_mem, IdMap.contains_iff]
    rw [get?_foldl_erase]
    simp only [mem_gone rep key, IdMap.get?_mapValues, next, Places.left]
    cases place : places key <;> rw [place] at flag <;>
      cases found : trk.get? key <;> rw [found] at flag <;>
      simp_all [Place.flag, Place.leave, Place.isNext]
  nilOutgoing := nofun
  nilLearners := nilIfEmpty_foldl_nilAwareAdd _ rep.nilLearners
  nilNext := nofun

/-- When `LeaveJoint` succeeds, what it leads to, and its error. -/
theorem leaveJoint_spec (ok : Configured c.tracker.config c.tracker.progress places)
    : Ends c.leaveJoint
        (fun res => ¬places.Settled ∧ Configured res.1 res.2 places.left)
        (fun err => places.Settled ∧ err = .leaveNonJoint) := by
  have rep := ok.toRepresents
  unfold leaveJoint
  rw [rep.checkAndCopy, except_ok_bind]
  refine Ends.ite (fun notJoint => ?_) fun joint => ?_
  · exact ⟨rep.clone.joint_eq_false.mp (by simpa using notJoint), rfl⟩
  have joint : ¬places.Settled := by
    intro settled
    rw [rep.clone.joint_eq_false.mpr settled] at joint
    exact joint rfl
  have left := represents_left rep.clone
  refine Ends.of_ok (left.checkAndReturn fun _ => rfl) ⟨joint, {
    toRepresents := left
    autoLeave := fun _ => rfl
    zero := ?_
    voted := ?_ }⟩
  · rw [Places.left, ok.zero]
    rfl
  · rcases ok.voted with ⟨id, voter⟩ | none
    · exact .inl ⟨id, (Place.isIncoming_leave _).trans voter⟩
    · refine .inr fun id => ?_
      rw [Places.left, none id]
      rfl

end Changer

end EtcdRaft
