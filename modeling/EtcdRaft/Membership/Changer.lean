import EtcdRaft.Foundation.Outcome
import EtcdRaft.Membership.Places

/-! The operations of the `Changer` on configurations that stand for places. -/

namespace EtcdRaft

variable {cfg cfg' : TrackerConfig} {trk trk' : ProgressMap} {places : Places}

-----------------------------------------------------------------------------------------
-- Sets that may be nil
-----------------------------------------------------------------------------------------

/-- A set without members is nil. -/
def NilIfEmpty (s : Option IdSet) : Prop := ∀ m, s = some m → m.size ≠ 0

theorem contains_insertId (s : IdSet) (id key : Nat)
    : (s.insertId id).contains key = (decide (key = id) || s.contains key) :=
  IdMap.contains_insert s id key ()

theorem contains_nilAwareAdd (s : Option IdSet) (id key : Nat)
    : (IdSet.ofNil (nilAwareAdd s id)).contains key
      = (decide (key = id) || (IdSet.ofNil s).contains key) :=
  contains_insertId _ _ _

theorem nilIfEmpty_nilAwareAdd (s : Option IdSet) (id : Nat)
    : NilIfEmpty (nilAwareAdd s id) := by
  intro m same
  cases same
  refine IdMap.size_ne_zero.mpr ⟨id, ?_⟩
  rw [contains_insertId]
  simp

theorem contains_nilAwareDelete (s : Option IdSet) (id key : Nat)
    : (IdSet.ofNil (nilAwareDelete s id)).contains key
      = (!decide (key = id) && (IdSet.ofNil s).contains key) := by
  cases s with
  | none => simp [nilAwareDelete, IdSet.ofNil]
  | some m =>
      have erased := IdMap.contains_erase m id key
      by_cases empty : (m.erase id).size = 0
      · have missing := IdMap.size_eq_zero.mp empty key
        simp only [nilAwareDelete, empty, ↓reduceIte, IdSet.ofNil, Option.getD_none,
          IdMap.contains_empty, Option.getD_some]
        rw [← erased, missing]
      · simp only [nilAwareDelete, empty, ↓reduceIte, IdSet.ofNil, Option.getD_some]
        exact erased

theorem nilIfEmpty_nilAwareDelete (s : Option IdSet) (id : Nat)
    : NilIfEmpty (nilAwareDelete s id) := by
  intro m same
  cases s with
  | none => cases same
  | some old =>
      by_cases empty : (old.erase id).size = 0
      · simp [nilAwareDelete, empty] at same
      · simp only [nilAwareDelete, empty, ↓reduceIte, Option.some.injEq] at same
        rw [← same]
        exact empty

/-- Sets with the same members are equal, nil or not. -/
theorem NilIfEmpty.ext {s s' : Option IdSet} (ok : NilIfEmpty s) (ok' : NilIfEmpty s')
    (same : ∀ id, (IdSet.ofNil s).contains id = (IdSet.ofNil s').contains id)
    : s = s' := by
  cases s with
  | none =>
      cases s' with
      | none => rfl
      | some m' =>
          obtain ⟨id, member⟩ := IdMap.size_ne_zero.mp (ok' m' rfl)
          have := same id
          simp only [IdSet.ofNil, Option.getD_none, Option.getD_some, IdMap.contains_empty] at this
          rw [member] at this
          cases this
  | some m =>
      cases s' with
      | none =>
          obtain ⟨id, member⟩ := IdMap.size_ne_zero.mp (ok m rfl)
          have := same id
          simp only [IdSet.ofNil, Option.getD_none, Option.getD_some, IdMap.contains_empty] at this
          rw [member] at this
          cases this
      | some m' => exact congrArg some (IdMap.ext_contains same)

-----------------------------------------------------------------------------------------
-- Configurations that stand for places
-----------------------------------------------------------------------------------------

/-- The sets of the configuration and the progress map are those of the places. -/
structure Represents (cfg : TrackerConfig) (trk : ProgressMap)
    (places : Places) : Prop where
  incoming : ∀ id, cfg.voters.incoming.contains id = (places id).isIncoming
  outgoing : ∀ id, cfg.voters.outgoingSet.contains id = (places id).isOutgoing
  learners : ∀ id, cfg.learnerSet.contains id = (places id).isLearner
  learnersNext : ∀ id, cfg.learnerNextSet.contains id = (places id).isNext
  progress : ∀ id, (trk.get? id).map Progress.isLearner = (places id).flag
  nilOutgoing : NilIfEmpty cfg.voters.outgoing
  nilLearners : NilIfEmpty cfg.learners
  nilNext : NilIfEmpty cfg.learnersNext

namespace Represents

theorem empty : Represents {} .empty fun _ => .absent where
  incoming := fun _ => rfl
  outgoing := fun _ => rfl
  learners := fun _ => rfl
  learnersNext := fun _ => rfl
  progress := fun _ => rfl
  nilOutgoing := nofun
  nilLearners := nofun
  nilNext := nofun

theorem contains (rep : Represents cfg trk places) (id : Nat)
    : trk.contains id = (places id).flag.isSome := by
  rw [← rep.progress id, Option.isSome_map]
  rfl

theorem joint_eq_false (rep : Represents cfg trk places)
    : cfg.joint = false ↔ places.Settled := by
  unfold TrackerConfig.joint Places.Settled Place.Settled
  simp only [decide_eq_false_iff_not, gt_iff_lt, Nat.not_lt, Nat.le_zero, IdMap.size_eq_zero,
    rep.outgoing]

/-- The configuration, up to `AutoLeave`, is determined by the places. -/
theorem config_eq (rep : Represents cfg trk places) (rep' : Represents cfg' trk' places)
    (autoLeave : cfg.autoLeave = cfg'.autoLeave)
    : cfg = cfg' := by
  have incoming : cfg.voters.incoming = cfg'.voters.incoming :=
    IdMap.ext_contains fun id => (rep.incoming id).trans (rep'.incoming id).symm
  have outgoing : cfg.voters.outgoing = cfg'.voters.outgoing :=
    rep.nilOutgoing.ext rep'.nilOutgoing fun id => (rep.outgoing id).trans (rep'.outgoing id).symm
  have learners : cfg.learners = cfg'.learners :=
    rep.nilLearners.ext rep'.nilLearners fun id => (rep.learners id).trans (rep'.learners id).symm
  have learnersNext : cfg.learnersNext = cfg'.learnersNext :=
    rep.nilNext.ext rep'.nilNext fun id =>
      (rep.learnersNext id).trans (rep'.learnersNext id).symm
  obtain ⟨⟨i, o⟩, a, l, n⟩ := cfg
  obtain ⟨⟨i', o'⟩, a', l', n'⟩ := cfg'
  simp only at incoming outgoing learners learnersNext autoLeave
  rw [incoming, outgoing, learners, learnersNext, autoLeave]

/-- There is a voter in the incoming half. -/
theorem size_ne_zero (rep : Represents cfg trk places)
    : cfg.voters.incoming.size ≠ 0 ↔ places.Voted := by
  rw [IdMap.size_ne_zero]
  simp only [rep.incoming]
  rfl

/-- What changes at one node only. -/
theorem update {id : Nat} {place : Place} (rep : Represents cfg trk places)
    (incoming : ∀ key, cfg'.voters.incoming.contains key
      = if key = id then place.isIncoming else cfg.voters.incoming.contains key)
    (outgoing : cfg'.voters.outgoing = cfg.voters.outgoing)
    (same : place.isOutgoing = (places id).isOutgoing)
    (learners : ∀ key, (IdSet.ofNil cfg'.learners).contains key
      = if key = id then place.isLearner else (IdSet.ofNil cfg.learners).contains key)
    (learnersNext : ∀ key, (IdSet.ofNil cfg'.learnersNext).contains key
      = if key = id then place.isNext else (IdSet.ofNil cfg.learnersNext).contains key)
    (progress : ∀ key, (trk'.get? key).map Progress.isLearner
      = if key = id then place.flag else (trk.get? key).map Progress.isLearner)
    (nilLearners : NilIfEmpty cfg'.learners) (nilNext : NilIfEmpty cfg'.learnersNext)
    : Represents cfg' trk' (Function.update places id place) where
  incoming := by
    intro key
    rw [incoming, Function.update_apply, rep.incoming]
    split <;> rfl
  outgoing := by
    intro key
    rw [JointConfig.outgoingSet, outgoing, Function.update_apply]
    split
    · rename_i here
      rw [same, here]
      exact rep.outgoing id
    · exact rep.outgoing key
  learners := by
    intro key
    rw [TrackerConfig.learnerSet, learners, Function.update_apply]
    split
    · rfl
    · exact rep.learners key
  learnersNext := by
    intro key
    rw [TrackerConfig.learnerNextSet, learnersNext, Function.update_apply]
    split
    · rfl
    · exact rep.learnersNext key
  progress := by
    intro key
    rw [progress, Function.update_apply, rep.progress]
    split <;> rfl
  nilOutgoing := outgoing ▸ rep.nilOutgoing
  nilLearners := nilLearners
  nilNext := nilNext

end Represents

-----------------------------------------------------------------------------------------
-- Single changes
-----------------------------------------------------------------------------------------

namespace Changer

variable {c : Changer} {id : Nat}

/-- A function that does not change has its value at `id` as before. -/
theorem eq_ite_of_eq {f : Nat → Bool} {b : Bool} (here : f id = b) (key : Nat)
    : f key = if key = id then b else f key := by
  split
  · rename_i same
    rw [same, here]
  · rfl

theorem represents_initProgress (rep : Represents cfg trk places)
    (absent : places id = .absent) (isLearner : Bool)
    : Represents (c.initProgress cfg trk id isLearner).1 (c.initProgress cfg trk id isLearner).2
        (Function.update places id (if isLearner then .learner else .incoming)) := by
  have incoming := rep.incoming id
  have learners := rep.learners id
  have next := rep.learnersNext id
  rw [absent] at incoming learners next
  cases isLearner with
  | true =>
      refine rep.update (eq_ite_of_eq incoming) rfl (by rw [absent]; rfl) (fun key => ?_)
        (eq_ite_of_eq next) (fun key => ?_) (nilIfEmpty_nilAwareAdd _ _) rep.nilNext
      · by_cases same : key = id <;>
          simp [initProgress, contains_nilAwareAdd, same, Place.isLearner]
      · by_cases same : key = id <;> simp [initProgress, same, Place.flag]
  | false =>
      refine rep.update (fun key => ?_) rfl (by rw [absent]; rfl) (eq_ite_of_eq learners)
        (eq_ite_of_eq next) (fun key => ?_) rep.nilLearners rep.nilNext
      · by_cases same : key = id <;>
          simp [initProgress, contains_insertId, same, Place.isIncoming]
      · by_cases same : key = id <;> simp [initProgress, same, Place.flag]

theorem represents_makeVoter (rep : Represents cfg trk places) (id : Nat)
    : Represents (c.makeVoter cfg trk id).1 (c.makeVoter cfg trk id).2
        (Function.update places id (places id).makeVoter) := by
  have flag := rep.progress id
  unfold makeVoter
  cases found : trk.get? id with
  | none =>
      rw [found] at flag
      have absent : places id = .absent := by
        cases place : places id <;> simp [place, Place.flag] at flag ⊢
      rw [absent]
      exact represents_initProgress rep absent false
  | some pr =>
      rw [found] at flag
      refine rep.update (fun key => ?_) rfl ?_ (fun key => ?_) (fun key => ?_) (fun key => ?_)
        (nilIfEmpty_nilAwareDelete _ _) (nilIfEmpty_nilAwareDelete _ _)
      · by_cases same : key = id
        · simp only [contains_insertId, same, decide_true, Bool.true_or, ↓reduceIte]
          cases places id <;> rfl
        · simp [contains_insertId, same]
      · cases places id <;> rfl
      · by_cases same : key = id
        · simp only [contains_nilAwareDelete, same, decide_true, Bool.not_true, Bool.false_and,
            ↓reduceIte]
          cases places id <;> rfl
        · simp [contains_nilAwareDelete, same]
      · by_cases same : key = id
        · simp only [contains_nilAwareDelete, same, decide_true, Bool.not_true, Bool.false_and,
            ↓reduceIte]
          cases places id <;> rfl
        · simp [contains_nilAwareDelete, same]
      · by_cases same : key = id
        · simp only [IdMap.get?_insert, same, ↓reduceIte, Option.map_some]
          cases places id <;> rfl
        · simp [same]

theorem represents_remove (rep : Represents cfg trk places) (id : Nat)
    : Represents (remove cfg trk id).1 (remove cfg trk id).2
        (Function.update places id (places id).remove) := by
  have tracked := rep.contains id
  unfold remove
  by_cases missing : trk.contains id = false
  · have absent : places id = .absent := by
      rw [missing] at tracked
      cases place : places id <;> simp [place, Place.flag] at tracked ⊢
    rw [missing]
    have same : Function.update places id (places id).remove = places := by
      rw [absent, ← show places id = Place.absent.remove from absent, Function.update_eq_self]
    rw [same]
    exact rep
  · rw [Bool.not_eq_false] at missing
    have outgoing := rep.outgoing id
    rw [missing] at tracked ⊢
    refine rep.update (fun key => ?_) rfl ?_ (fun key => ?_) (fun key => ?_) (fun key => ?_)
      (nilIfEmpty_nilAwareDelete _ _) (nilIfEmpty_nilAwareDelete _ _)
    · by_cases same : key = id
      · simp only [Bool.not_true, Bool.false_eq_true, ↓reduceIte, IdMap.contains_erase, same,
          decide_true, Bool.false_and]
        cases places id <;> rfl
      · simp [same]
    · cases places id <;> rfl
    · by_cases same : key = id
      · simp only [Bool.not_true, Bool.false_eq_true, ↓reduceIte, contains_nilAwareDelete, same,
          decide_true, Bool.false_and]
        cases places id <;> rfl
      · simp [contains_nilAwareDelete, same]
    · by_cases same : key = id
      · simp only [Bool.not_true, Bool.false_eq_true, ↓reduceIte, contains_nilAwareDelete, same,
          decide_true, Bool.false_and]
        cases places id <;> rfl
      · simp [contains_nilAwareDelete, same]
    · have flag := rep.progress id
      have kept : cfg.voters.outgoingSet.contains id = (places id).isOutgoing := outgoing
      simp only [Bool.not_true, Bool.false_eq_true, ↓reduceIte]
      show Option.map _ (IdMap.get? (if cfg.voters.outgoingSet.contains id = true then trk
        else trk.erase id) key) = _
      rw [kept]
      by_cases same : key = id
      · subst same
        cases place : places key
          <;> simp [place, Place.isOutgoing, Place.remove, Place.flag] at flag tracked ⊢
          <;> exact flag
      · split <;> simp [same]

theorem remove_keeps (cfg : TrackerConfig) (trk : ProgressMap) (id : Nat)
    : (remove cfg trk id).1.voters.outgoing = cfg.voters.outgoing
      ∧ (remove cfg trk id).1.autoLeave = cfg.autoLeave := by
  unfold remove
  split <;> exact ⟨rfl, rfl⟩

theorem makeLearner_keeps (cfg : TrackerConfig) (trk : ProgressMap) (id : Nat)
    : (c.makeLearner cfg trk id).1.voters.outgoing = cfg.voters.outgoing
      ∧ (c.makeLearner cfg trk id).1.autoLeave = cfg.autoLeave := by
  have removed := remove_keeps cfg trk id
  unfold makeLearner
  cases trk.get? id with
  | none => exact ⟨rfl, rfl⟩
  | some pr =>
      dsimp only
      split
      · exact ⟨rfl, rfl⟩
      · split <;> exact removed

theorem represents_makeLearner (rep : Represents cfg trk places) (id : Nat)
    : Represents (c.makeLearner cfg trk id).1 (c.makeLearner cfg trk id).2
        (Function.update places id (places id).makeLearner) := by
  have flag := rep.progress id
  unfold makeLearner
  cases found : trk.get? id with
  | none =>
      rw [found] at flag
      have absent : places id = .absent := by
        cases place : places id <;> simp [place, Place.flag] at flag ⊢
      rw [absent]
      exact represents_initProgress rep absent true
  | some pr =>
      rw [found, Option.map_some] at flag
      by_cases already : pr.isLearner = true
      · have learner : places id = .learner := by
          rw [already] at flag
          cases place : places id <;> simp [place, Place.flag] at flag ⊢
        have same : Function.update places id (places id).makeLearner = places := by
          rw [learner, ← show places id = Place.learner.makeLearner from learner,
            Function.update_eq_self]
        simp only [already, ↓reduceIte]
        rw [same]
        exact rep
      · have removed := represents_remove rep id
        have outgoing := removed.outgoing id
        rw [Function.update_self] at outgoing
        have idem := Function.update_idem (places id).remove (places id).makeLearner places
          (a := id)
        simp only [already, Bool.false_eq_true, ↓reduceIte]
        rw [← idem]
        rw [Bool.not_eq_true] at already
        have incoming := removed.incoming id
        have learners := removed.learners id
        have next := removed.learnersNext id
        rw [Function.update_self] at incoming learners next
        have place : (places id).remove = .outgoing ∧ (places id).makeLearner = .demoted
            ∨ (places id).remove = .absent ∧ (places id).makeLearner = .learner := by
          rw [already] at flag
          cases place : places id
            <;> simp [place, Place.flag, Place.remove, Place.makeLearner] at flag ⊢
        rcases place with ⟨was, now⟩ | ⟨was, now⟩
        · rw [was] at outgoing incoming learners next removed
          have kept : (remove cfg trk id).1.voters.outgoingSet.contains id = true :=
            outgoing
          rw [was, now, if_pos kept]
          refine removed.update (eq_ite_of_eq incoming) rfl ?_ (eq_ite_of_eq learners)
            (fun key => ?_) (fun key => ?_) removed.nilLearners (nilIfEmpty_nilAwareAdd _ _)
          · rw [Function.update_self]
            rfl
          · by_cases same : key = id <;> simp [contains_nilAwareAdd, same, Place.isNext]
          · by_cases same : key = id <;> simp [same, Place.flag, already]
        · rw [was] at outgoing incoming learners next removed
          have gone : ¬(remove cfg trk id).1.voters.outgoingSet.contains id = true := by
            rw [outgoing]
            exact Bool.false_ne_true
          rw [was, now, if_neg gone]
          refine removed.update (eq_ite_of_eq incoming) rfl ?_ (fun key => ?_)
            (eq_ite_of_eq next) (fun key => ?_) (nilIfEmpty_nilAwareAdd _ _) removed.nilNext
          · rw [Function.update_self]
            rfl
          · by_cases same : key = id <;> simp [contains_nilAwareAdd, same, Place.isLearner]
          · by_cases same : key = id <;> simp [same, Place.flag]

/-- A single change moves its node; only an unknown type is refused. -/
theorem applySingle_spec (rep : Represents cfg trk places) (cc : ConfChangeSingle)
    : Ends (c.applySingle cfg trk cc)
        (fun res => Places.Known cc ∧ Represents res.1 res.2 (places.change cc)
          ∧ res.1.voters.outgoing = cfg.voters.outgoing ∧ res.1.autoLeave = cfg.autoLeave)
        (fun err => ¬Places.Known cc ∧ ∃ value, err = .unexpectedConfType (.unknown value)) := by
  unfold applySingle Places.change
  by_cases zero : cc.nodeId = 0
  · rw [if_pos zero, if_pos zero]
    exact ⟨.inl zero, rep, rfl, rfl⟩
  rw [if_neg zero, if_neg zero]
  cases type : cc.type with
  | confChangeAddNode =>
      refine ⟨.inr (by simp [type]), represents_makeVoter rep _, ?_⟩
      unfold makeVoter
      cases trk.get? cc.nodeId <;> exact ⟨rfl, rfl⟩
  | confChangeAddLearnerNode =>
      exact ⟨.inr (by simp [type]), represents_makeLearner rep _, makeLearner_keeps cfg trk _⟩
  | confChangeRemoveNode =>
      exact ⟨.inr (by simp [type]), represents_remove rep _, remove_keeps cfg trk cc.nodeId⟩
  | confChangeUpdateNode =>
      refine ⟨.inr (by simp [type]), ?_, rfl, rfl⟩
      rw [show (places cc.nodeId).change .confChangeUpdateNode = places cc.nodeId from rfl,
        Function.update_eq_self]
      exact rep
  | unknown value =>
      refine ⟨?_, value, rfl⟩
      rintro (isZero | known)
      · exact zero isZero
      · exact known value type

/-- The changes of `apply`, one after the other. -/
theorem foldlM_applySingle_spec (rep : Represents cfg trk places)
    (ccs : List ConfChangeSingle)
    : Ends (ccs.foldlM (fun s cc => c.applySingle s.1 s.2 cc) (cfg, trk))
        (fun res => (∀ cc ∈ ccs, Places.Known cc) ∧ Represents res.1 res.2 (places.changes ccs)
          ∧ res.1.voters.outgoing = cfg.voters.outgoing ∧ res.1.autoLeave = cfg.autoLeave)
        (fun err => (¬∀ cc ∈ ccs, Places.Known cc)
          ∧ ∃ value, err = .unexpectedConfType (.unknown value)) := by
  induction ccs generalizing cfg trk places with
  | nil => exact ⟨nofun, rep, rfl, rfl⟩
  | cons cc rest ih =>
      rw [List.foldlM_cons]
      refine Ends.bind ((applySingle_spec rep cc).mono (fun _ done => done) ?_) ?_
      · rintro err ⟨unknown, value⟩
        exact ⟨fun all => unknown (all cc List.mem_cons_self), value⟩
      · rintro ⟨cfg', trk'⟩ ⟨known, rep', outgoing, autoLeave⟩
        refine (ih rep').mono ?_ ?_
        · rintro res ⟨all, done, outgoing', autoLeave'⟩
          exact ⟨List.forall_mem_cons.mpr ⟨known, all⟩, done, outgoing'.trans outgoing,
            autoLeave'.trans autoLeave⟩
        · rintro err ⟨unknown, value⟩
          exact ⟨fun all => unknown (List.forall_mem_cons.mp all).2, value⟩

end Changer

-----------------------------------------------------------------------------------------
-- The checks
-----------------------------------------------------------------------------------------

theorem contains_foldl_insertId (ids : List Nat) (s : IdSet) (key : Nat)
    : (ids.foldl IdSet.insertId s).contains key
      = (decide (key ∈ ids) || s.contains key) := by
  induction ids generalizing s with
  | nil => simp
  | cons id rest ih =>
      rw [List.foldl_cons, ih, contains_insertId]
      by_cases same : key = id <;> simp [same]

/-- `IDs` are the members of both halves. -/
theorem JointConfig.contains_ids (v : JointConfig) (id : Nat)
    : v.ids.contains id = (v.incoming.contains id || v.outgoingSet.contains id) := by
  rw [JointConfig.ids, contains_foldl_insertId, Bool.or_comm]
  congr 1
  rw [Bool.eq_iff_iff, decide_eq_true_iff, IdMap.contains_iff]

theorem checkIds_ok {ids : List Nat} {check : Nat → Except ConfChangeError Unit}
    (each : ∀ id ∈ ids, check id = .ok ())
    : checkIds ids check = .ok () := by
  unfold checkIds
  induction ids with
  | nil => rfl
  | cons id rest ih =>
      unfold List.forM
      rw [each id List.mem_cons_self]
      exact ih fun id member => each id (List.mem_cons_of_mem _ member)

namespace Represents

/-- Every member of a set of the configuration has a place, so it is tracked. -/
theorem checkIds_tracked (rep : Represents cfg trk places) {s : IdSet}
    (inside : ∀ id, s.contains id = true → places id ≠ .absent)
    : checkIds s.keys (fun id => if trk.contains id = true then Except.ok ()
        else Except.error (ConfChangeError.noProgress id)) = .ok () := by
  refine checkIds_ok fun id member => ?_
  have present := inside id (IdMap.contains_iff.mpr member)
  have tracked : trk.contains id = true := by
    rw [rep.contains]
    cases place : places id <;> first | rfl | exact absurd place present
  rw [if_pos tracked]

theorem any_isLearner (rep : Represents cfg trk places) (id : Nat)
    : (trk.get? id).any Progress.isLearner = (places id).isLearner := by
  have flag := rep.progress id
  cases found : trk.get? id with
  | none =>
      rw [found] at flag
      cases place : places id <;> rw [place] at flag <;> first | rfl | cases flag
  | some pr =>
      rw [found, Option.map_some] at flag
      rw [Option.any_some]
      cases place : places id <;> rw [place] at flag
      <;> first | exact Option.some.inj flag | cases flag

theorem outgoing_eq_none (rep : Represents cfg trk places) (settled : places.Settled)
    : cfg.voters.outgoing = none :=
  rep.nilOutgoing.ext nofun fun id => (rep.outgoing id).trans (settled id)

theorem learnersNext_eq_none (rep : Represents cfg trk places) (settled : places.Settled)
    : cfg.learnersNext = none := by
  refine rep.nilNext.ext nofun fun id => (rep.learnersNext id).trans ?_
  have here := settled id
  cases place : places id <;> rw [place] at here <;> first | rfl | cases here

/-- The invariants that the code checks hold of any places. -/
theorem checkInvariants (rep : Represents cfg trk places)
    (autoLeave : cfg.joint = false → cfg.autoLeave = false)
    : checkInvariants cfg trk = .ok () := by
  have voters : ∀ id, cfg.voters.ids.contains id = true → places id ≠ .absent := by
    intro id member absent
    rw [JointConfig.contains_ids, rep.incoming, rep.outgoing, absent] at member
    cases member
  have learners : ∀ id, cfg.learnerSet.contains id = true → places id = .learner := by
    intro id member
    rw [rep.learners] at member
    cases place : places id <;> rw [place] at member <;> first | rfl | cases member
  have next : ∀ id, cfg.learnerNextSet.contains id = true → places id = .demoted := by
    intro id member
    rw [rep.learnersNext] at member
    cases place : places id <;> rw [place] at member <;> first | rfl | cases member
  have tracked := rep.checkIds_tracked voters
  have trackedLearners := rep.checkIds_tracked fun id member => by
    rw [learners id member]
    exact nofun
  have trackedNext := rep.checkIds_tracked fun id member => by
    rw [next id member]
    exact nofun
  unfold EtcdRaft.checkInvariants
  simp only [except_pure, except_throw, List.forIn_cons, List.forIn_nil, bind_assoc,
    except_ok_bind, Bool.not_eq_eq_eq_not, Bool.not_true, except_error_bind]
  rw [tracked, except_ok_bind, trackedLearners, except_ok_bind, trackedNext, except_ok_bind,
    checkIds_ok, except_ok_bind, checkIds_ok, except_ok_bind]
  · by_cases joint : cfg.joint = false
    · have settled := rep.joint_eq_false.mp joint
      simp [joint, rep.outgoing_eq_none settled, rep.learnersNext_eq_none settled,
        autoLeave joint]
    · rw [if_neg joint]
  · intro id member
    have place := learners id (IdMap.contains_iff.mpr member)
    simp [rep.outgoing, rep.incoming, rep.any_isLearner, place, Place.isOutgoing,
      Place.isIncoming, Place.isLearner]
  · intro id member
    have place := next id (IdMap.contains_iff.mpr member)
    simp [rep.outgoing, rep.any_isLearner, place, Place.isOutgoing, Place.isLearner]

end Represents

end EtcdRaft
