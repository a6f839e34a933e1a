import EtcdRaft.Membership.Reachable
import EtcdRaft.Model.Step

/-! `Restore` rebuilds every configuration from its `ConfState`. -/

namespace EtcdRaft

variable {places : Places} {c : Changer}

-----------------------------------------------------------------------------------------
-- Lists of changes of one type
-----------------------------------------------------------------------------------------

/-- The same change for a list of nodes. -/
def changesOf (type : ConfChangeType) (ids : List Nat) : List ConfChangeSingle :=
  ids.map fun id => { type := type, nodeId := id }

theorem Places.changes_append (places : Places) (ccs ccs' : List ConfChangeSingle)
    : places.changes (ccs ++ ccs') = (places.changes ccs).changes ccs' :=
  List.foldl_append

theorem Places.changes_changesOf (places : Places) (type : ConfChangeType)
    {ids : List Nat} (nodup : ids.Nodup) (nonzero : 0 ∉ ids)
    : places.changes (changesOf type ids)
      = fun id => if id ∈ ids then (places id).change type else places id := by
  induction ids generalizing places with
  | nil => simp [changesOf, Places.changes]
  | cons first rest ih =>
      obtain ⟨fresh, nodup⟩ := List.nodup_cons.mp nodup
      obtain ⟨firstNonzero, restNonzero⟩ := not_or.mp (List.mem_cons.not.mp nonzero)
      have one : places.change { type := type, nodeId := first }
          = Function.update places first ((places first).change type) :=
        if_neg (Ne.symm firstNonzero)
      show (places.change _).changes (changesOf type rest) = _
      rw [one, ih _ nodup restNonzero]
      funext id
      rw [Function.update_apply]
      by_cases same : id = first
      · subst same
        simp [fresh]
      · simp [same]

theorem known_changesOf {type : ConfChangeType} (known : ∀ value, type ≠ .unknown value)
    (ids : List Nat)
    : ∀ cc ∈ changesOf type ids, Places.Known cc := by
  intro cc member
  obtain ⟨id, _, rfl⟩ := List.mem_map.mp member
  exact .inr known

-----------------------------------------------------------------------------------------
-- Changes one by one
-----------------------------------------------------------------------------------------

/-- `Simple` with a single change succeeds as long as there is a voter. -/
theorem Changer.simple_single {cc : ConfChangeSingle}
    (ok : Configured c.tracker.config c.tracker.progress places)
    (settled : places.Settled)
    (known : Places.Known cc) (voted : (places.change cc).Voted)
    : ∃ cfg trk, c.simple [cc] = .ok (cfg, trk)
      ∧ Configured cfg trk (places.change cc) := by
  obtain ⟨⟨cfg, trk⟩, done, _, _, ok', _⟩ := (simple_spec ok [cc]).exists_ok (by
    rintro err (⟨joint, _⟩ | ⟨_, ⟨unknown, _⟩ | ⟨_, empty, _⟩ | ⟨many, _⟩⟩)
    · exact joint settled
    · exact unknown (List.forall_mem_singleton.mpr known)
    · exact empty voted
    · exact many (places.oneVoter_change cc))
  exact ⟨cfg, trk, done, ok'⟩

/-- A chain of single changes, with a voter after each of them. -/
theorem chain_simples {ccs : List ConfChangeSingle}
    (ok : Configured c.tracker.config c.tracker.progress places)
    (settled : places.Settled) (known : ∀ cc ∈ ccs, Places.Known cc)
    (voted : ∀ k < ccs.length, (places.changes (ccs.take (k + 1))).Voted)
    : ∃ c', chain c (ccs.map fun cc c => c.simple [cc]) = .ok c'
      ∧ Configured c'.tracker.config c'.tracker.progress (places.changes ccs) := by
  induction ccs generalizing c places with
  | nil => exact ⟨c, rfl, ok⟩
  | cons cc rest ih =>
      obtain ⟨knownFirst, knownRest⟩ := List.forall_mem_cons.mp known
      have first : (places.change cc).Voted := by
        simpa [Places.changes] using voted 0 (Nat.zero_lt_succ _)
      obtain ⟨cfg, trk, done, ok'⟩ := Changer.simple_single ok settled knownFirst first
      have settled' : (places.change cc).Settled :=
        (Places.settled_changes [cc]).mpr settled
      obtain ⟨c', chained, ok''⟩ := ih
        (c := { c with tracker := { c.tracker with config := cfg, progress := trk } })
        ok' settled' knownRest fun k within => by
          simpa [Places.changes] using voted (k + 1) (Nat.succ_lt_succ within)
      refine ⟨c', ?_, ok''⟩
      unfold chain at chained ⊢
      rw [List.map_cons, List.foldlM_cons]
      dsimp only
      rw [done]
      exact chained

/-- A voter stays one if all the changes of it add it. -/
theorem Places.isIncoming_changes {ccs : List ConfChangeSingle} {v : Nat}
    (voter : (places v).isIncoming = true)
    (keeps : ∀ cc ∈ ccs, cc.type = .confChangeAddNode ∨ cc.nodeId ≠ v)
    : (places.changes ccs v).isIncoming = true := by
  induction ccs generalizing places with
  | nil => exact voter
  | cons cc rest ih =>
      obtain ⟨first, keeps⟩ := List.forall_mem_cons.mp keeps
      refine ih ?_ keeps
      unfold Places.change
      split
      · exact voter
      · rw [Function.update_apply]
        split
        · rename_i same
          have add := first.resolve_right fun other => other same.symm
          rw [add]
          cases places cc.nodeId <;> rfl
        · exact voter

/-- From the empty configuration, the first change adds a voter that stays one. -/
theorem chain_simples_empty {v : Nat} {ccs : List ConfChangeSingle}
    (blank : c.tracker.config = {} ∧ c.tracker.progress = .empty) (nonzero : v ≠ 0)
    (known : ∀ cc ∈ ccs, Places.Known cc)
    (keeps : ∀ cc ∈ ccs, cc.type = .confChangeAddNode ∨ cc.nodeId ≠ v)
    : ∃ c', chain c (({ nodeId := v } :: ccs).map fun cc c => c.simple [cc]) = .ok c'
      ∧ Configured c'.tracker.config c'.tracker.progress
        (Places.changes (fun _ => .absent) ({ nodeId := v } :: ccs)) := by
  refine chain_simples (by rw [blank.1, blank.2]; exact .empty) (fun _ => rfl)
    (List.forall_mem_cons.mpr ⟨.inr nofun, known⟩) fun k _ => ?_
  refine ⟨v, ?_⟩
  rw [List.take_succ_cons]
  have kept : ∀ cc ∈ ccs.take k, cc.type = .confChangeAddNode ∨ cc.nodeId ≠ v :=
    fun cc member => keeps cc (List.mem_of_mem_take member)
  show (Places.changes (Places.change (fun _ => .absent) { nodeId := v }) (ccs.take k) v).isIncoming
    = true
  refine Places.isIncoming_changes ?_ kept
  simp [Places.change, nonzero, Place.change, Place.makeVoter, Place.isIncoming]

-----------------------------------------------------------------------------------------
-- Restore
-----------------------------------------------------------------------------------------

/-- The changes that `Restore` makes, for the four lists of a `ConfState`. -/
theorem toConfChangeSingle_eq (cs : ConfState)
    : toConfChangeSingle cs = (changesOf .confChangeAddNode cs.votersOutgoing,
        changesOf .confChangeRemoveNode cs.votersOutgoing
          ++ changesOf .confChangeAddNode cs.voters
          ++ changesOf .confChangeAddLearnerNode cs.learners
          ++ changesOf .confChangeAddLearnerNode cs.learnersNext) :=
  rfl

section Lists

variable {cfg : TrackerConfig} {trk : ProgressMap} (ok : Configured cfg trk places)

include ok

theorem mem_voters (id : Nat)
    : id ∈ cfg.confState.voters ↔ (places id).isIncoming = true := by
  rw [← ok.incoming, IdMap.contains_iff]
  rfl

theorem mem_votersOutgoing (id : Nat)
    : id ∈ cfg.confState.votersOutgoing ↔ (places id).isOutgoing = true := by
  rw [← ok.outgoing, IdMap.contains_iff]
  rfl

theorem mem_learners (id : Nat)
    : id ∈ cfg.confState.learners ↔ (places id).isLearner = true := by
  rw [← ok.learners, IdMap.contains_iff]
  rfl

theorem mem_learnersNext (id : Nat)
    : id ∈ cfg.confState.learnersNext ↔ (places id).isNext = true := by
  rw [← ok.learnersNext, IdMap.contains_iff]
  rfl

/-- The same change for all the nodes that are at certain places. -/
theorem changes_listed {l : List Nat} {q : Place → Bool}
    (listed : ∀ id, id ∈ l ↔ q (places id) = true) (nodup : l.Nodup)
    (never : q .absent = false) (start : Places) (type : ConfChangeType)
    : start.changes (changesOf type l)
      = fun id => if q (places id) then (start id).change type else start id := by
  have nonzero : 0 ∉ l := by
    rw [listed, ok.zero, never]
    exact Bool.false_ne_true
  rw [Places.changes_changesOf _ _ nodup nonzero]
  simp only [listed]

/-- The places that the four lists of changes lead to. -/
theorem changes_confState (start : Places)
    : start.changes (toConfChangeSingle cfg.confState).2
      = fun id =>
        let place := if (places id).isOutgoing then (start id).remove else start id
        let place := if (places id).isIncoming then place.makeVoter else place
        let place := if (places id).isLearner then place.makeLearner else place
        if (places id).isNext then place.makeLearner else place := by
  rw [toConfChangeSingle_eq]
  simp only [Places.changes_append]
  rw [changes_listed ok (mem_votersOutgoing ok) (IdMap.keys_nodup _) rfl,
    changes_listed ok (mem_voters ok) (IdMap.keys_nodup _) rfl,
    changes_listed ok (mem_learners ok) (IdMap.keys_nodup _) rfl,
    changes_listed ok (mem_learnersNext ok) (IdMap.keys_nodup _) rfl]
  rfl

omit ok in
theorem known_confState (cfg : TrackerConfig)
    : ∀ cc ∈ (toConfChangeSingle cfg.confState).2, Places.Known cc := by
  rw [toConfChangeSingle_eq]
  simp only [List.mem_append]
  rintro cc (((removed | added) | learner) | next)
  · exact known_changesOf (by simp) _ cc removed
  · exact known_changesOf (by simp) _ cc added
  · exact known_changesOf (by simp) _ cc learner
  · exact known_changesOf (by simp) _ cc next

/-- The outgoing half, built from nothing. -/
theorem changes_outgoing
    : Places.changes (fun _ => .absent) (toConfChangeSingle cfg.confState).1
      = fun id => if (places id).isOutgoing then .incoming else .absent :=
  changes_listed ok (mem_votersOutgoing ok) (IdMap.keys_nodup _) rfl _ _

/-- Outside a joint configuration the voters and the learners are added one by one. -/
theorem chain_settled (settled : places.Settled)
    (blank : c.tracker.config = {} ∧ c.tracker.progress = .empty)
    : ∃ c', chain c ((toConfChangeSingle cfg.confState).2.map fun cc c => c.simple [cc]) = .ok c'
      ∧ Configured c'.tracker.config c'.tracker.progress places := by
  have noOutgoing : cfg.confState.votersOutgoing = [] := by
    refine List.eq_nil_iff_forall_not_mem.mpr fun id member => ?_
    rw [mem_votersOutgoing ok, settled id] at member
    cases member
  have reach : Places.changes (fun _ => .absent) (toConfChangeSingle cfg.confState).2 = places := by
    rw [changes_confState ok]
    funext id
    have here := settled id
    cases place : places id <;> rw [place] at here <;> first | rfl | cases here
  have known := known_confState cfg
  cases voters : cfg.confState.voters with
  | nil =>
      -- without voters there is nothing to add
      have absent := ok.voted.resolve_left fun ⟨id, voter⟩ => by
        rw [← mem_voters ok, voters] at voter
        cases voter
      have noLearners : cfg.confState.learners = [] := by
        refine List.eq_nil_iff_forall_not_mem.mpr fun id member => ?_
        rw [mem_learners ok, absent id] at member
        cases member
      have noNext : cfg.confState.learnersNext = [] := by
        refine List.eq_nil_iff_forall_not_mem.mpr fun id member => ?_
        rw [mem_learnersNext ok, absent id] at member
        cases member
      refine ⟨c, ?_, ?_⟩
      · rw [toConfChangeSingle_eq, noOutgoing, voters, noLearners, noNext]
        rfl
      · rw [blank.1, blank.2, show places = fun _ => .absent from funext absent]
        exact .empty
  | cons v rest =>
      have incoming : (places v).isIncoming = true := by
        rw [← mem_voters ok, voters]
        exact List.mem_cons_self
      have nonzero : v ≠ 0 := by
        rintro rfl
        rw [ok.zero] at incoming
        cases incoming
      have split : (toConfChangeSingle cfg.confState).2 = { nodeId := v }
          :: (changesOf .confChangeAddNode rest
            ++ changesOf .confChangeAddLearnerNode cfg.confState.learners
            ++ changesOf .confChangeAddLearnerNode cfg.confState.learnersNext) := by
        rw [toConfChangeSingle_eq, noOutgoing, voters]
        rfl
      rw [← reach]
      rw [split] at known ⊢
      refine chain_simples_empty blank nonzero (fun cc member =>
        known cc (List.mem_cons_of_mem _ member)) fun cc member => ?_
      simp only [changesOf, List.mem_append, List.mem_map] at member
      rcases member with (⟨_, _, rfl⟩ | ⟨id, learner, rfl⟩) | ⟨id, next, rfl⟩
      · exact .inl rfl
      · refine .inr fun same => ?_
        rw [mem_learners ok, show id = v from same] at learner
        rw [Place.isIncoming_of_isLearner learner] at incoming
        cases incoming
      · refine .inr fun same => ?_
        rw [mem_learnersNext ok, show id = v from same] at next
        rw [Place.isIncoming_of_isNext next] at incoming
        cases incoming

/-- A joint configuration is entered after its outgoing half has been built. -/
theorem chain_joint (joint : ¬places.Settled)
    (blank : c.tracker.config = {} ∧ c.tracker.progress = .empty)
    : ∃ c', chain c ((toConfChangeSingle cfg.confState).1.map (fun cc c => c.simple [cc])
          ++ [fun c => c.enterJoint cfg.autoLeave (toConfChangeSingle cfg.confState).2]) = .ok c'
      ∧ Configured c'.tracker.config c'.tracker.progress places
      ∧ c'.tracker.config.autoLeave = cfg.autoLeave := by
  obtain ⟨id, outgoing⟩ : ∃ id, (places id).isOutgoing = true := by
    simpa [Places.Settled, Place.Settled] using joint
  have voted : places.Voted := ok.voted.resolve_right fun absent => by
    rw [absent id] at outgoing
    cases outgoing
  have outgoingOf : ∀ v, v ∈ cfg.confState.votersOutgoing → v ≠ 0 := by
    rintro v member rfl
    rw [mem_votersOutgoing ok, ok.zero] at member
    cases member
  have known : ∀ cc ∈ (toConfChangeSingle cfg.confState).1, Places.Known cc :=
    known_changesOf (by simp) _
  obtain ⟨c1, built, ok1⟩ : ∃ c1,
      chain c ((toConfChangeSingle cfg.confState).1.map fun cc c => c.simple [cc]) = .ok c1
      ∧ Configured c1.tracker.config c1.tracker.progress
        (Places.changes (fun _ => .absent) (toConfChangeSingle cfg.confState).1) := by
    cases voters : cfg.confState.votersOutgoing with
    | nil =>
        rw [← mem_votersOutgoing ok, voters] at outgoing
        cases outgoing
    | cons v rest =>
        rw [toConfChangeSingle_eq, voters] at known ⊢
        have keeps : ∀ cc ∈ changesOf .confChangeAddNode rest,
            cc.type = .confChangeAddNode ∨ cc.nodeId ≠ v := by
          intro cc member
          obtain ⟨_, _, rfl⟩ := List.mem_map.mp member
          exact .inl rfl
        exact chain_simples_empty blank (outgoingOf v (voters ▸ List.mem_cons_self))
          (fun cc member => known cc (List.mem_cons_of_mem _ member)) keeps
  rw [changes_outgoing ok] at ok1
  have reach : Places.changes
      (Places.entered fun id => if (places id).isOutgoing then .incoming else .absent)
      (toConfChangeSingle cfg.confState).2 = places := by
    rw [changes_confState ok]
    funext id
    simp only [Places.entered]
    cases places id <;> rfl
  obtain ⟨⟨cfg', trk'⟩, entered, _, _, _, ok2, _, autoLeave⟩ :=
    (Changer.enterJoint_spec ok1 cfg.autoLeave (toConfChangeSingle cfg.confState).2).exists_ok (by
      rw [reach]
      rintro err (⟨notSettled, _⟩ | ⟨_, ⟨empty, _⟩ | ⟨unknown, _⟩ | ⟨_, empty, _⟩⟩)
      · refine notSettled fun id => ?_
        show (if (places id).isOutgoing then Place.incoming else .absent).isOutgoing = false
        split <;> rfl
      · refine empty ⟨id, ?_⟩
        show (if (places id).isOutgoing then Place.incoming else .absent).isIncoming = true
        rw [if_pos outgoing]
        rfl
      · exact unknown (known_confState cfg)
      · exact empty voted)
  rw [reach] at ok2
  refine ⟨{ c1 with tracker := { c1.tracker with config := cfg', progress := trk' } }, ?_, ok2,
    autoLeave⟩
  unfold chain at built ⊢
  rw [List.foldlM_append, built, except_ok_bind, List.foldlM_cons]
  dsimp only
  rw [entered]
  rfl

end Lists

/-- `Restore` of the `ConfState` of a configuration gives the configuration. -/
theorem restoreConf_confState {cfg : TrackerConfig} {trk : ProgressMap}
    (ok : Configured cfg trk places)
    (blank : c.tracker.config = {} ∧ c.tracker.progress = .empty)
    : ∃ trk', restoreConf c cfg.confState = .ok (cfg, trk')
      ∧ Configured cfg trk' places := by
  have empty : (toConfChangeSingle cfg.confState).1.length = 0 ↔ places.Settled := by
    rw [List.length_eq_zero_iff, toConfChangeSingle_eq, changesOf, List.map_eq_nil_iff,
      List.eq_nil_iff_forall_not_mem]
    simp only [mem_votersOutgoing ok, Bool.not_eq_true]
    rfl
  unfold restoreConf
  by_cases settled : places.Settled
  · obtain ⟨c', chained, ok'⟩ := chain_settled ok settled blank
    have same := ok'.config_eq ok.toRepresents
      ((ok'.autoLeave settled).trans (ok.autoLeave settled).symm)
    refine ⟨c'.tracker.progress, ?_, same ▸ ok'⟩
    simp only
    rw [if_pos (empty.mpr settled), chained, ← same]
    rfl
  · obtain ⟨c', chained, ok', autoLeave⟩ := chain_joint ok settled blank
    have same := ok'.config_eq ok.toRepresents autoLeave
    refine ⟨c'.tracker.progress, ?_, same ▸ ok'⟩
    simp only
    rw [if_neg fun none => settled (empty.mp none)]
    rw [show cfg.confState.autoLeave = cfg.autoLeave from rfl, chained, ← same]
    rfl

-----------------------------------------------------------------------------------------
-- Starting a node and restoring a snapshot
-----------------------------------------------------------------------------------------

theorem ConfState.equivalent_self (cs : ConfState) : cs.equivalent cs = true := by
  simp [ConfState.equivalent]

namespace Raft

theorem becomeFollower_config (r : Raft) (term lead : Nat)
    : (r.becomeFollower term lead).trk.config = r.trk.config := by
  unfold becomeFollower reset resetRandomizedElectionTimeout intn
  dsimp only
  split <;> split <;> rfl

variable [Codec]

theorem reactToConfig_of_not_leader {r : Raft} (notLeader : r.state ≠ .stateLeader)
    : r.reactToConfig = .ok r := by
  unfold reactToConfig
  rw [if_neg (by simp [notLeader]), if_pos (.inl notLeader)]
  rfl

theorem switchToConfig_of_not_leader {r : Raft} (notLeader : r.state ≠ .stateLeader)
    (cfg : TrackerConfig) (trk : ProgressMap)
    : r.switchToConfig cfg trk = .ok (r.installConfig cfg trk, cfg.confState) := by
  have reacts : (r.installConfig cfg trk).reactToConfig = .ok (r.installConfig cfg trk) :=
    reactToConfig_of_not_leader notLeader
  unfold switchToConfig
  dsimp only
  rw [reacts]
  rfl

/-- A failure that is not about configurations. -/
def NotConf (p : Panic) : Prop := p ≠ .confStatesNotEquivalent ∧ ∀ err, p ≠ .confChange err

/-- A node that starts from the `ConfState` of a configuration gets that configuration. -/
theorem newRaft_configured {cfg : TrackerConfig} {trk : ProgressMap}
    (ok : Configured cfg trk places) {c : Config}
    (state : c.confState.getD c.storage.snapshot.metadata.confState = cfg.confState)
    : Ends (newRaft c) (fun r => r.trk.config = cfg) NotConf := by
  unfold newRaft
  refine Ends.bind (q := fun c' => c' = c.withDefaults) ?_ ?_
  · unfold Config.validate
    refine Ends.ite (fun _ => ⟨nofun, nofun⟩) fun _ => ?_
    refine Ends.ite (fun _ => ⟨nofun, nofun⟩) fun _ => ?_
    refine Ends.ite (fun _ => ⟨nofun, nofun⟩) fun _ => ?_
    refine Ends.ite (fun _ => ⟨nofun, nofun⟩) fun _ => ?_
    refine Ends.ite (fun _ => ⟨nofun, nofun⟩) fun _ => ?_
    refine Ends.ite (fun _ => ⟨nofun, nofun⟩) fun _ => ?_
    exact Ends.ite (fun _ => ⟨nofun, nofun⟩) fun _ => rfl
  rintro _ rfl
  refine Ends.bind (q := fun _ => True) ?_ fun lastID _ => ?_
  · unfold RaftLog.lastEntryID
    split
    · exact trivial
    · exact ⟨nofun, nofun⟩
  obtain ⟨trk', restored, ok'⟩ := restoreConf_confState ok
    (c := { tracker := (blankRaft c.withDefaults).trk, lastIndex := lastID.index }) ⟨rfl, rfl⟩
  have state' : c.withDefaults.confState.getD c.withDefaults.storage.snapshot.metadata.confState
      = cfg.confState := state
  have switched :=
    switchToConfig_of_not_leader (r := blankRaft c.withDefaults) nofun cfg trk'
  dsimp only
  rw [state', restored, orPanic, except_pure, except_ok_bind, switched, except_ok_bind,
    assertConfStatesEquivalent, if_pos cfg.confState.equivalent_self, except_pure, except_ok_bind]
  refine Ends.bind (q := fun r => r.trk.config = cfg) ?_ fun r config => ?_
  · unfold loadHardState
    refine Ends.ite (fun _ => rfl) fun _ => ?_
    unfold loadState
    exact Ends.ite (fun _ => ⟨nofun, nofun⟩) fun _ => rfl
  refine Ends.bind (q := fun r => r.trk.config = cfg) ?_ fun r config => ?_
  · unfold loadApplied
    refine Ends.ite (fun _ => ?_) fun _ => config
    refine Ends.bind (q := fun _ => True) ?_ fun _ _ => config
    unfold RaftLog.appliedTo
    exact Ends.ite (fun _ => ⟨nofun, nofun⟩) fun _ => trivial
  · exact (becomeFollower_config r _ _).trans config

/-- A follower that restores a snapshot with the `ConfState` of a configuration never
finds a different one.
-/
theorem restore_configured {cfg : TrackerConfig} {trk : ProgressMap}
    (ok : Configured cfg trk places) {r : Raft} {s : Snapshot}
    (state : s.metadata.confState = cfg.confState)
    : Ends (r.restore s) (fun _ => True) NotConf := by
  unfold restore
  refine Ends.ite (fun _ => trivial) fun _ => ?_
  refine Ends.ite (fun _ => trivial) fun follower => ?_
  refine Ends.ite (fun _ => trivial) fun _ => ?_
  refine Ends.ite (fun _ => ?_) fun _ => ?_
  · refine Ends.bind (q := fun _ => True) ?_ fun _ _ => trivial
    unfold RaftLog.commitTo
    refine Ends.ite (fun _ => ?_) fun _ => trivial
    exact Ends.ite (fun _ => ⟨nofun, nofun⟩) fun _ => trivial
  · have restored := restoreConf_confState ok
      (c := { tracker := makeProgressTracker r.trk.maxInflight r.trk.maxInflightBytes,
              lastIndex := (r.raftLog.restore s).lastIndex }) ⟨rfl, rfl⟩
    obtain ⟨trk', restored, _⟩ := restored
    have notLeader : r.state ≠ .stateLeader := by
      intro leader
      rw [leader] at follower
      exact follower nofun
    dsimp only
    rw [state, restored, orPanic, except_pure, except_ok_bind]
    rw [switchToConfig_of_not_leader (by exact notLeader), except_ok_bind,
      assertConfStatesEquivalent, if_pos cfg.confState.equivalent_self]
    exact trivial

end Raft

/-- `Restore` inverts `ConfState`: on an empty `Changer` it gives back the configuration,
the tracked nodes and their flags. So neither a node that starts with such a `ConfState`
nor one that restores a snapshot with it can find two different configurations.
-/
theorem ProgressTracker.Reachable.restore_confState [Codec] {t : ProgressTracker}
    (reachable : t.Reachable)
    : (∀ c : Changer, c.tracker.config = {} → c.tracker.progress = .empty
        → ∃ trk, restoreConf c t.confState = .ok (t.config, trk)
          ∧ ∀ id, (trk.get? id).map Progress.isLearner
            = (t.progress.get? id).map Progress.isLearner)
      ∧ (∀ c : Config, c.confState.getD c.storage.snapshot.metadata.confState = t.confState
        → newRaft c ≠ .error .confStatesNotEquivalent)
      ∧ ∀ (r : Raft) (s : Snapshot), s.metadata.confState = t.confState
        → r.restore s ≠ .error .confStatesNotEquivalent := by
  obtain ⟨places, ok⟩ := reachable.configured
  refine ⟨?_, ?_, ?_⟩
  · intro c config progress
    obtain ⟨trk, restored, ok'⟩ := restoreConf_confState ok ⟨config, progress⟩
    exact ⟨trk, restored, fun id => (ok'.progress id).trans (ok.progress id).symm⟩
  · intro c state fails
    exact ((Raft.newRaft_configured ok state).failure fails).1 rfl
  · intro r s state fails
    exact ((Raft.restore_configured ok state).failure fails).1 rfl

/-- The voters 1 and 2, of which 2 is being demoted while 3 is added, and the learner 4.
-/
theorem restore_confState_demotion
    : ∃ chg, chain { tracker := makeProgressTracker 1 1, lastIndex := 0 }
        ([.simple [{ nodeId := 1 }], .simple [{ nodeId := 2 }],
          .simple [{ type := .confChangeAddLearnerNode, nodeId := 4 }],
          .enterJoint true [{ type := .confChangeAddLearnerNode, nodeId := 2 },
            { nodeId := 3 }]].map Operation.run) = .ok chg
      ∧ ∃ trk, restoreConf { tracker := makeProgressTracker 1 1, lastIndex := 0 }
        chg.tracker.confState = .ok (chg.tracker.config, trk) := by
  obtain ⟨chg, done⟩ : ∃ chg, chain { tracker := makeProgressTracker 1 1, lastIndex := 0 }
      ([.simple [{ nodeId := 1 }], .simple [{ nodeId := 2 }],
        .simple [{ type := .confChangeAddLearnerNode, nodeId := 4 }],
        .enterJoint true [{ type := .confChangeAddLearnerNode, nodeId := 2 }, { nodeId := 3 }]].map
          Operation.run) = .ok chg := ⟨_, rfl⟩
  let _ : Codec := .wire
  obtain ⟨restores, _⟩ :=
    (ProgressTracker.Reachable.chain (.make 1 1) done).restore_confState
  obtain ⟨trk, restored, _⟩ :=
    restores { tracker := makeProgressTracker 1 1, lastIndex := 0 } rfl rfl
  exact ⟨chg, done, trk, restored⟩

end EtcdRaft
