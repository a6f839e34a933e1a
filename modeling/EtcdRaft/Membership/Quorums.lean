import EtcdRaft.Membership.Reachable

/-! Quorums of majority and joint configurations, and what two configurations that are one
change apart have in common.
-/

namespace EtcdRaft

-----------------------------------------------------------------------------------------
-- Majorities
-----------------------------------------------------------------------------------------

/-- Two properties that hold of more members than there are have a member in common. -/
theorem exists_of_length_lt {l : List Nat} {p q : Nat → Bool}
    (many : l.length < l.countP p + l.countP q)
    : ∃ id ∈ l, p id = true ∧ q id = true := by
  induction l with
  | nil => simp at many
  | cons id rest ih =>
      by_cases both : p id = true ∧ q id = true
      · exact ⟨id, List.mem_cons_self, both⟩
      · have notBoth : (if p id = true then 1 else 0) + (if q id = true then 1 else 0) ≤ 1 := by
          cases hp : p id <;> cases hq : q id <;> simp_all
        rw [List.countP_cons, List.countP_cons, List.length_cons] at many
        obtain ⟨id', member, common⟩ := ih (by omega)
        exact ⟨id', List.mem_cons_of_mem _ member, common⟩

/-- More than half of the members have the property; without members there is nothing to
ask.
-/
def MajorityConfig.Agrees (c : MajorityConfig) (p : Nat → Bool) : Prop :=
  c.size ≠ 0 → c.size < 2 * c.keys.countP p

theorem MajorityConfig.voteResult_eq_voteWon {c : MajorityConfig} {votes : IdMap Bool}
    : c.voteResult votes = .voteWon ↔ c.Agrees fun id => votes.get? id == some true := by
  unfold MajorityConfig.voteResult MajorityConfig.Agrees
  by_cases empty : c.size = 0
  · simp [empty]
  · rw [if_neg empty]
    simp only
    constructor
    · intro won _
      split at won
      · omega
      · split at won <;> cases won
    · intro agrees
      have := agrees empty
      rw [if_pos (by omega)]

/-- A quorum of both halves. -/
def JointConfig.Agrees (v : JointConfig) (p : Nat → Bool) : Prop :=
  v.incoming.Agrees p ∧ v.outgoingSet.Agrees p

theorem JointConfig.voteResult_eq_voteWon {v : JointConfig} {votes : IdMap Bool}
    : v.voteResult votes = .voteWon ↔ v.Agrees fun id => votes.get? id == some true := by
  unfold JointConfig.voteResult JointConfig.Agrees
  rw [← MajorityConfig.voteResult_eq_voteWon, ← MajorityConfig.voteResult_eq_voteWon]
  cases v.incoming.voteResult votes <;> cases v.outgoingSet.voteResult votes <;> decide

/-- A larger set of supporters is a quorum as well. -/
theorem MajorityConfig.Agrees.mono {c : MajorityConfig} {p q : Nat → Bool}
    (agrees : c.Agrees p) (more : ∀ id ∈ c.keys, p id = true → q id = true)
    : c.Agrees q := by
  intro nonempty
  have most := agrees nonempty
  have counts := List.countP_mono_left more
  omega

/-- The two halves ask only their own members. -/
theorem JointConfig.Agrees.mono {c : JointConfig} {p q : Nat → Bool} (agrees : c.Agrees p)
    (more : ∀ id, c.ids.contains id = true → p id = true → q id = true)
    : c.Agrees q := by
  refine ⟨agrees.1.mono fun id member => more id ?_, agrees.2.mono fun id member => more id ?_⟩
  · rw [contains_ids, IdMap.contains_iff.mpr member, Bool.true_or]
  · rw [contains_ids, IdMap.contains_iff.mpr member, Bool.or_true]

/-- Supporters that are the same among the voters decide the same. -/
theorem JointConfig.agrees_congr {c : JointConfig} {p q : Nat → Bool}
    (same : ∀ id, c.ids.contains id = true → p id = q id)
    : c.Agrees p ↔ c.Agrees q :=
  ⟨fun agrees => agrees.mono fun id voter => (same id voter ▸ ·),
    fun agrees => agrees.mono fun id voter => (same id voter ▸ ·)⟩

/-- A majority of a set and a majority of a larger one with at most one member more. -/
theorem MajorityConfig.common_of_subset {c c' : MajorityConfig} {p q : Nat → Bool}
    (nonempty : c.size ≠ 0) (inside : ∀ id, c.contains id = true → c'.contains id = true)
    (size : c'.size ≤ c.size + 1) (agrees : c.Agrees p) (agrees' : c'.Agrees q)
    : ∃ id, p id = true ∧ q id = true := by
  have sub : c.keys.Subperm c'.keys := by
    refine List.subperm_of_subset c.keys_nodup fun id member => ?_
    exact IdMap.contains_iff.mp (inside id (IdMap.contains_iff.mpr member))
  have longer := sub.length_le
  have more := sub.countP_le p
  have votes := agrees nonempty
  rw [IdMap.length_keys, IdMap.length_keys] at longer
  have votes' := agrees' (by omega)
  obtain ⟨id, _, common⟩ := exists_of_length_lt (l := c'.keys) (p := p) (q := q)
    (by rw [IdMap.length_keys]; omega)
  exact ⟨id, common⟩

/-- A set has at most one member more than another one if they differ in one member only.
-/
theorem size_le_of_symdiff {l r : IdSet} (one : symdiff l r ≤ 1)
    : r.size ≤ l.size + 1 := by
  have split := List.length_eq_countP_add_countP (fun id => l.contains id) (l := r.keys)
  have shared : r.keys.countP (fun id => l.contains id) ≤ l.size := by
    rw [List.countP_eq_length_filter, ← IdMap.length_keys]
    refine (List.subperm_of_subset (r.keys_nodup.filter _) fun id member => ?_).length_le
    exact IdMap.contains_iff.mp (List.mem_filter.mp member).2
  have rest : r.keys.countP (fun id => !l.contains id) ≤ symdiff l r :=
    Nat.le_add_left _ _
  simp only [Bool.not_eq_true, Bool.decide_eq_false] at split
  rw [IdMap.length_keys] at split
  omega

theorem symdiff_comm (l r : IdSet) : symdiff l r = symdiff r l := Nat.add_comm _ _

/-- Majorities of sets that differ in one member at most have a common member. -/
theorem MajorityConfig.common_of_symdiff {c c' : MajorityConfig} {p q : Nat → Bool}
    (one : symdiff c c' ≤ 1) (nonempty : c.size ≠ 0) (nonempty' : c'.size ≠ 0)
    (agrees : c.Agrees p) (agrees' : c'.Agrees q)
    : ∃ id, p id = true ∧ q id = true := by
  by_cases inside : ∀ id, c.contains id = true → c'.contains id = true
  · exact common_of_subset nonempty inside (size_le_of_symdiff one) agrees agrees'
  · -- a member of the first set only is the one difference, so the second set is inside
    simp only [not_forall, Bool.not_eq_true] at inside
    obtain ⟨a, left, notRight⟩ := inside
    have inside' : ∀ id, c'.contains id = true → c.contains id = true := by
      intro b right
      by_contra notLeft
      have same := symdiff_le_one.mp one a b (by simp [left, notRight])
        (by simp [right, notLeft])
      rw [same, right] at notRight
      cases notRight
    rw [symdiff_comm] at one
    obtain ⟨id, second, first⟩ :=
      common_of_subset nonempty' inside' (size_le_of_symdiff one) agrees' agrees
    exact ⟨id, first, second⟩

/-- Two majorities of one set have a common member. -/
theorem MajorityConfig.common {c : MajorityConfig} {p q : Nat → Bool}
    (nonempty : c.size ≠ 0) (agrees : c.Agrees p) (agrees' : c.Agrees q)
    : ∃ id, p id = true ∧ q id = true :=
  common_of_subset nonempty (fun _ member => member) (Nat.le_succ _) agrees agrees'

-----------------------------------------------------------------------------------------
-- One change apart
-----------------------------------------------------------------------------------------

/-- A quorum before a change and a quorum after it have a common member. -/
theorem Operation.common {c : Changer} {places : Places} {cfg : TrackerConfig}
    {trk : ProgressMap} {p q : Nat → Bool} (op : Operation)
    (ok : Configured c.tracker.config c.tracker.progress places) (voted : places.Voted)
    (done : op.run c = .ok (cfg, trk)) (agrees : c.tracker.config.voters.Agrees p)
    (agrees' : cfg.voters.Agrees q)
    : ∃ id, p id = true ∧ q id = true := by
  have nonempty := ok.size_ne_zero.mpr voted
  cases op with
  | simple ccs =>
      obtain ⟨_, _, ok', voted', one⟩ := (Changer.simple_spec ok ccs).result done
      exact MajorityConfig.common_of_symdiff ((ok.symdiff_le_one ok'.toRepresents).mpr one)
        nonempty (ok'.size_ne_zero.mpr voted') agrees.1 agrees'.1
  | enterJoint autoLeave ccs =>
      obtain ⟨settled, _, _, ok', _⟩ :=
        (Changer.enterJoint_spec ok autoLeave ccs).result done
      have same : cfg.voters.outgoingSet = c.tracker.config.voters.incoming := by
        refine IdMap.ext_contains fun id => ?_
        rw [ok'.outgoing, ok.incoming, Places.isOutgoing_changes]
        exact Place.isOutgoing_enter (settled id)
      rw [JointConfig.Agrees, same] at agrees'
      exact MajorityConfig.common nonempty agrees.1 agrees'.2
  | leaveJoint =>
      obtain ⟨_, ok'⟩ := (Changer.leaveJoint_spec ok).result done
      have same : cfg.voters.incoming = c.tracker.config.voters.incoming := by
        refine IdMap.ext_contains fun id => ?_
        rw [ok'.incoming, ok.incoming]
        exact Place.isIncoming_leave _
      rw [JointConfig.Agrees, same] at agrees'
      exact MajorityConfig.common nonempty agrees.1 agrees'.1

/-- The voters that win in a configuration and those that win in the one after it have a
member in common.
-/
theorem ProgressTracker.Reachable.winners_common {t : ProgressTracker}
    (reachable : t.Reachable)
    (voters : ∃ id, t.config.voters.ids.contains id = true) {lastIndex : Nat}
    {op : Operation} {cfg : TrackerConfig} {trk : ProgressMap}
    (done : op.run { tracker := t, lastIndex := lastIndex } = .ok (cfg, trk))
    {votes votes' : IdMap Bool} (won : t.config.voters.voteResult votes = .voteWon)
    (won' : cfg.voters.voteResult votes' = .voteWon)
    : ∃ id, votes.get? id = some true ∧ votes'.get? id = some true := by
  obtain ⟨places, ok⟩ := reachable.configured
  have voted : places.Voted := by
    obtain ⟨id, voter⟩ := voters
    refine ok.voted.resolve_right fun absent => ?_
    rw [JointConfig.contains_ids, ok.incoming, ok.outgoing, absent id] at voter
    cases voter
  obtain ⟨id, yes, yes'⟩ := op.common (c := { tracker := t, lastIndex := lastIndex }) ok voted done
    (JointConfig.voteResult_eq_voteWon.mp won) (JointConfig.voteResult_eq_voteWon.mp won')
  exact ⟨id, by simpa using yes, by simpa using yes'⟩

/-- The voters 1, 2 and 3 of which 1 and 2 have voted, before 4 is added and 2, 3 and 4
vote.
-/
theorem winners_common_addition
    : ∃ chg, chain { tracker := makeProgressTracker 1 1, lastIndex := 0 }
        ([.simple [{ nodeId := 1 }], .simple [{ nodeId := 2 }], .simple [{ nodeId := 3 }]].map
          Operation.run) = .ok chg
      ∧ ∃ cfg trk, Operation.run (.simple [{ nodeId := 4 }]) chg = .ok (cfg, trk)
      ∧ ∃ id, (IdMap.ofList [(1, true), (2, true)]).get? id = some true
        ∧ (IdMap.ofList [(2, true), (3, true), (4, true)]).get? id = some true := by
  obtain ⟨chg, done, voter, won⟩ : ∃ chg,
      chain { tracker := makeProgressTracker 1 1, lastIndex := 0 }
        ([.simple [{ nodeId := 1 }], .simple [{ nodeId := 2 }], .simple [{ nodeId := 3 }]].map
          Operation.run) = .ok chg
      ∧ chg.tracker.config.voters.ids.contains 1 = true
      ∧ chg.tracker.config.voters.voteResult (.ofList [(1, true), (2, true)]) = .voteWon :=
    ⟨_, rfl, rfl, rfl⟩
  obtain ⟨cfg, trk, changed, won'⟩ : ∃ cfg trk,
      Operation.run (.simple [{ nodeId := 4 }]) chg = .ok (cfg, trk)
      ∧ cfg.voters.voteResult (.ofList [(2, true), (3, true), (4, true)]) = .voteWon := by
    cases done
    exact ⟨_, _, rfl, rfl⟩
  have reachable := ProgressTracker.Reachable.chain (.make 1 1) done
  exact ⟨chg, done, cfg, trk, changed, reachable.winners_common ⟨1, voter⟩ changed won won'⟩

end EtcdRaft
