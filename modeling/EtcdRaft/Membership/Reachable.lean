import EtcdRaft.Membership.Operations

/-! Trackers that the operations of the `Changer` lead to. -/

namespace EtcdRaft

/-- A call of a `Changer`. -/
inductive Operation where
  | simple (ccs : List ConfChangeSingle)
  | enterJoint (autoLeave : Bool) (ccs : List ConfChangeSingle)
  | leaveJoint

def Operation.run (op : Operation) (c : Changer) : ChangeResult :=
  match op with
  | .simple ccs => c.simple ccs
  | .enterJoint autoLeave ccs => c.enterJoint autoLeave ccs
  | .leaveJoint => c.leaveJoint

/-- A tracker that comes from an empty one by successful calls. -/
inductive ProgressTracker.Reachable : ProgressTracker → Prop where
  | make (maxInflight maxBytes : Nat) : Reachable (makeProgressTracker maxInflight maxBytes)
  | change {t : ProgressTracker} (reachable : t.Reachable) (lastIndex : Nat) (op : Operation)
      {cfg : TrackerConfig} {trk : ProgressMap}
      (done : op.run { tracker := t, lastIndex := lastIndex } = .ok (cfg, trk))
    : Reachable { t with config := cfg, progress := trk }

/-- A configuration that a successful call leads to stands for places. -/
theorem Operation.configured {c : Changer} {places : Places} {cfg : TrackerConfig}
    {trk : ProgressMap} (op : Operation)
    (ok : Configured c.tracker.config c.tracker.progress places)
    (done : op.run c = .ok (cfg, trk))
    : ∃ places', Configured cfg trk places' := by
  cases op with
  | simple ccs =>
      obtain ⟨_, _, ok', _⟩ := (Changer.simple_spec ok ccs).result done
      exact ⟨_, ok'⟩
  | enterJoint autoLeave ccs =>
      obtain ⟨_, _, _, ok', _⟩ := (Changer.enterJoint_spec ok autoLeave ccs).result done
      exact ⟨_, ok'⟩
  | leaveJoint =>
      obtain ⟨_, ok'⟩ := (Changer.leaveJoint_spec ok).result done
      exact ⟨_, ok'⟩

theorem checkAndReturn_eq {cfg cfg' : TrackerConfig} {trk trk' : ProgressMap}
    (done : checkAndReturn cfg trk = .ok (cfg', trk'))
    : cfg' = cfg := by
  obtain ⟨_, _, same⟩ := except_bind_eq_ok.mp done
  cases same
  rfl

/-- A change leaves voters, if there have been some. -/
theorem Operation.voters {chg : Changer} {op : Operation} {cfg : TrackerConfig}
    {trk : ProgressMap} (voters : chg.tracker.config.voters.incoming.size ≠ 0)
    (done : op.run chg = .ok (cfg, trk))
    : cfg.voters.incoming.size ≠ 0 := by
  have applied {cfg cfg' : TrackerConfig} {trk trk' : ProgressMap} {ccs : List ConfChangeSingle}
      (done : chg.apply cfg trk ccs = .ok (cfg', trk')) : cfg'.voters.incoming.size ≠ 0 := by
    obtain ⟨⟨cfg₁, trk₁⟩, _, done⟩ := except_bind_eq_ok.mp done
    dsimp only at done
    split at done
    · cases done
    · rename_i some_
      cases done
      exact some_
  cases op with
  | simple ccs =>
      obtain ⟨⟨cfg₁, trk₁⟩, _, done⟩ := except_bind_eq_ok.mp done
      dsimp only at done
      split at done
      · cases done
      obtain ⟨⟨cfg₂, trk₂⟩, changed, done⟩ := except_bind_eq_ok.mp done
      dsimp only at done
      split at done
      · cases done
      · rw [checkAndReturn_eq done]
        exact applied changed
  | enterJoint autoLeave ccs =>
      obtain ⟨⟨cfg₁, trk₁⟩, _, done⟩ := except_bind_eq_ok.mp done
      dsimp only at done
      split at done
      · cases done
      split at done
      · cases done
      obtain ⟨⟨cfg₂, trk₂⟩, changed, done⟩ := except_bind_eq_ok.mp done
      rw [checkAndReturn_eq done]
      show cfg₂.voters.incoming.size ≠ 0
      exact applied changed
  | leaveJoint =>
      obtain ⟨⟨cfg₁, trk₁⟩, copied, done⟩ := except_bind_eq_ok.mp done
      dsimp only at done
      split at done
      · cases done
      · rw [checkAndReturn_eq done]
        show cfg₁.voters.incoming.size ≠ 0
        rw [checkAndReturn_eq copied]
        exact voters

theorem ProgressTracker.Reachable.configured {t : ProgressTracker}
    (reachable : t.Reachable)
    : ∃ places, Configured t.config t.progress places := by
  induction reachable with
  | make maxInflight maxBytes => exact ⟨_, .empty⟩
  | change reachable lastIndex op done ih =>
      obtain ⟨places, ok⟩ := ih
      exact op.configured (c := { tracker := _, lastIndex := lastIndex }) ok done

/-- A chain of successful calls. -/
theorem ProgressTracker.Reachable.chain {chg chg' : Changer}
    (reachable : chg.tracker.Reachable)
    {ops : List Operation} (done : chain chg (ops.map Operation.run) = .ok chg')
    : chg'.tracker.Reachable := by
  induction ops generalizing chg with
  | nil =>
      cases done
      exact reachable
  | cons op rest ih =>
      unfold EtcdRaft.chain at done ih
      rw [List.map_cons, List.foldlM_cons] at done
      obtain ⟨next, first, done⟩ := except_bind_eq_ok.mp done
      obtain ⟨⟨cfg, trk⟩, changed, same⟩ := except_bind_eq_ok.mp first
      cases same
      have reached := reachable.change chg.lastIndex op changed
      exact ih reached done

-----------------------------------------------------------------------------------------
-- Configuration and progress map
-----------------------------------------------------------------------------------------

/-- The errors that say what is wrong with a request: the joint state does not fit, there
is no voter, too many voters change, or the type of a change is unknown.
-/
def ConfChangeError.ofRequest : ConfChangeError → Bool
  | .alreadyJoint | .leaveNonJoint | .simpleInJoint => true
  | .zeroVoterJoint | .removedAllVoters => true
  | .moreThanOneVoterChanged => true
  | .unexpectedConfType _ => true
  | _ => false

/-- No call fails because of the checks of the invariants. -/
theorem Operation.error_ofRequest {c : Changer} {places : Places} (op : Operation)
    (ok : Configured c.tracker.config c.tracker.progress places) {err : ConfChangeError}
    (fails : op.run c = .error err)
    : err.ofRequest = true := by
  cases op with
  | simple ccs =>
      rcases (Changer.simple_spec ok ccs).failure fails with
        ⟨_, rfl⟩ | ⟨_, ⟨_, _, rfl⟩ | ⟨_, _, rfl⟩ | ⟨_, rfl⟩⟩ <;> rfl
  | enterJoint autoLeave ccs =>
      rcases (Changer.enterJoint_spec ok autoLeave ccs).failure fails with
        ⟨_, rfl⟩ | ⟨_, ⟨_, rfl⟩ | ⟨_, _, rfl⟩ | ⟨_, _, rfl⟩⟩ <;> rfl
  | leaveJoint =>
      obtain ⟨_, rfl⟩ := (Changer.leaveJoint_spec ok).failure fails
      rfl

/-- The progress map tracks exactly the voters of both halves and the learners, with the
flag of the learners; learners do not vote, and the nodes that are to become learners are
voters of the outgoing half only. No call fails on such a tracker because of its own
checks.
-/
theorem ProgressTracker.Reachable.corresponds {t : ProgressTracker}
    (reachable : t.Reachable)
    : (∀ id, t.progress.contains id = true
        ↔ t.config.voters.incoming.contains id = true
          ∨ t.config.voters.outgoingSet.contains id = true
          ∨ t.config.learnerSet.contains id = true)
      ∧ (∀ id pr, t.progress.get? id = some pr
        → (pr.isLearner = true ↔ t.config.learnerSet.contains id = true))
      ∧ (∀ id, t.config.learnerSet.contains id = true
        → t.config.voters.incoming.contains id = false
          ∧ t.config.voters.outgoingSet.contains id = false)
      ∧ (∀ id, t.config.learnerNextSet.contains id = true
        → t.config.voters.outgoingSet.contains id = true
          ∧ t.config.voters.incoming.contains id = false)
      ∧ ∀ lastIndex op err, Operation.run op { tracker := t, lastIndex := lastIndex } = .error err
        → err.ofRequest = true := by
  obtain ⟨places, ok⟩ := reachable.configured
  refine ⟨?_, ?_, ?_, ?_, ?_⟩
  · intro id
    rw [ok.contains, ok.incoming, ok.outgoing, ok.learners]
    cases places id <;> simp [Place.flag, Place.isIncoming, Place.isOutgoing, Place.isLearner]
  · intro id pr found
    have flag := ok.progress id
    rw [found, Option.map_some] at flag
    rw [ok.learners]
    cases place : places id <;> rw [place] at flag <;>
      simp_all [Place.flag, Place.isLearner]
  · intro id
    rw [ok.learners, ok.incoming, ok.outgoing]
    cases places id <;> simp [Place.isIncoming, Place.isOutgoing, Place.isLearner]
  · intro id
    rw [ok.learnersNext, ok.incoming, ok.outgoing]
    cases places id <;> simp [Place.isIncoming, Place.isOutgoing, Place.isNext]
  · intro lastIndex op err fails
    exact op.error_ofRequest (c := { tracker := t, lastIndex := lastIndex }) ok fails

/-- The voters 1 and 2, of which 2 is demoted while 3 is added. -/
theorem corresponds_demotion
    : ∃ chg, chain { tracker := makeProgressTracker 1 1, lastIndex := 0 }
        ([.simple [{ nodeId := 1 }], .simple [{ nodeId := 2 }],
          .enterJoint true [{ type := .confChangeAddLearnerNode, nodeId := 2 },
            { nodeId := 3 }]].map Operation.run) = .ok chg
      ∧ ∀ lastIndex op err, Operation.run op { tracker := chg.tracker, lastIndex := lastIndex }
        = .error err → err.ofRequest = true := by
  obtain ⟨chg, done⟩ : ∃ chg, chain { tracker := makeProgressTracker 1 1, lastIndex := 0 }
      ([.simple [{ nodeId := 1 }], .simple [{ nodeId := 2 }],
        .enterJoint true [{ type := .confChangeAddLearnerNode, nodeId := 2 }, { nodeId := 3 }]].map
          Operation.run) = .ok chg := ⟨_, rfl⟩
  exact ⟨chg, done, (ProgressTracker.Reachable.chain (.make 1 1) done).corresponds.2.2.2.2⟩

end EtcdRaft
