import EtcdRaft.Membership.Quorums

/-! What a partial tally decides: a won or a lost election is won or lost whatever the
voters that have not answered yet will answer, and a pending one can still end either way.
-/

namespace EtcdRaft

-----------------------------------------------------------------------------------------
-- Decided elections
-----------------------------------------------------------------------------------------

/-- Those who granted their vote. -/
def IdMap.granted (votes : IdMap Bool) (id : Nat) : Bool := votes.get? id == some true

/-- Those who did not refuse their vote, the ones that have not answered included. -/
def IdMap.grantable (votes : IdMap Bool) (id : Nat) : Bool := votes.get? id != some false

/-- Every vote that is not refused is either granted or missing. -/
theorem countP_grantable (votes : IdMap Bool) (ids : List Nat)
    : ids.countP votes.grantable
      = ids.countP (fun id => votes.get? id == some true)
        + ids.countP (fun id => votes.get? id == none) := by
  induction ids with
  | nil => rfl
  | cons id rest ih =>
      have cast : votes.get? id = none ∨ votes.get? id = some true
          ∨ votes.get? id = some false := by
        rcases votes.get? id with _ | v
        · exact .inl rfl
        · cases v <;> simp
      rcases cast with found | found | found <;>
        simp only [List.countP_cons, ih, IdMap.grantable, found] <;> simp <;> omega

/-- An election is lost when those who may still grant their vote are no quorum. -/
theorem MajorityConfig.voteResult_eq_voteLost {c : MajorityConfig} {votes : IdMap Bool}
    : c.voteResult votes = .voteLost ↔ ¬ c.Agrees votes.grantable := by
  unfold MajorityConfig.voteResult MajorityConfig.Agrees
  rw [countP_grantable]
  by_cases empty : c.size = 0
  · simp [empty]
  · rw [if_neg empty]
    simp only [empty, not_false_eq_true, ne_eq, forall_const, Nat.not_lt]
    split
    · simp only [reduceCtorEq, false_iff]
      omega
    · split
      · simp only [reduceCtorEq, false_iff]
        omega
      · simp only [true_iff]
        omega

theorem JointConfig.voteResult_eq_voteLost {c : JointConfig} {votes : IdMap Bool}
    : c.voteResult votes = .voteLost ↔ ¬ c.Agrees votes.grantable := by
  unfold JointConfig.voteResult JointConfig.Agrees
  rw [not_and_or, ← MajorityConfig.voteResult_eq_voteLost, ← MajorityConfig.voteResult_eq_voteLost]
  cases c.incoming.voteResult votes <;> cases c.outgoingSet.voteResult votes <;> decide

theorem JointConfig.voteResult_eq_voteWon_iff {c : JointConfig} {votes : IdMap Bool}
    : c.voteResult votes = .voteWon ↔ c.Agrees votes.granted :=
  voteResult_eq_voteWon

-----------------------------------------------------------------------------------------
-- More votes
-----------------------------------------------------------------------------------------

/-- The votes that were cast stay as they are; others may have been added. -/
def IdMap.Extends (votes more : IdMap Bool) : Prop :=
  ∀ id, votes.contains id = true → more.get? id = votes.get? id

theorem IdMap.Extends.found {votes more : IdMap Bool} (extends_ : votes.Extends more)
    {id : Nat} {v : Bool} (found : votes.get? id = some v)
    : more.get? id = some v :=
  (extends_ id (by simp [contains, found])).trans found

/-- More votes do not change the result of a decided election. -/
theorem JointConfig.voteResult_extends {c : JointConfig} {votes more : IdMap Bool}
    (extends_ : votes.Extends more) (decided : c.voteResult votes ≠ .votePending)
    : c.voteResult more = c.voteResult votes := by
  cases result : c.voteResult votes with
  | votePending => exact absurd result decided
  | voteWon =>
      rw [voteResult_eq_voteWon_iff] at result ⊢
      refine result.mono fun id _ granted => ?_
      simp only [IdMap.granted, beq_iff_eq] at granted ⊢
      exact extends_.found granted
  | voteLost =>
      rw [voteResult_eq_voteLost] at result ⊢
      refine fun agrees => result (agrees.mono fun id _ grantable => ?_)
      simp only [IdMap.grantable, bne_iff_ne, ne_eq] at grantable ⊢
      exact fun refused => grantable (extends_.found refused)

-----------------------------------------------------------------------------------------
-- Completions
-----------------------------------------------------------------------------------------

/-- A completion of a vote map gives a vote to every voter that has not voted, and changes
nothing else.
-/
structure JointConfig.Completes (c : JointConfig) (votes full : IdMap Bool) : Prop where
  cast : votes.Extends full
  voted : ∀ id, c.ids.contains id = true → full.contains id = true
  only : ∀ id, c.ids.contains id = false → full.get? id = votes.get? id

/-- Give the same answer to all of the listed IDs that have not voted. -/
def IdMap.answer (votes : IdMap Bool) (ids : List Nat) (v : Bool) : IdMap Bool :=
  ids.foldl (fun votes id => if votes.contains id then votes else votes.insert id v) votes

theorem IdMap.get?_answer (votes : IdMap Bool) (ids : List Nat) (v : Bool) (id : Nat)
    : (votes.answer ids v).get? id
      = if votes.contains id = false ∧ id ∈ ids then some v else votes.get? id := by
  unfold answer
  induction ids generalizing votes with
  | nil => simp
  | cons head rest ih =>
      rw [List.foldl_cons, ih]
      by_cases known : votes.contains head = true
      · rw [if_pos known]
        by_cases same : id = head
        · subst same
          simp [known]
        · simp [same]
      · rw [if_neg known]
        by_cases same : id = head
        · subst same
          simp [known]
        · simp [same]

/-- All voters that have not voted give the same answer. -/
def JointConfig.completion (c : JointConfig) (votes : IdMap Bool) (v : Bool) : IdMap Bool :=
  votes.answer c.ids.keys v

theorem JointConfig.get?_completion (c : JointConfig) (votes : IdMap Bool) (v : Bool)
    (id : Nat)
    : (c.completion votes v).get? id
      = if votes.contains id = false ∧ c.ids.contains id = true then some v
        else votes.get? id := by
  rw [completion, IdMap.get?_answer]
  simp only [IdMap.contains_iff]

theorem JointConfig.completes_completion (c : JointConfig) (votes : IdMap Bool) (v : Bool)
    : c.Completes votes (c.completion votes v) where
  cast id known := by rw [get?_completion, if_neg (by simp [known])]
  voted id voter := by
    unfold IdMap.contains
    rw [get?_completion]
    by_cases known : votes.contains id = true
    · rw [if_neg (by simp [known])]
      exact known
    · rw [if_pos ⟨by simpa using known, voter⟩]
      rfl
  only id other := by rw [get?_completion, if_neg (by simp [other])]

/-- If all others agree, those who did not refuse their vote are the ones that grant it.
-/
theorem JointConfig.granted_completion (c : JointConfig) (votes : IdMap Bool) {id : Nat}
    (voter : c.ids.contains id = true)
    : (c.completion votes true).granted id = votes.grantable id := by
  unfold IdMap.granted IdMap.grantable
  rw [get?_completion, voter]
  unfold IdMap.contains
  rcases votes.get? id with _ | v
  · rfl
  · cases v <;> rfl

/-- If all others refuse, only those who granted their vote are left. -/
theorem JointConfig.grantable_completion (c : JointConfig) (votes : IdMap Bool) {id : Nat}
    (voter : c.ids.contains id = true)
    : (c.completion votes false).grantable id = votes.granted id := by
  unfold IdMap.granted IdMap.grantable
  rw [get?_completion, voter]
  unfold IdMap.contains
  rcases votes.get? id with _ | v
  · rfl
  · cases v <;> rfl

theorem JointConfig.completion_true {c : JointConfig} {votes : IdMap Bool}
    : c.voteResult (c.completion votes true) = .voteWon
      ↔ c.voteResult votes ≠ .voteLost := by
  rw [voteResult_eq_voteWon_iff, ne_eq, voteResult_eq_voteLost, not_not]
  exact agrees_congr fun id => c.granted_completion votes

theorem JointConfig.completion_false {c : JointConfig} {votes : IdMap Bool}
    : c.voteResult (c.completion votes false) = .voteLost
      ↔ c.voteResult votes ≠ .voteWon := by
  rw [voteResult_eq_voteLost, ne_eq, voteResult_eq_voteWon_iff, not_iff_not]
  exact agrees_congr fun id => c.grantable_completion votes

-----------------------------------------------------------------------------------------
-- The tally
-----------------------------------------------------------------------------------------

/-- An election is decided exactly if all completions agree on its outcome. -/
theorem JointConfig.decided_iff (c : JointConfig) (votes : IdMap Bool)
    : (c.voteResult votes = .voteWon
        ↔ ∀ full, c.Completes votes full → c.voteResult full = .voteWon)
      ∧ (c.voteResult votes = .voteLost
        ↔ ∀ full, c.Completes votes full → c.voteResult full = .voteLost) := by
  refine ⟨⟨fun won full completes => ?_, fun every => ?_⟩,
    ⟨fun lost full completes => ?_, fun every => ?_⟩⟩
  · rw [voteResult_extends completes.cast (by simp [won]), won]
  · by_contra notWon
    have lost := completion_false.mpr notWon
    rw [every _ (c.completes_completion votes false)] at lost
    cases lost
  · rw [voteResult_extends completes.cast (by simp [lost]), lost]
  · by_contra notLost
    have won := completion_true.mpr notLost
    rw [every _ (c.completes_completion votes true)] at won
    cases won

/-- A pending election is one that can still end either way. -/
theorem JointConfig.pending_iff (c : JointConfig) (votes : IdMap Bool)
    : c.voteResult votes = .votePending
      ↔ (∃ full, c.Completes votes full ∧ c.voteResult full = .voteWon)
        ∧ ∃ full, c.Completes votes full ∧ c.voteResult full = .voteLost := by
  constructor
  · intro pending
    exact ⟨⟨_, c.completes_completion votes true, completion_true.mpr (by simp [pending])⟩,
      ⟨_, c.completes_completion votes false, completion_false.mpr (by simp [pending])⟩⟩
  · rintro ⟨⟨full, completes, won⟩, ⟨full', completes', lost⟩⟩
    cases result : c.voteResult votes with
    | votePending => rfl
    | voteLost =>
        rw [((c.decided_iff votes).2.mp result) full completes] at won
        cases won
    | voteWon =>
        rw [((c.decided_iff votes).1.mp result) full' completes'] at lost
        cases lost

namespace ProgressTracker

/-- Record votes one after the other. -/
def recordVotes (p : ProgressTracker) (later : List (Nat × Bool)) : ProgressTracker :=
  later.foldl (fun p vote => p.recordVote vote.1 vote.2) p

/-- A recorded vote is never overwritten. -/
theorem extends_recordVote (p : ProgressTracker) (voter : Nat) (v : Bool)
    : p.votes.Extends (p.recordVote voter v).votes := by
  intro id known
  unfold recordVote
  split
  · rfl
  · rename_i unknown
    have differs : id ≠ voter := fun same => unknown (same ▸ known)
    simp [differs]

theorem config_recordVote (p : ProgressTracker) (voter : Nat) (v : Bool)
    : (p.recordVote voter v).config = p.config := by
  unfold recordVote
  split <;> rfl

/-- One more vote does not change a decided election. -/
theorem tallyVotes_recordVote {p : ProgressTracker}
    (decided : p.tallyVotes ≠ .votePending) (voter : Nat) (v : Bool)
    : (p.recordVote voter v).tallyVotes = p.tallyVotes := by
  unfold tallyVotes
  rw [config_recordVote]
  exact JointConfig.voteResult_extends (p.extends_recordVote voter v) decided

theorem tallyVotes_recordVotes {p : ProgressTracker}
    (decided : p.tallyVotes ≠ .votePending) (later : List (Nat × Bool))
    : (p.recordVotes later).tallyVotes = p.tallyVotes := by
  unfold recordVotes
  induction later generalizing p with
  | nil => rfl
  | cons vote rest ih =>
      have same := tallyVotes_recordVote decided vote.1 vote.2
      rw [List.foldl_cons, ih (same ▸ decided), same]

/-- The outcome of an election is reported exactly and for good. It is won or lost once
every completion of the votes is won or lost, pending as long as there are completions of
both kinds, and no vote that is recorded later changes a reported decision.
-/
theorem tallyVotes_exact (p : ProgressTracker)
    : (∀ (c : JointConfig) (votes : IdMap Bool),
        (c.voteResult votes = .voteWon
          ↔ ∀ full, c.Completes votes full → c.voteResult full = .voteWon)
        ∧ (c.voteResult votes = .voteLost
          ↔ ∀ full, c.Completes votes full → c.voteResult full = .voteLost)
        ∧ (c.voteResult votes = .votePending
          ↔ (∃ full, c.Completes votes full ∧ c.voteResult full = .voteWon)
            ∧ ∃ full, c.Completes votes full ∧ c.voteResult full = .voteLost))
      ∧ (p.tallyVotes ≠ .votePending
        → ∀ later, (p.recordVotes later).tallyVotes = p.tallyVotes) :=
  ⟨fun c votes => ⟨(c.decided_iff votes).1, (c.decided_iff votes).2, c.pending_iff votes⟩,
    tallyVotes_recordVotes⟩

/-- A joint configuration whose two halves have both been won by the votes of 1 and 3. -/
def wonInBoth : ProgressTracker where
  config.voters :=
    { incoming := .ofList [(1, ()), (2, ()), (3, ())], outgoing := some (.ofList [(3, ())]) }
  votes := .ofList [(1, true), (3, true)]
  maxInflight := 1
  maxInflightBytes := 0

/-- The election stays won, whatever voter 2 answers. -/
theorem tallyVotes_wonInBoth
    : wonInBoth.tallyVotes = .voteWon
      ∧ ∀ later, (wonInBoth.recordVotes later).tallyVotes = .voteWon := by
  have won : wonInBoth.tallyVotes = .voteWon := by decide
  exact ⟨won, fun later => ((tallyVotes_exact wonInBoth).2 (by simp [won]) later).trans won⟩

end ProgressTracker

end EtcdRaft
