import EtcdRaft.Foundation.Outcome
import EtcdRaft.Model.Step

/-! What a proposal that is dropped leaves behind: the scan of its entries marks a
configuration change as pending before the size of the proposal is checked.
-/

namespace EtcdRaft

/-- The `k`th entry is the last one that is a configuration change. -/
structure LastChange (es : List Entry) (k : Nat) : Prop where
  change : ∃ e, es[k]? = some e ∧ e.isConfChange = true
  later : ∀ k' e, k < k' → es[k']? = some e → e.isConfChange = false

theorem LastChange.cons {es : List Entry} {k : Nat} (last : LastChange es k) (e : Entry)
    : LastChange (e :: es) (k + 1) where
  change := last.change
  later := by
    intro k' e' after found
    obtain ⟨j, rfl⟩ : ∃ j, k' = j + 1 := ⟨k' - 1, by omega⟩
    exact last.later j e' (Nat.lt_of_succ_lt_succ after) found

theorem LastChange.head {es : List Entry} {e : Entry} (change : e.isConfChange = true)
    (none : ∀ e ∈ es, e.isConfChange = false)
    : LastChange (e :: es) 0 where
  change := ⟨e, rfl, change⟩
  later := by
    intro k' e' after found
    obtain ⟨j, rfl⟩ : ∃ j, k' = j + 1 := ⟨k' - 1, by omega⟩
    exact none e' (List.mem_of_getElem? found)

/-- There is one last change. -/
theorem LastChange.unique {es : List Entry} {k k' : Nat} (last : LastChange es k)
    (last' : LastChange es k')
    : k = k' := by
  obtain ⟨e, found, change⟩ := last.change
  obtain ⟨e', found', change'⟩ := last'.change
  rcases Nat.lt_trichotomy k k' with less | same | less
  · rw [last.later k' e' less found'] at change'
    cases change'
  · exact same
  · rw [last'.later k e less found] at change
    cases change

namespace Raft

/-- The checks of `stepLeader` fail for the change. -/
def FailsCheck (r : Raft) (cc : ConfChangeV2) : Prop :=
  r.pendingConfIndex > r.raftLog.applied
    ∨ (r.trk.config.voters.outgoingSet.size > 0 ∧ ¬cc.changes.length = 0)
    ∨ (¬r.trk.config.voters.outgoingSet.size > 0 ∧ cc.changes.length = 0)

variable {r r' : Raft}

theorem appendEntry_refused {es : List Entry}
    (refused : r.appendEntry es = .ok (r', false))
    : r' = r := by
  unfold appendEntry at refused
  dsimp only at refused
  unfold increaseUncommittedSize at refused
  dsimp only at refused
  split at refused
  · cases refused
    rfl
  · simp only [Bool.not_true, Bool.false_eq_true, if_false] at refused
    obtain ⟨raftLog, _, refused⟩ := except_bind_eq_ok.mp refused
    obtain ⟨r₁, _, refused⟩ := except_bind_eq_ok.mp refused
    cases refused

variable [Codec]

/-- The entries of a proposal leave the pending change as it is. With validation each
change among them fails the checks; without it the last change is the one that is pending
already.
-/
def LeavesPending (r : Raft) (es : List Entry) : Prop :=
  if r.disableConfChangeValidation then
    ∀ k, LastChange es k → r.pendingConfIndex = r.raftLog.lastIndex + k + 1
  else
    ∀ e ∈ es, ∀ cc, confChangeOf e = .ok (some cc) → r.FailsCheck cc

theorem confChangeOf_none {e : Entry} (normal : confChangeOf e = .ok none)
    : e.isConfChange = false := by
  unfold confChangeOf at normal
  cases type : e.type with
  | entryNormal => simp [Entry.isConfChange, type]
  | entryConfChange =>
      rw [type] at normal
      dsimp only at normal
      split at normal <;> cases normal
  | entryConfChangeV2 =>
      rw [type] at normal
      dsimp only at normal
      split at normal <;> cases normal

theorem confChangeOf_some {e : Entry} {cc : ConfChangeV2}
    (change : confChangeOf e = .ok (some cc))
    : e.isConfChange = true := by
  unfold confChangeOf at change
  cases type : e.type with
  | entryNormal =>
      rw [type] at change
      cases change
  | entryConfChange => simp [Entry.isConfChange, type]
  | entryConfChangeV2 => simp [Entry.isConfChange, type]

/-- What the scan does with one entry. -/
theorem checkProposal_ok {i : Nat} {e e' : Entry}
    (checked : r.checkProposal i e = .ok (r', e'))
    : (confChangeOf e = .ok none ∧ r' = r)
      ∨ ∃ cc, confChangeOf e = .ok (some cc)
        ∧ ((r.FailsCheck cc ∧ r.disableConfChangeValidation = false ∧ r' = r)
          ∨ (¬(r.FailsCheck cc ∧ r.disableConfChangeValidation = false)
            ∧ r' = { r with pendingConfIndex := r.raftLog.lastIndex + i + 1 })) := by
  unfold checkProposal at checked
  obtain ⟨change, decoded, checked⟩ := except_bind_eq_ok.mp checked
  cases change with
  | none =>
      cases checked
      exact .inl ⟨decoded, rfl⟩
  | some cc =>
      refine .inr ⟨cc, decoded, ?_⟩
      dsimp only at checked
      split at checked
      · rename_i refused
        cases checked
        exact .inl ⟨refused.1, by simpa using refused.2, rfl⟩
      · rename_i passed
        cases checked
        refine .inr ⟨fun refused => passed ⟨refused.1, by simpa using refused.2⟩, rfl⟩

/-- The scan changes the pending index only. -/
theorem checkProposals_frame {i : Nat} {es es' : List Entry}
    (checked : r.checkProposals i es = .ok (r', es'))
    : r' = { r with pendingConfIndex := r'.pendingConfIndex } := by
  induction es generalizing r i es' with
  | nil =>
      cases checked
      rfl
  | cons e rest ih =>
      unfold checkProposals at checked
      obtain ⟨⟨r₁, e₁⟩, first, checked⟩ := except_bind_eq_ok.mp checked
      obtain ⟨⟨r₂, rest₂⟩, later, checked⟩ := except_bind_eq_ok.mp checked
      cases checked
      have tail := ih later
      rcases checkProposal_ok first with ⟨_, rfl⟩ | ⟨_, _, ⟨_, _, rfl⟩ | ⟨_, rfl⟩⟩
      · exact tail
      · exact tail
      · exact tail

/-- While a change is pending, the scan refuses all others. -/
theorem checkProposals_pending {i : Nat} {es es' : List Entry}
    (validates : r.disableConfChangeValidation = false)
    (pending : r.pendingConfIndex > r.raftLog.applied)
    (checked : r.checkProposals i es = .ok (r', es'))
    : r'.pendingConfIndex = r.pendingConfIndex := by
  induction es generalizing r i es' with
  | nil =>
      cases checked
      rfl
  | cons e rest ih =>
      unfold checkProposals at checked
      obtain ⟨⟨r₁, e₁⟩, first, checked⟩ := except_bind_eq_ok.mp checked
      obtain ⟨⟨r₂, rest₂⟩, later, checked⟩ := except_bind_eq_ok.mp checked
      cases checked
      rcases checkProposal_ok first with ⟨_, rfl⟩ | ⟨_, _, ⟨_, _, rfl⟩ | ⟨passed, _⟩⟩
      · exact ih validates pending later
      · exact ih validates pending later
      · exact absurd ⟨.inl pending, validates⟩ passed

/-- With validation the pending index stays exactly if every change fails the checks. -/
theorem checkProposals_validated {i : Nat} {es es' : List Entry}
    (validates : r.disableConfChangeValidation = false)
    (ordered : r.raftLog.applied ≤ r.raftLog.lastIndex)
    (checked : r.checkProposals i es = .ok (r', es'))
    : r'.pendingConfIndex = r.pendingConfIndex
      ↔ ∀ e ∈ es, ∀ cc, confChangeOf e = .ok (some cc) → r.FailsCheck cc := by
  induction es generalizing r i es' with
  | nil =>
      cases checked
      simp
  | cons e rest ih =>
      unfold checkProposals at checked
      obtain ⟨⟨r₁, e₁⟩, first, checked⟩ := except_bind_eq_ok.mp checked
      obtain ⟨⟨r₂, rest₂⟩, later, checked⟩ := except_bind_eq_ok.mp checked
      cases checked
      rcases checkProposal_ok first with ⟨normal, rfl⟩
        | ⟨cc, change, ⟨fails, _, rfl⟩ | ⟨passed, rfl⟩⟩
      · rw [ih validates ordered later, List.forall_mem_cons]
        simp [normal]
      · rw [ih validates ordered later, List.forall_mem_cons]
        simp only [change, Except.ok.injEq, Option.some.injEq, forall_eq', fails, true_and]
      · have stays := checkProposals_pending
          (r := { r with pendingConfIndex := r.raftLog.lastIndex + i + 1 }) validates
          (by simp only; omega) later
        have passes : ¬r.FailsCheck cc := fun fails => passed ⟨fails, validates⟩
        have idle : r.pendingConfIndex ≤ r.raftLog.applied :=
          Nat.le_of_not_lt fun pending => passes (.inl pending)
        simp only at stays
        constructor
        · intro same
          omega
        · intro all
          exact absurd (all e List.mem_cons_self cc change) passes

/-- Without validation the last change is the pending one. -/
theorem checkProposals_unvalidated {i : Nat} {es es' : List Entry}
    (off : r.disableConfChangeValidation = true)
    (checked : r.checkProposals i es = .ok (r', es'))
    : (r'.pendingConfIndex = r.pendingConfIndex ∧ ∀ e ∈ es, e.isConfChange = false)
      ∨ ∃ k, LastChange es k ∧ r'.pendingConfIndex = r.raftLog.lastIndex + (i + k) + 1 := by
  induction es generalizing r i es' with
  | nil =>
      cases checked
      exact .inl ⟨rfl, by simp⟩
  | cons e rest ih =>
      unfold checkProposals at checked
      obtain ⟨⟨r₁, e₁⟩, first, checked⟩ := except_bind_eq_ok.mp checked
      obtain ⟨⟨r₂, rest₂⟩, later, checked⟩ := except_bind_eq_ok.mp checked
      cases checked
      rcases checkProposal_ok first with ⟨normal, rfl⟩ | ⟨cc, change, ⟨_, on, _⟩ | ⟨_, rfl⟩⟩
      · rcases ih off later with ⟨same, none⟩ | ⟨k, last, index⟩
        · exact .inl ⟨same, List.forall_mem_cons.mpr ⟨confChangeOf_none normal, none⟩⟩
        · exact .inr ⟨k + 1, last.cons e, by omega⟩
      · rw [off] at on
        cases on
      · rcases ih (r := { r with pendingConfIndex := r.raftLog.lastIndex + i + 1 }) off later with
          ⟨same, none⟩ | ⟨k, last, index⟩
        · exact .inr ⟨0, .head (confChangeOf_some change) none, same⟩
        · exact .inr ⟨k + 1, last.cons e, by simp only at index; omega⟩

/-- The scan leaves the pending index as it is exactly under `LeavesPending`. -/
theorem checkProposals_leavesPending {es es' : List Entry}
    (ordered : r.raftLog.applied ≤ r.raftLog.lastIndex)
    (checked : r.checkProposals 0 es = .ok (r', es'))
    : r' = r ↔ r.LeavesPending es := by
  have frame : r' = r ↔ r'.pendingConfIndex = r.pendingConfIndex := by
    constructor
    · rintro rfl
      rfl
    · intro same
      have := checkProposals_frame checked
      rw [same] at this
      exact this
  rw [frame]
  unfold LeavesPending
  cases off : r.disableConfChangeValidation with
  | false => exact checkProposals_validated off ordered checked
  | true =>
      rw [if_pos rfl]
      rcases checkProposals_unvalidated off checked with ⟨same, none⟩ | ⟨k, last, index⟩
      · refine ⟨fun _ k last => ?_, fun _ => same⟩
        obtain ⟨e, found, change⟩ := last.change
        rw [none e (List.mem_of_getElem? found)] at change
        cases change
      · rw [index, Nat.zero_add]
        constructor
        · intro same k' last'
          rw [← same, last.unique last']
        · intro all
          exact (all k last).symm

/-- A proposal that is dropped for its size has been scanned, and leaves the pending index
of the scan behind.
-/
theorem stepLeaderProp_dropped {m : Message}
    (dropped : r.stepLeaderProp m = .ok (r', some .errProposalDropped))
    : (r' = r ∧ (r.trk.progress.contains r.id = false ∨ r.leadTransferee ≠ none64))
      ∨ (r.trk.progress.contains r.id = true ∧ r.leadTransferee = none64
        ∧ ∃ es', r.checkProposals 0 m.entries = .ok (r', es')) := by
  unfold stepLeaderProp at dropped
  by_cases empty : m.entries.length = 0
  · rw [if_pos empty] at dropped
    cases dropped
  rw [if_neg empty] at dropped
  by_cases tracked : r.trk.progress.contains r.id = true
  swap
  · rw [if_pos (by simpa using tracked)] at dropped
    cases dropped
    exact .inl ⟨rfl, .inl (by simpa using tracked)⟩
  rw [if_neg (by simpa using tracked)] at dropped
  by_cases transfer : r.leadTransferee = none64
  swap
  · rw [if_pos transfer] at dropped
    cases dropped
    exact .inl ⟨rfl, .inr transfer⟩
  rw [if_neg (by simpa using transfer)] at dropped
  obtain ⟨⟨r₁, es₁⟩, checked, dropped⟩ := except_bind_eq_ok.mp dropped
  obtain ⟨⟨r₂, ok⟩, appended, dropped⟩ := except_bind_eq_ok.mp dropped
  dsimp only at appended dropped
  cases ok with
  | true =>
      simp only [Bool.not_true, Bool.false_eq_true, if_false] at dropped
      obtain ⟨r₃, _, dropped⟩ := except_bind_eq_ok.mp dropped
      cases dropped
  | false =>
      simp only [Bool.not_false, if_true] at dropped
      cases dropped
      exact .inr ⟨tracked, transfer, es₁, appendEntry_refused appended ▸ checked⟩

/-- Whether a dropped proposal leaves the leader as it was: it is no message of a later
term, and either it is refused before its entries are looked at, or none of them becomes
the pending change.
-/
theorem step_dropped_iff {m : Message} (leads : r.state = .stateLeader)
    (type : m.type = .msgProp) (ordered : r.raftLog.applied ≤ r.raftLog.lastIndex)
    (dropped : r.step m = .ok (r', some .errProposalDropped))
    : r' = r
      ↔ m.term ≤ r.term
        ∧ (r.trk.progress.contains r.id = false ∨ r.leadTransferee ≠ none64
          ∨ r.LeavesPending m.entries) := by
  have own (proposed : r.stepMessage m = .ok (r', some .errProposalDropped))
      : r' = r ↔ r.trk.progress.contains r.id = false ∨ r.leadTransferee ≠ none64
          ∨ r.LeavesPending m.entries := by
    have proposed : r.stepLeaderProp m = .ok (r', some .errProposalDropped) := by
      unfold stepMessage stepRole stepLeader at proposed
      rwa [leads, type] at proposed
    rcases stepLeaderProp_dropped proposed with ⟨rfl, early⟩ | ⟨tracked, idle, es', checked⟩
    · exact ⟨fun _ => early.imp_right .inl, fun _ => rfl⟩
    · rw [checkProposals_leavesPending ordered checked]
      simp [tracked, idle]
  unfold step at dropped
  by_cases none : m.term = 0
  · rw [if_pos none] at dropped
    simpa [none] using own dropped
  rw [if_neg none] at dropped
  by_cases newer : m.term > r.term
  · have adopts : r.adoptTerm m = r.becomeFollower m.term none64 := by
      simp [adoptTerm, type]
    rw [if_pos newer, if_neg (by simp [ignoredByLease, type]), adopts] at dropped
    have follows : r'.state = .stateFollower := by
      unfold stepMessage stepRole stepFollower at dropped
      rw [type] at dropped
      cases dropped
      rfl
    constructor
    · rintro rfl
      rw [follows] at leads
      cases leads
    · rintro ⟨older, _⟩
      exact absurd newer (Nat.not_lt.mpr older)
  rw [if_neg newer] at dropped
  by_cases older : m.term < r.term
  · rw [if_pos older] at dropped
    obtain ⟨_, _, dropped⟩ := except_bind_eq_ok.mp dropped
    cases dropped
  · rw [if_neg older] at dropped
    rw [own dropped]
    exact ⟨fun holds => ⟨Nat.le_of_not_lt newer, holds⟩, fun holds => holds.2⟩

end Raft

attribute [local instance] Codec.wire

/-- The only voter has been elected and has four of the five bytes that may be
uncommitted.
-/
def busyLeader : Result Raft := do
  let r ← newRaft {
    id := 1
    electionTick := 10
    heartbeatTick := 1
    storage := {}
    confState := some { voters := [1] }
    maxSizePerMsg := 1000
    maxUncommittedEntriesSize := 5
    maxInflightMsgs := 256 }
  let (r, _) ← r.step { type := .msgHup, fromId := 1 }
  let (r, _) ← r.step { type := .msgVoteResp, fromId := 1, toId := 1, term := 1 }
  let (r, _) ← r.step { type := .msgProp, fromId := 1, entries := [{ data := [1, 2, 3, 4] }] }
  return r

/-- The proposal to add node 2, of four bytes. -/
def addNode2 : Message where
  type := .msgProp
  fromId := 1
  entries := [{ type := .entryConfChange, data := [0x10, 0, 0x18, 2] }]

/-- The proposal does not fit and is dropped, but the change counts as pending afterwards.
-/
theorem dropped_change_pends
    : ∃ r r', busyLeader = .ok r ∧ r.state = .stateLeader
      ∧ r.step addNode2 = .ok (r', some .errProposalDropped)
      ∧ r.pendingConfIndex = 0 ∧ r'.pendingConfIndex = 3 ∧ r'.raftLog.lastIndex = 2 :=
  ⟨_, _, rfl, rfl, rfl, rfl, rfl, rfl⟩

/-- The proposal of two more bytes. -/
def twoBytes : Message where
  type := .msgProp
  fromId := 1
  entries := [{ data := [1, 2] }]

/-- Of a proposal without a change nothing is left. -/
theorem step_dropped_iff_plain
    : ∃ r r', busyLeader = .ok r ∧ r.step twoBytes = .ok (r', some .errProposalDropped)
      ∧ r' = r := by
  obtain ⟨r, r', made, leads, validates, ordered, dropped⟩ : ∃ r r', busyLeader = .ok r
      ∧ r.state = .stateLeader ∧ r.disableConfChangeValidation = false
      ∧ r.raftLog.applied ≤ r.raftLog.lastIndex
      ∧ r.step twoBytes = .ok (r', some .errProposalDropped) :=
    ⟨_, _, rfl, rfl, rfl, by decide, rfl⟩
  have leaves : r.LeavesPending twoBytes.entries := by
    unfold Raft.LeavesPending
    rw [validates]
    simp [twoBytes, Raft.confChangeOf]
  exact ⟨r, r', made, dropped,
    (Raft.step_dropped_iff leads rfl ordered dropped).mpr ⟨Nat.zero_le _, .inr (.inr leaves)⟩⟩

end EtcdRaft
