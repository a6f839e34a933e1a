import EtcdRaft.Membership.Quorums
import Mathlib.Data.List.Sort
import Mathlib.Order.Bounds.Basic

/-! Committed indexes are votes: the position that `CommittedIndex` picks in the sorted
acknowledgements counts a majority.
-/

namespace EtcdRaft

-----------------------------------------------------------------------------------------
-- Positions of a sorted list
-----------------------------------------------------------------------------------------

/-- In a sorted list, the elements from a position on are those counted from its value on.
-/
theorem le_getElem_iff_countP {l : List Nat} (sorted : l.Pairwise (· ≤ ·)) (i : Nat)
    {k : Nat} (inside : k < l.length)
    : i ≤ l[k] ↔ l.length - k ≤ l.countP (fun x => decide (i ≤ x)) := by
  induction l generalizing k with
  | nil => simp at inside
  | cons a rest ih =>
      obtain ⟨least, tail⟩ := List.pairwise_cons.mp sorted
      have few : rest.countP (fun x => decide (i ≤ x)) ≤ rest.length :=
        List.countP_le_length
      rw [List.countP_cons, List.length_cons]
      by_cases low : i ≤ a
      · have all : rest.countP (fun x => decide (i ≤ x)) = rest.length := by
          rw [List.countP_eq_length]
          intro x member
          exact decide_eq_true (Nat.le_trans low (least x member))
        have above : i ≤ (a :: rest)[k] := by
          cases k with
          | zero => exact low
          | succ k => exact Nat.le_trans low (least _ (List.getElem_mem _))
        simp only [low, decide_true, if_true]
        omega
      · simp only [low, decide_false, Bool.false_eq_true, if_false, Nat.add_zero]
        cases k with
        | zero =>
            simp only [List.getElem_cons_zero]
            omega
        | succ k =>
            rw [List.getElem_cons_succ, ih tail (Nat.lt_of_succ_lt_succ inside)]
            omega

-----------------------------------------------------------------------------------------
-- Acknowledgements as votes
-----------------------------------------------------------------------------------------

/-- The member has acknowledged the index; without an acknowledged index it has not. -/
def AckedIndexer.acks (l : AckedIndexer) (i id : Nat) : Bool :=
  (l id).any fun idx => decide (i ≤ idx)

/-- The votes on an index: every voter votes whether it has acknowledged the index. -/
def JointConfig.votesOn (c : JointConfig) (l : AckedIndexer) (i : Nat) : IdMap Bool :=
  c.ids.mapValues fun id _ => l.acks i id

theorem countP_filterMap_acks (l : AckedIndexer) (i : Nat) (ids : List Nat)
    : (ids.filterMap l).countP (fun x => decide (i ≤ x)) = ids.countP (l.acks i) := by
  induction ids with
  | nil => rfl
  | cons id rest ih =>
      cases found : l id <;> simp [List.countP_cons, AckedIndexer.acks, found, ih]

/-- A nonempty majority configuration has committed the indexes that a majority
acknowledged.
-/
theorem MajorityConfig.le_committedIndex {c : MajorityConfig} (l : AckedIndexer) {i : Nat}
    (positive : 1 ≤ i) (nonempty : c.size ≠ 0)
    : i ≤ c.committedIndex l ↔ c.size / 2 + 1 ≤ c.keys.countP (l.acks i) := by
  unfold MajorityConfig.committedIndex
  rw [if_neg nonempty]
  dsimp only
  generalize sort : (List.replicate (c.size - (c.keys.filterMap l).length) 0
    ++ (c.keys.filterMap l).reverse).insertionSort (· ≤ ·) = srt
  have sorted : srt.Pairwise (· ≤ ·) := sort ▸ List.pairwise_insertionSort (· ≤ ·) _
  have perm := sort ▸ List.perm_insertionSort (· ≤ ·)
    (List.replicate (c.size - (c.keys.filterMap l).length) 0 ++ (c.keys.filterMap l).reverse)
  have few : (c.keys.filterMap l).length ≤ c.size := by
    rw [← c.length_keys]
    exact List.length_filterMap_le _ _
  have length : srt.length = c.size := by
    rw [perm.length_eq, List.length_append, List.length_replicate, List.length_reverse]
    omega
  -- the slots without an acknowledgement hold zero, which is below every index
  have count : srt.countP (fun x => decide (i ≤ x)) = c.keys.countP (l.acks i) := by
    rw [perm.countP_eq, List.countP_append, List.countP_replicate, List.countP_reverse,
      countP_filterMap_acks, if_neg (by simpa using Nat.ne_of_gt positive), Nat.zero_add]
  have inside : c.size - (c.size / 2 + 1) < srt.length := by omega
  rw [List.getD_eq_getElem?_getD, List.getElem?_eq_getElem inside, Option.getD_some,
    le_getElem_iff_countP sorted i inside, length, count]
  omega

theorem MajorityConfig.le_committedIndex_iff_agrees {c : MajorityConfig}
    (l : AckedIndexer) {i : Nat} (positive : 1 ≤ i) (fits : i ≤ maxUint64)
    : i ≤ c.committedIndex l ↔ c.Agrees (l.acks i) := by
  by_cases empty : c.size = 0
  · have top : c.committedIndex l = maxUint64 := by
      unfold MajorityConfig.committedIndex
      rw [if_pos empty]
    rw [top]
    exact ⟨fun _ nonempty => absurd empty nonempty, fun _ => fits⟩
  · rw [le_committedIndex l positive empty]
    constructor
    · intro votes _
      omega
    · intro agrees
      have := agrees empty
      omega

theorem JointConfig.le_committedIndex_iff_agrees {c : JointConfig} (l : AckedIndexer)
    {i : Nat} (positive : 1 ≤ i) (fits : i ≤ maxUint64)
    : i ≤ c.committedIndex l ↔ c.Agrees (l.acks i) := by
  unfold JointConfig.committedIndex JointConfig.Agrees
  rw [← MajorityConfig.le_committedIndex_iff_agrees l positive fits,
    ← MajorityConfig.le_committedIndex_iff_agrees l positive fits]
  dsimp only
  split <;> omega

/-- On the voters of either half, the votes on an index are the acknowledgements of it. -/
theorem JointConfig.agrees_votesOn {c : JointConfig} {l : AckedIndexer} {i : Nat}
    : (c.Agrees fun id => (c.votesOn l i).get? id == some true)
      ↔ c.Agrees (l.acks i) := by
  have voted {half : MajorityConfig} (voters : ∀ id ∈ half.keys, c.ids.contains id = true)
      : half.keys.countP (fun id => (c.votesOn l i).get? id == some true)
        = half.keys.countP (l.acks i) := by
    refine List.countP_congr fun id member => ?_
    obtain ⟨_, found⟩ := Option.isSome_iff_exists.mp (voters id member)
    simp [votesOn, found]
  unfold JointConfig.Agrees MajorityConfig.Agrees
  rw [voted fun id member => ?_, voted fun id member => ?_]
  · rw [contains_ids, IdMap.contains_iff.mpr member, Bool.or_true]
  · rw [contains_ids, IdMap.contains_iff.mpr member, Bool.true_or]

-----------------------------------------------------------------------------------------
-- The alternative implementation
-----------------------------------------------------------------------------------------

/-- `alternativeMajorityCommittedIndex`, the version of the tests: count the voters of
every acknowledged index, and take the largest one that has a quorum.
-/
def alternativeMajorityCommittedIndex (c : MajorityConfig) (l : AckedIndexer) : Nat :=
  if c.size = 0 then
    maxUint64
  else
    let idToIdx := c.keys.filterMap l
    let unvoted : IdMap Nat := idToIdx.foldl (fun m idx => m.insert idx 0) .empty
    let idxToVotes := idToIdx.foldl
      (fun m idx => m.mapValues fun idy n => if idy > idx then n else n + 1) unvoted
    let q := c.size / 2 + 1
    idxToVotes.entries.foldl (fun maxQuorumIdx e =>
      if e.2 ≥ q ∧ e.1 > maxQuorumIdx then e.1 else maxQuorumIdx) 0

theorem get?_foldl_insert_zero (idxs : List Nat) (m : IdMap Nat) (i : Nat)
    : (idxs.foldl (fun m idx => m.insert idx 0) m).get? i
      = if i ∈ idxs then some 0 else m.get? i := by
  induction idxs generalizing m with
  | nil => simp
  | cons idx rest ih =>
      rw [List.foldl_cons, ih, IdMap.get?_insert]
      by_cases later : i ∈ rest <;> by_cases here : i = idx <;> simp [later, here]

theorem get?_foldl_count (idxs : List Nat) (m : IdMap Nat) (i : Nat)
    : (idxs.foldl (fun m idx => m.mapValues fun idy n => if idy > idx then n else n + 1) m).get? i
      = (m.get? i).map (· + idxs.countP fun x => decide (i ≤ x)) := by
  induction idxs generalizing m with
  | nil => simp
  | cons idx rest ih =>
      rw [List.foldl_cons, ih, IdMap.get?_mapValues, List.countP_cons]
      cases m.get? i with
      | none => rfl
      | some n =>
          by_cases above : i ≤ idx
          · simp [above, Nat.not_lt.mpr above]
            omega
          · simp [above, Nat.lt_of_not_le above]

/-- The loop over the counted indexes finds the largest one with a quorum. -/
theorem le_foldl_max {q i : Nat} (votes : List (Nat × Nat)) (start : Nat)
    : i ≤ votes.foldl (fun maxQuorumIdx e =>
        if e.2 ≥ q ∧ e.1 > maxQuorumIdx then e.1 else maxQuorumIdx) start
      ↔ i ≤ start ∨ ∃ e ∈ votes, q ≤ e.2 ∧ i ≤ e.1 := by
  induction votes generalizing start with
  | nil => simp
  | cons e rest ih =>
      rw [List.foldl_cons, ih]
      simp only [List.mem_cons, exists_eq_or_imp]
      by_cases better : e.2 ≥ q ∧ e.1 > start
      · rw [if_pos better]
        constructor
        · rintro (here | later)
          · exact .inr (.inl ⟨better.1, here⟩)
          · exact .inr (.inr later)
        · rintro (before | ⟨_, here⟩ | later)
          · exact .inl (by omega)
          · exact .inl here
          · exact .inr later
      · rw [if_neg better]
        constructor
        · rintro (before | later)
          · exact .inl before
          · exact .inr (.inr later)
        · rintro (before | ⟨quorum, here⟩ | later)
          · exact .inl before
          · exact .inl (by omega)
          · exact .inr later

/-- An acknowledgement that reaches the index exists where there is a majority of them;
the least one has the same majority.
-/
theorem exists_mem_countP {l : List Nat} {i q : Nat} (positive : 1 ≤ q)
    : (∃ x ∈ l, q ≤ l.countP (fun y => decide (x ≤ y)) ∧ i ≤ x)
      ↔ q ≤ l.countP fun y => decide (i ≤ y) := by
  constructor
  · rintro ⟨x, _, quorum, above⟩
    refine Nat.le_trans quorum (List.countP_mono_left fun y _ reached => ?_)
    exact decide_eq_true (Nat.le_trans above (of_decide_eq_true reached))
  · intro quorum
    obtain ⟨x₀, member₀, above₀⟩ :=
      List.countP_pos_iff.mp (Nat.lt_of_lt_of_le positive quorum)
    have reached : ∃ x, x ∈ l ∧ i ≤ x := ⟨x₀, member₀, of_decide_eq_true above₀⟩
    obtain ⟨member, above⟩ := Nat.find_spec reached
    refine ⟨Nat.find reached, member, ?_, above⟩
    refine Nat.le_trans quorum (List.countP_mono_left fun y inside higher => ?_)
    exact decide_eq_true (Nat.find_min' reached ⟨inside, of_decide_eq_true higher⟩)

theorem mem_entries_iff {m : IdMap Nat} {e : Nat × Nat}
    : e ∈ m.entries ↔ m.get? e.1 = some e.2 :=
  ⟨IdMap.get?_of_mem, IdMap.mem_of_get?⟩

/-- The alternative implementation commits the same indexes. -/
theorem le_alternativeMajorityCommittedIndex {c : MajorityConfig} (l : AckedIndexer)
    {i : Nat} (positive : 1 ≤ i) (nonempty : c.size ≠ 0)
    : i ≤ alternativeMajorityCommittedIndex c l
      ↔ c.size / 2 + 1 ≤ c.keys.countP (l.acks i) := by
  unfold alternativeMajorityCommittedIndex
  rw [if_neg nonempty]
  dsimp only
  rw [le_foldl_max, ← countP_filterMap_acks, ← exists_mem_countP (Nat.succ_pos _)]
  generalize c.keys.filterMap l = idxs
  have counted (e : Nat × Nat)
      : e ∈ (idxs.foldl (fun m idx => m.mapValues fun idy n => if idy > idx then n else n + 1)
          (idxs.foldl (fun m idx => m.insert idx 0) IdMap.empty)).entries
        ↔ e.1 ∈ idxs ∧ e.2 = idxs.countP fun x => decide (e.1 ≤ x) := by
    rw [mem_entries_iff, get?_foldl_count, get?_foldl_insert_zero, IdMap.get?_empty]
    by_cases acked : e.1 ∈ idxs
    · simp only [acked, if_true, Option.map_some, Nat.zero_add, Option.some.injEq, true_and]
      exact eq_comm
    · simp [acked]
  constructor
  · rintro (none | ⟨e, member, quorum, above⟩)
    · omega
    · obtain ⟨acked, votes⟩ := (counted e).mp member
      exact ⟨e.1, acked, votes ▸ quorum, above⟩
  · rintro ⟨x, member, quorum, above⟩
    exact .inr ⟨(x, _), (counted _).mpr ⟨member, rfl⟩, quorum, above⟩

/-- `CommittedIndex` as the tests compute it. -/
theorem MajorityConfig.committedIndex_eq_alternative (c : MajorityConfig)
    (l : AckedIndexer)
    : c.committedIndex l = alternativeMajorityCommittedIndex c l := by
  by_cases empty : c.size = 0
  · unfold MajorityConfig.committedIndex alternativeMajorityCommittedIndex
    rw [if_pos empty, if_pos empty]
  · refine Nat.le_antisymm ?_ ?_
    · rcases Nat.eq_zero_or_pos (c.committedIndex l) with zero | positive
      · exact zero ▸ Nat.zero_le _
      · exact (le_alternativeMajorityCommittedIndex l positive empty).mpr
          ((le_committedIndex l positive empty).mp (Nat.le_refl _))
    · rcases Nat.eq_zero_or_pos (alternativeMajorityCommittedIndex c l) with zero | positive
      · exact zero ▸ Nat.zero_le _
      · exact (le_committedIndex l positive empty).mpr
          ((le_alternativeMajorityCommittedIndex l positive empty).mp (Nat.le_refl _))

-----------------------------------------------------------------------------------------
-- Joint configurations
-----------------------------------------------------------------------------------------

/-- Acknowledged indexes are 64-bit numbers, and so is the committed one. -/
theorem MajorityConfig.committedIndex_le {c : MajorityConfig} {l : AckedIndexer}
    (fits : ∀ id idx, l id = some idx → idx ≤ maxUint64)
    : c.committedIndex l ≤ maxUint64 := by
  by_contra above
  have empty : c.size ≠ 0 := by
    intro empty
    unfold MajorityConfig.committedIndex at above
    rw [if_pos empty] at above
    exact above (Nat.le_refl _)
  have quorum := (le_committedIndex (c := c) (i := maxUint64 + 1) l (Nat.succ_pos _) empty).mp
    (Nat.lt_of_not_le above)
  obtain ⟨id, _, acked⟩ :=
    List.countP_pos_iff.mp (Nat.lt_of_lt_of_le (Nat.succ_pos _) quorum)
  cases found : l id with
  | none => simp [AckedIndexer.acks, found] at acked
  | some idx =>
      have high : maxUint64 + 1 ≤ idx := by simpa [AckedIndexer.acks, found] using acked
      exact absurd (fits id idx found) (Nat.not_le_of_lt high)

/-- The indexes from one up to the committed one are those that win a vote in which every
voter votes whether it has acknowledged the index. Thus the committed index is the largest
one acknowledged by a majority of each half that has voters (zero if there is none), and
on each half it is what the alternative implementation computes.
-/
theorem JointConfig.committedIndex_iff_voteWon (c : JointConfig) (l : AckedIndexer)
    (fits : ∀ id idx, l id = some idx → idx ≤ maxUint64)
    : (∀ i, 1 ≤ i → i ≤ maxUint64
        → (c.committedIndex l ≥ i ↔ c.voteResult (c.votesOn l i) = .voteWon))
      ∧ IsGreatest {i | i ≤ maxUint64 ∧ (i = 0 ∨ c.Agrees (l.acks i))} (c.committedIndex l)
      ∧ ∀ half : MajorityConfig,
          half.committedIndex l = alternativeMajorityCommittedIndex half l := by
  have small : c.committedIndex l ≤ maxUint64 := by
    unfold JointConfig.committedIndex
    dsimp only
    split <;> exact MajorityConfig.committedIndex_le fits
  refine ⟨fun i positive below => ?_, ⟨⟨small, ?_⟩, ?_⟩, fun half => ?_⟩
  · rw [voteResult_eq_voteWon, agrees_votesOn]
    exact le_committedIndex_iff_agrees l positive below
  · rcases Nat.eq_zero_or_pos (c.committedIndex l) with zero | positive
    · exact .inl zero
    · exact .inr ((le_committedIndex_iff_agrees l positive small).mp (Nat.le_refl _))
  · rintro i ⟨below, acked⟩
    rcases Nat.eq_zero_or_pos i with rfl | positive
    · exact Nat.zero_le _
    · refine (le_committedIndex_iff_agrees l positive below).mpr ?_
      exact acked.resolve_left (Nat.ne_of_gt positive)
  · exact half.committedIndex_eq_alternative l

/-- Voters 1 to 4 in the incoming half and 1, 2 in the outgoing one; 3 has not
acknowledged anything.
-/
theorem committedIndex_iff_voteWon_joint
    : let c : JointConfig :=
        { incoming := .ofList [(1, ()), (2, ()), (3, ()), (4, ())]
          outgoing := some (.ofList [(1, ()), (2, ())]) }
      let l : AckedIndexer := (IdMap.ofList [(1, 2), (2, 4), (4, 8)]).get?
      c.committedIndex l = 2 ∧ c.voteResult (c.votesOn l 2) = .voteWon
        ∧ c.voteResult (c.votesOn l 3) ≠ .voteWon := by
  intro c l
  have agrees := (c.committedIndex_iff_voteWon l ?_).1
  · refine ⟨by decide, (agrees 2 (by decide) (by decide)).mp (by decide), fun won => ?_⟩
    exact absurd ((agrees 3 (by decide) (by decide)).mpr won) (by decide)
  · intro id idx found
    have stored := IdMap.mem_of_get? found
    have all : ∀ e ∈ (IdMap.ofList [(1, 2), (2, 4), (4, 8)]).entries, e.2 ≤ maxUint64 := by decide
    exact all _ stored

end EtcdRaft
