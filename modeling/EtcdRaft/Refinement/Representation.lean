import EtcdRaft.Refinement.View

/-! The representation invariant of the raft log, and the log it represents: the entries
of the storage up to the unstable ones, then the unstable ones.
-/

namespace EtcdRaft

namespace RaftLog

/-- The entry that the raft log has at an index, none where it is compacted or beyond the
end.
-/
def entry? (l : RaftLog) (i : Nat) : Option Entry :=
  if l.unstable.offset ≤ i then
    l.unstable.entries[i - l.unstable.offset]?
  else if i < l.firstIndex then
    none
  else
    l.storage.ents[i - l.storage.dummy.index - 1]?

theorem mem_of_entry? {l : RaftLog} {i : Nat} {e : Entry} (found : l.entry? i = some e)
    : e ∈ l.unstable.entries ++ l.storage.ents := by
  unfold entry? at found
  split at found
  · exact List.mem_append_left _ (List.mem_of_getElem? found)
  split at found
  · cases found
  · exact List.mem_append_right _ (List.mem_of_getElem? found)

/-- The entry before the first one, of which only the ID is known. -/
def startID (l : RaftLog) : EntryID :=
  match l.unstable.snapshot with
  | some s => { term := s.metadata.term, index := s.metadata.index }
  | none => l.storage.dummy.id

/-- The raft log has an entry with this ID. -/
def Contains (l : RaftLog) (id : EntryID) : Prop :=
  match l.entry? id.index with
  | some e => e.term = id.term
  | none => id = l.startID

instance (l : RaftLog) (id : EntryID) : Decidable (l.Contains id) := by
  unfold Contains
  split <;> infer_instance

/-- The entries of the raft log from `lo` up to `hi`, without `hi`. -/
def entriesBetween (l : RaftLog) (lo hi : Nat) : List Entry :=
  (List.range' lo (hi - lo)).filterMap l.entry?

/-- The representation invariant of a raft log over a memory storage. -/
@[mk_iff] structure WellFormed (l : RaftLog) : Prop where
  applied : l.applied ≤ l.applying
  applying : l.applying ≤ l.committed
  committed : l.committed ≤ l.lastIndex
  /-- What is committed and not compacted can be read. -/
  firstIndex : l.firstIndex ≤ l.committed + 1
  offset : l.unstable.offset ≤ l.unstable.offsetInProgress
  inProgress : l.unstable.offsetInProgress ≤ l.unstable.offset + l.unstable.entries.length
  unstable : ∀ k, (inside : k < l.unstable.entries.length)
    → l.unstable.entries[k].index = l.unstable.offset + k
  stored : ∀ k, (inside : k < l.storage.ents.length)
    → l.storage.ents[k].index = l.storage.dummy.index + 1 + k
  start : l.storage.dummy.index = 0 → l.storage.dummy.term = 0
  /-- The unstable entries follow the snapshot, if there is one. -/
  snapshot : ∀ s ∈ l.unstable.snapshot,
    0 < s.metadata.index ∧ l.unstable.offset = s.metadata.index + 1
  /-- Without a snapshot they follow stored entries; the storage may end with entries that
  the unstable ones replace, unless there are none.
  -/
  joined : l.unstable.snapshot = none
    → 1 ≤ l.unstable.offset ∧ l.unstable.offset ≤ l.storage.lastIndex + 1
      ∧ (l.unstable.entries = [] → l.unstable.offset = l.storage.lastIndex + 1)
  /-- The terms do not decrease, from the entry before the first one on. -/
  terms : ∀ i < l.lastIndex, l.firstIndex ≤ i + 1 → l.zeroTerm i ≤ l.zeroTerm (i + 1)

instance (l : RaftLog) : Decidable l.WellFormed := decidable_of_iff' _ (wellFormed_iff l)

end RaftLog

-----------------------------------------------------------------------------------------
-- The represented log as a list
-----------------------------------------------------------------------------------------

theorem termAt_replicate_append {n t : Nat} (rest : List Entry) (positive : 0 < n)
    : termAt (List.replicate n { term := t } ++ rest) n = t := by
  obtain ⟨k, rfl⟩ : ∃ k, n = k + 1 := ⟨n - 1, by omega⟩
  refine termAt_succ (e := { term := t }) ?_
  rw [List.getElem?_append_left (by simp), List.getElem?_replicate, if_pos (Nat.lt_succ_self k)]

namespace RaftLog.WellFormed

variable {l : RaftLog}

/-- The stored entries after some for the compacted ones. -/
theorem exists_stored (ok : l.WellFormed) : ∃ d, Stored l.storage d := by
  refine ⟨List.replicate l.storage.dummy.index { term := l.storage.dummy.term } ++ l.storage.ents,
    ?_, ?_, ?_⟩
  · simp
  · rw [List.drop_append_of_le_length (by simp)]
    simp
  · rcases Nat.eq_zero_or_pos l.storage.dummy.index with zero | positive
    · rw [ok.start zero, zero, termAt_zero]
    · rw [termAt_replicate_append _ positive]

theorem lastIndex_eq (ok : l.WellFormed)
    : l.lastIndex + 1 = l.unstable.offset + l.unstable.entries.length := by
  unfold RaftLog.lastIndex Unstable.maybeLastIndex
  by_cases empty : l.unstable.entries.length = 0
  · rw [if_neg (by simpa using empty)]
    cases pending : l.unstable.snapshot with
    | some s =>
        have := (ok.snapshot s pending).2
        simp only [Option.map_some, Option.getD_some]
        omega
    | none =>
        have := (ok.joined pending).2.2 (List.length_eq_zero_iff.mp empty)
        simp only [Option.map_none, Option.getD_none]
        omega
  · rw [if_pos empty]
    simp only [Option.getD_some]
    omega

/-- A log that is represented is one for which the raft log stands. -/
theorem exists_shows (ok : l.WellFormed) : ∃ c, Shows l c := by
  cases pending : l.unstable.snapshot with
  | some s =>
      obtain ⟨positive, offset⟩ := ok.snapshot s pending
      refine ⟨List.replicate s.metadata.index { term := s.metadata.term } ++ l.unstable.entries,
        by omega, by simp; omega, ?_, ?_, fun none => ?_⟩
      · rw [List.drop_append_of_le_length (by simp; omega), offset]
        simp
      · intro s' pending'
        cases pending.symm.trans pending'
        exact ⟨offset, (termAt_replicate_append _ positive).symm⟩
      · rw [pending] at none
        cases none
  | none =>
      obtain ⟨d, stored⟩ := ok.exists_stored
      obtain ⟨positive, joined, whole⟩ := ok.joined pending
      rw [stored.lastIndex] at joined whole
      have length : (d.take (l.unstable.offset - 1)).length = l.unstable.offset - 1 := by
        rw [List.length_take]
        omega
      have first : l.firstIndex = l.storage.dummy.index + 1 := by
        simp [RaftLog.firstIndex, Unstable.maybeFirstIndex, pending, MemoryStorage.firstIndex]
      have bound : l.storage.dummy.index ≤ l.lastIndex := by
        have := ok.firstIndex
        have := ok.committed
        omega
      refine ⟨d.take (l.unstable.offset - 1) ++ l.unstable.entries,
        positive, by rw [List.length_append, length]; omega, ?_, fun s some => ?_, fun _ => ?_⟩
      · rw [List.drop_append_of_le_length length.ge, List.drop_of_length_le length.le,
          List.nil_append]
      · rw [pending] at some
        cases some
      · refine ⟨d, stored, ?_, fun empty => ?_, ?_⟩
        · rw [List.take_append_of_le_length length.ge, List.take_take, Nat.min_self]
          exact List.take_prefix _ _
        · rw [empty, List.append_nil, List.take_of_length_le]
          have := whole empty
          omega
        · rw [List.length_append, length]
          have := ok.lastIndex_eq
          omega

end RaftLog.WellFormed

namespace Shows

variable {l : RaftLog} {c : List Entry}

/-- The indexes from which on the entries of the log are known. -/
theorem entry? (shows : Shows l c) {i : Nat}
    (available : l.firstIndex ≤ i ∨ l.unstable.offset ≤ i)
    : l.entry? i = (c)[i - 1]? := by
  have first := l.firstIndex_pos
  have positive := shows.positive
  unfold RaftLog.entry?
  by_cases unstable : l.unstable.offset ≤ i
  · rw [if_pos unstable, shows.entries, List.getElem?_drop]
    congr 1
    omega
  · have available' := available.resolve_right unstable
    rw [if_neg unstable, if_neg (Nat.not_lt.mpr available')]
    obtain ⟨d, stored, above, length, same⟩ :=
      @stored_part l c shows i (i + 1) available' (by omega) (by omega)
    have one : d[i - 1]? = (c)[i - 1]? := by
      have := congrArg List.head? same
      rwa [Nat.add_sub_cancel_left, List.head?_take, List.head?_take, List.head?_drop,
        List.head?_drop] at this
    rw [stored.ents, List.getElem?_drop, ← one]
    congr 1
    omega

theorem entry?_eq_none {i : Nat} (compacted : i < l.firstIndex)
    (stable : i < l.unstable.offset)
    : l.entry? i = none := by
  unfold RaftLog.entry?
  rw [if_neg (Nat.not_le.mpr stable), if_pos compacted]

theorem firstIndex_eq (l : RaftLog) : l.firstIndex = l.startID.index + 1 := by
  unfold RaftLog.firstIndex Unstable.maybeFirstIndex RaftLog.startID
  cases l.unstable.snapshot <;> rfl

/-- The term before the first entry. -/
theorem term_startID (shows : Shows l c) (stable : l.startID.index < l.unstable.offset)
    : l.term l.startID.index = .ok l.startID.term := by
  have first := firstIndex_eq l
  have within := shows.firstIndex_le
  rw [shows.term (by omega) (by omega)]
  unfold RaftLog.startID at stable ⊢
  cases pending : l.unstable.snapshot with
  | some s =>
      simp only
      rw [(shows.snapshot s pending).2]
  | none =>
      obtain ⟨d, stored, agree, _, bound⟩ := shows.stable pending
      simp only [pending, Entry.id] at stable ⊢
      rw [stored.dummyTerm]
      congr 1
      refine termAt_congr ?_
      obtain ⟨rest, rfl⟩ := agree
      rw [List.take_append_of_le_length (by rw [List.length_take]; omega), List.take_take]
      congr 1
      omega

theorem zeroTerm (shows : Shows l c) {i : Nat} (available : l.firstIndex ≤ i + 1)
    (present : i ≤ c.length)
    : l.zeroTerm i = termAt c i := by
  unfold RaftLog.zeroTerm
  rw [shows.term available present]

theorem term_unstable (shows : Shows l c) {i : Nat} (unstable : l.unstable.offset ≤ i)
    (present : i ≤ c.length)
    : l.term i = .ok (termAt c i) := by
  unfold RaftLog.term
  rw [shows.maybeTerm_unstable unstable present]
  rfl

theorem term_compacted {i : Nat} (compacted : i + 1 < l.firstIndex)
    (stable : i < l.unstable.offset)
    : l.term i = .error .errCompacted := by
  have none : l.unstable.maybeTerm i = none := by
    unfold Unstable.maybeTerm
    rw [if_pos stable]
    cases pending : l.unstable.snapshot with
    | none => rfl
    | some s =>
        simp only [RaftLog.firstIndex, Unstable.maybeFirstIndex, pending, Option.map_some,
          Option.getD_some] at compacted
        exact if_neg (by omega)
  have next : (if i ≤ l.lastIndex then i + 1 else add64 i 1) ≤ i + 1 := by
    split
    · exact Nat.le_refl _
    · exact Nat.mod_le _ _
  unfold RaftLog.term
  rw [none]
  exact if_pos (Nat.lt_of_le_of_lt next compacted)

theorem matchTerm_of (shows : Shows l c) {id : EntryID}
    (available : l.firstIndex ≤ id.index + 1 ∨ l.unstable.offset ≤ id.index)
    (present : id.index ≤ c.length) (same : termAt c id.index = id.term)
    : l.matchTerm id = true := by
  have read : l.term id.index = .ok (termAt c id.index) := by
    rcases available with available | unstable
    · exact shows.term available present
    · exact shows.term_unstable unstable present
  unfold RaftLog.matchTerm
  rw [read]
  simpa using same

/-- `matchTerm` asks whether the log has an entry with the ID. -/
theorem matchTerm_iff_contains (shows : Shows l c) {id : EntryID}
    : l.matchTerm id = true ↔ l.Contains id := by
  have first := firstIndex_eq l
  have last := shows.firstIndex_le
  by_cases available : l.firstIndex ≤ id.index ∨ l.unstable.offset ≤ id.index
  · unfold RaftLog.Contains
    rw [shows.entry? available]
    have positive := shows.positive
    have first' := l.firstIndex_pos
    cases found : (c)[id.index - 1]? with
    | some e =>
        have inside := (List.getElem?_eq_some_iff.mp found).1
        have term := termAt_succ found
        rw [Nat.sub_add_cancel (by omega)] at term
        constructor
        · intro matches_
          exact term.symm.trans (shows.matchTerm matches_).2
        · intro same
          refine shows.matchTerm_of ?_ (by omega) (term.trans same)
          exact available.imp_left Nat.le_succ_of_le
    | none =>
        have beyond := List.getElem?_eq_none_iff.mp found
        constructor
        · intro matches_
          have := (shows.matchTerm matches_).1
          omega
        · intro same
          have := congrArg EntryID.index same
          omega
  · have stable : id.index < l.unstable.offset := by omega
    unfold RaftLog.Contains
    rw [entry?_eq_none (by omega) stable]
    constructor
    · intro matches_
      unfold RaftLog.matchTerm at matches_
      by_cases before : id.index + 1 < l.firstIndex
      · rw [term_compacted before stable] at matches_
        cases matches_
      · have here : id.index = l.startID.index := by omega
        rw [here, shows.term_startID (by omega)] at matches_
        simp only [beq_iff_eq] at matches_
        exact congrArg₂ EntryID.mk matches_.symm here
    · rintro rfl
      unfold RaftLog.matchTerm
      rw [shows.term_startID stable]
      simp

/-- The log has the entry with an ID: it can be read, and has the term. -/
theorem contains_iff (shows : Shows l c) {id : EntryID}
    : l.Contains id ↔ (l.firstIndex ≤ id.index + 1 ∨ l.unstable.offset ≤ id.index)
      ∧ id.index ≤ c.length ∧ termAt c id.index = id.term := by
  rw [← shows.matchTerm_iff_contains]
  constructor
  · intro holds
    refine ⟨?_, shows.matchTerm holds⟩
    by_contra hidden
    unfold RaftLog.matchTerm at holds
    rw [term_compacted (by omega) (by omega)] at holds
    cases holds
  · rintro ⟨available, present, same⟩
    exact shows.matchTerm_of available present same

/-- The entries between two indexes are that part of the list, all of it. -/
theorem entriesBetween (shows : Shows l c) {lo hi : Nat} (available : l.firstIndex ≤ lo)
    : l.entriesBetween lo hi = (c.drop (lo - 1)).take (hi - lo) := by
  have first := l.firstIndex_pos
  unfold RaftLog.entriesBetween
  generalize hi - lo = n
  induction n generalizing lo with
  | zero => simp
  | succ n ih =>
      rw [List.range'_succ, List.filterMap_cons, shows.entry? (.inl available)]
      have next := @ih (lo + 1) (by omega)
      rw [Nat.add_sub_cancel] at next
      rw [next]
      cases found : (c)[lo - 1]? with
      | none =>
          have beyond := List.getElem?_eq_none_iff.mp found
          rw [List.drop_of_length_le beyond, List.drop_of_length_le (by omega)]
          simp
      | some e =>
          obtain ⟨inside, rfl⟩ := List.getElem?_eq_some_iff.mp found
          rw [List.drop_eq_getElem_cons inside, List.take_succ_cons, Nat.sub_add_cancel (by omega)]

end Shows

end EtcdRaft
