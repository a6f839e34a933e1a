import EtcdRaft.Foundation.Outcome
import EtcdRaft.Model.Log
import Mathlib.Data.List.Infix
import Mathlib.Data.List.TakeDrop

/-! Reading the raft log. A storage stands for a list of entries from the first one on,
and so does a raft log; the functions that read the log read that list.
-/

namespace EtcdRaft

-----------------------------------------------------------------------------------------
-- Lists of entries
-----------------------------------------------------------------------------------------

/-- The entries have the indexes 1, 2 and so on. -/
def Indexed (l : List Entry) : Prop := ∀ i e, l[i]? = some e → e.index = i + 1

/-- The term of the entry at an index, zero where there is none. -/
def termAt (l : List Entry) (i : Nat) : Nat := ((l.take i).getLast?.map Entry.term).getD 0

theorem getElem?_of_isPrefix {α : Type} {l l' : List α} {i : Nat} {e : α} (pre : l <+: l')
    (found : l[i]? = some e)
    : l'[i]? = some e := by
  obtain ⟨rest, rfl⟩ := pre
  rw [List.getElem?_append_left (List.getElem?_eq_some_iff.mp found).1]
  exact found

theorem Indexed.of_extension {l l' : List Entry} (indexed : Indexed l') (pre : l <+: l')
    : Indexed l :=
  fun i e found => indexed i e (getElem?_of_isPrefix pre found)

theorem termAt_zero (l : List Entry) : termAt l 0 = 0 := by simp [termAt]

theorem termAt_succ {l : List Entry} {i : Nat} {e : Entry} (found : l[i]? = some e)
    : termAt l (i + 1) = e.term := by
  simp [termAt, List.take_add_one, found]

theorem termAt_congr {l l' : List Entry} {i : Nat} (same : l.take i = l'.take i)
    : termAt l i = termAt l' i := by
  simp [termAt, same]

theorem sub64_of_le {a b : Nat} (le : b ≤ a) : sub64 a b = a - b := if_pos le

theorem add64_of_lt {a b : Nat} (small : a + b < 2 ^ 64) : add64 a b = a + b :=
  Nat.mod_eq_of_lt small

theorem limitSizeRest_isPrefix [Codec] (maxSize size : Nat) (ents : List Entry)
    : limitSizeRest maxSize size ents <+: ents := by
  induction ents generalizing size with
  | nil => exact List.prefix_rfl
  | cons e rest ih =>
      unfold limitSizeRest
      split
      · exact List.nil_prefix
      · exact (List.prefix_cons_inj e).mpr (ih _)

theorem limitSize_isPrefix [Codec] (ents : List Entry) (maxSize : Nat)
    : limitSize ents maxSize <+: ents := by
  cases ents with
  | nil => exact List.prefix_rfl
  | cons e rest => exact (List.prefix_cons_inj e).mpr (limitSizeRest_isPrefix _ _ _)

theorem limitSize_ne_nil [Codec] {ents : List Entry} {maxSize : Nat}
    (nonempty : ents ≠ [])
    : limitSize ents maxSize ≠ [] := by
  cases ents with
  | nil => exact absurd rfl nonempty
  | cons e rest => simp [limitSize]

/-- What `slice` makes of the stored and the unstable part of what it reads. -/
def limitParts [Codec] (stored unstable : List Entry) (maxSize : Nat) : List Entry :=
  let ents := limitSize stored maxSize
  if ents.length < stored.length ∨ maxSize ≤ entsSize ents then
    ents
  else
    let rest := limitSize unstable (maxSize - entsSize ents)
    if rest.length = 1 ∧ entsSize ents + entsSize rest > maxSize then ents else ents ++ rest

theorem limitParts_isPrefix [Codec] (stored unstable : List Entry) (maxSize : Nat)
    : limitParts stored unstable maxSize <+: stored ++ unstable := by
  have read := limitSize_isPrefix stored maxSize
  have part := read.trans (List.prefix_append stored unstable)
  unfold limitParts
  simp only
  by_cases cut : (limitSize stored maxSize).length < stored.length
      ∨ maxSize ≤ entsSize (limitSize stored maxSize)
  · rw [if_pos cut]
    exact part
  rw [if_neg cut]
  split
  · exact part
  · have whole := read.eq_of_length_le (Nat.le_of_not_lt (not_or.mp cut).1)
    rw [whole]
    exact (List.prefix_append_right_inj _).mpr (limitSize_isPrefix _ _)

theorem limitParts_ne_nil [Codec] {stored unstable : List Entry} {maxSize : Nat}
    (nonempty : stored ≠ [])
    : limitParts stored unstable maxSize ≠ [] := by
  have some : limitSize stored maxSize ≠ [] := limitSize_ne_nil nonempty
  unfold limitParts
  simp only
  split
  · exact some
  · split <;> simp [some]

-----------------------------------------------------------------------------------------
-- Storage
-----------------------------------------------------------------------------------------

/-- The storage holds the entries `d`, as far as they are not compacted. -/
structure Stored (ms : MemoryStorage) (d : List Entry) : Prop where
  within : ms.dummy.index ≤ d.length
  ents : ms.ents = d.drop ms.dummy.index
  dummyTerm : ms.dummy.term = termAt d ms.dummy.index

namespace Stored

variable {ms : MemoryStorage} {d : List Entry}

theorem lastIndex (stored : Stored ms d) : ms.lastIndex = d.length := by
  have within := stored.within
  simp only [MemoryStorage.lastIndex, stored.ents, List.length_drop]
  omega

theorem term (stored : Stored ms d) {i : Nat} (available : ms.dummy.index ≤ i)
    (present : i ≤ d.length)
    : ms.term i = .ok (termAt d i) := by
  have notBefore : ¬i < ms.dummy.index := by omega
  simp only [MemoryStorage.term, notBefore, ↓reduceIte]
  rcases Nat.eq_or_lt_of_le available with same | after
  · subst same
    simp [stored.dummyTerm]
  · obtain ⟨k, rfl⟩ : ∃ k, i = ms.dummy.index + (k + 1) := ⟨i - ms.dummy.index - 1, by omega⟩
    obtain ⟨e, found⟩ : ∃ e, d[ms.dummy.index + k]? = some e :=
      ⟨_, List.getElem?_eq_getElem (by omega)⟩
    have position : ms.dummy.index + (k + 1) - ms.dummy.index = k + 1 := by omega
    simp only [position, List.getElem?_cons_succ, stored.ents, List.getElem?_drop, found]
    rw [← Nat.add_assoc, termAt_succ found]
    rfl

theorem entries [Codec] (stored : Stored ms d) {lo hi : Nat} (maxSize : Nat)
    (available : ms.dummy.index < lo) (nonempty : lo < hi) (present : hi ≤ d.length + 1)
    : ms.entries lo hi maxSize
      = .ok (.ok (limitSize ((d.drop (lo - 1)).take (hi - lo)) maxSize)) := by
  have last := stored.lastIndex
  have count : ms.ents.length ≠ 0 := by
    rw [stored.ents, List.length_drop]
    omega
  have first : ms.dummy.index + (lo - ms.dummy.index - 1) = lo - 1 := by omega
  unfold MemoryStorage.entries
  rw [if_neg (by omega), if_neg (by omega), if_neg count, if_neg (by omega)]
  rw [stored.ents, List.drop_drop, first]
  rfl

end Stored

-----------------------------------------------------------------------------------------
-- The raft log
-----------------------------------------------------------------------------------------

/-- The raft log stands for the entries `c`: the unstable ones are the end of `c`, the
ones before them come from a snapshot or are stored.
-/
structure Shows (l : RaftLog) (c : List Entry) : Prop where
  positive : 1 ≤ l.unstable.offset
  within : l.unstable.offset ≤ c.length + 1
  entries : l.unstable.entries = c.drop (l.unstable.offset - 1)
  snapshot : ∀ s, l.unstable.snapshot = some s
    → l.unstable.offset = s.metadata.index + 1 ∧ s.metadata.term = termAt c s.metadata.index
  stable : l.unstable.snapshot = none
    → ∃ d, Stored l.storage d ∧ c.take (l.unstable.offset - 1) <+: d
      ∧ (l.unstable.entries = [] → d = c) ∧ l.storage.dummy.index ≤ c.length

theorem RaftLog.firstIndex_pos (l : RaftLog) : 1 ≤ l.firstIndex := by
  unfold RaftLog.firstIndex Unstable.maybeFirstIndex
  cases l.unstable.snapshot with
  | some s => exact Nat.le_add_left 1 s.metadata.index
  | none => exact Nat.le_add_left 1 l.storage.dummy.index

/-- A part of a list, cut in two at `offset`. -/
theorem take_cut (c : List Entry) {lo hi offset : Nat} (positive : 1 ≤ lo)
    (stable : lo < offset)
    : (c.drop (lo - 1)).take (hi - lo)
      = (c.drop (lo - 1)).take (min hi offset - lo)
        ++ (c.drop (offset - 1)).take (hi - offset) := by
  rcases Nat.le_total hi offset with below | above
  · rw [Nat.min_eq_left below, Nat.sub_eq_zero_of_le below, List.take_zero, List.append_nil]
  · rw [Nat.min_eq_right above, show hi - lo = offset - lo + (hi - offset) by omega,
      List.take_add, List.drop_drop, show lo - 1 + (offset - lo) = offset - 1 by omega]

/-- The index of the last entry of a page. -/
theorem index_of_page {c page : List Entry} {first n : Nat} {e : Entry}
    (indexed : Indexed c)
    (read : page <+: (c.drop first).take n) (last : page.getLast? = some e)
    : e.index = first + page.length ∧ page.length ≤ n := by
  rw [List.getLast?_eq_getElem?] at last
  have count := read.length_le
  have inside := (List.getElem?_eq_some_iff.mp last).1
  rw [List.length_take] at count
  have found := getElem?_of_isPrefix read last
  rw [List.getElem?_take_of_lt (by omega), List.getElem?_drop] at found
  have index := indexed _ e found
  omega

namespace Shows

variable {l : RaftLog} {c : List Entry}

theorem length_entries (shows : Shows l c)
    : l.unstable.offset + l.unstable.entries.length = c.length + 1 := by
  have := shows.positive
  have := shows.within
  rw [shows.entries, List.length_drop]
  omega

/-- `lastIndex` is the length of the log. -/
theorem lastIndex (shows : Shows l c) : l.lastIndex = c.length := by
  have length := shows.length_entries
  have positive := shows.positive
  unfold RaftLog.lastIndex Unstable.maybeLastIndex
  by_cases empty : l.unstable.entries.length = 0
  · rw [if_neg (by simpa using empty)]
    cases pending : l.unstable.snapshot with
    | some s =>
        have := (shows.snapshot s pending).1
        simp only [Option.map_some, Option.getD_some]
        omega
    | none =>
        obtain ⟨d, stored, _, whole, _⟩ := shows.stable pending
        have same := whole (List.length_eq_zero_iff.mp empty)
        simp only [Option.map_none, Option.getD_none]
        rw [stored.lastIndex, same]
  · rw [if_pos empty]
    simp only [Option.getD_some]
    omega

/-- The part of the log that can be read ends before its first index. -/
theorem firstIndex_le (shows : Shows l c) : l.firstIndex ≤ c.length + 1 := by
  unfold RaftLog.firstIndex Unstable.maybeFirstIndex
  cases pending : l.unstable.snapshot with
  | some s =>
      have := (shows.snapshot s pending).1
      have := shows.within
      simp only [Option.map_some, Option.getD_some]
      omega
  | none =>
      obtain ⟨d, _, _, _, within⟩ := shows.stable pending
      simp only [Option.map_none, Option.getD_none, MemoryStorage.firstIndex]
      omega

theorem maybeTerm_unstable (shows : Shows l c) {i : Nat}
    (unstable : l.unstable.offset ≤ i) (present : i ≤ c.length)
    : l.unstable.maybeTerm i = some (termAt c i) := by
  have length := shows.length_entries
  have positive := shows.positive
  obtain ⟨k, rfl⟩ : ∃ k, i = k + 1 := ⟨i - 1, by omega⟩
  obtain ⟨e, found⟩ : ∃ e, (c)[k]? = some e := ⟨_, List.getElem?_eq_getElem (by omega)⟩
  have position : l.unstable.offset - 1 + (k + 1 - l.unstable.offset) = k := by omega
  have last : l.unstable.maybeLastIndex = some c.length := by
    unfold Unstable.maybeLastIndex
    rw [if_pos (by omega)]
    congr 1
    omega
  unfold Unstable.maybeTerm
  rw [if_neg (by omega), last]
  simp only
  rw [if_neg (by omega), shows.entries, List.getElem?_drop, position, found, termAt_succ found]
  rfl

theorem maybeTerm_beyond (shows : Shows l c) {i : Nat} (missing : c.length < i)
    : l.unstable.maybeTerm i = none := by
  have length := shows.length_entries
  have within := shows.within
  unfold Unstable.maybeTerm
  rw [if_neg (by omega)]
  unfold Unstable.maybeLastIndex
  by_cases empty : l.unstable.entries.length = 0
  · rw [if_neg (by simpa using empty)]
    cases pending : l.unstable.snapshot with
    | some s =>
        have := (shows.snapshot s pending).1
        simp only [Option.map_some]
        rw [if_pos (by omega)]
    | none => rfl
  · rw [if_pos empty]
    simp only
    rw [if_pos (by omega)]

/-- What `term` does within the log where the unstable entries do not have the answer. -/
theorem term_of_present {i : Nat} (stable : l.unstable.maybeTerm i = none)
    (present : i ≤ l.lastIndex)
    : l.term i = if i + 1
      < l.firstIndex then .error .errCompacted else l.storage.term i := by
  unfold RaftLog.term
  rw [stable]
  dsimp only
  rw [if_pos present, if_neg (Nat.not_lt.mpr present)]
  rfl

theorem term_of_beyond {i : Nat} (stable : l.unstable.maybeTerm i = none)
    (beyond : l.lastIndex < i)
    : ∃ err, l.term i = .error err := by
  unfold RaftLog.term
  rw [stable]
  dsimp only
  rw [if_neg (Nat.not_le.mpr beyond), if_pos beyond]
  split <;> exact ⟨_, rfl⟩

/-- The terms that can be read. -/
theorem term (shows : Shows l c) {i : Nat} (available : l.firstIndex ≤ i + 1)
    (present : i ≤ c.length)
    : l.term i = .ok (termAt c i) := by
  by_cases unstable : l.unstable.offset ≤ i
  · unfold RaftLog.term
    rw [shows.maybeTerm_unstable unstable present]
    rfl
  have last := shows.lastIndex
  cases pending : l.unstable.snapshot with
  | some s =>
      obtain ⟨offset, term⟩ := shows.snapshot s pending
      have first : l.firstIndex = s.metadata.index + 1 := by
        simp [RaftLog.firstIndex, Unstable.maybeFirstIndex, pending]
      have same : s.metadata.index = i := by omega
      simp only [RaftLog.term, Unstable.maybeTerm, pending]
      rw [if_pos (by omega), if_pos same, term, same]
      rfl
  | none =>
      obtain ⟨d, stored, agree, _, _⟩ := shows.stable pending
      have first : l.firstIndex = l.storage.dummy.index + 1 := by
        simp [RaftLog.firstIndex, Unstable.maybeFirstIndex, pending, MemoryStorage.firstIndex]
      have inside := agree.length_le
      have within := shows.within
      rw [List.length_take] at inside
      have none : l.unstable.maybeTerm i = none := by
        simp only [Unstable.maybeTerm, pending]
        rw [if_pos (by omega)]
      rw [term_of_present none (last.symm ▸ present), if_neg (by omega),
        stored.term (by omega) (by omega)]
      congr 1
      refine termAt_congr ?_
      obtain ⟨rest, rfl⟩ := agree
      rw [List.take_append_of_le_length (by rw [List.length_take]; omega), List.take_take]
      congr 1
      omega

theorem term_ok (shows : Shows l c) {i t : Nat} (read : l.term i = .ok t)
    : i ≤ c.length ∧ t = termAt c i := by
  by_cases present : i ≤ c.length
  · refine ⟨present, ?_⟩
    by_cases available : l.firstIndex ≤ i + 1
    · rw [shows.term available present] at read
      exact (Except.ok.inj read).symm
    · by_cases unstable : l.unstable.offset ≤ i
      · unfold RaftLog.term at read
        rw [shows.maybeTerm_unstable unstable present] at read
        exact (Except.ok.inj read).symm
      · have none : l.unstable.maybeTerm i = none := by
          unfold Unstable.maybeTerm
          rw [if_pos (by omega)]
          cases pending : l.unstable.snapshot with
          | none => rfl
          | some s =>
              simp only [RaftLog.firstIndex, Unstable.maybeFirstIndex, pending, Option.map_some,
                Option.getD_some] at available
              exact if_neg (by omega)
        rw [term_of_present none (shows.lastIndex.symm ▸ present), if_pos (by omega)] at read
        cases read
  · have beyond : l.lastIndex < i := shows.lastIndex.symm ▸ Nat.lt_of_not_le present
    obtain ⟨err, fails⟩ := term_of_beyond (shows.maybeTerm_beyond (by omega)) beyond
    cases fails.symm.trans read

theorem matchTerm (shows : Shows l c) {id : EntryID} (holds : l.matchTerm id = true)
    : id.index ≤ c.length ∧ termAt c id.index = id.term := by
  unfold RaftLog.matchTerm at holds
  cases read : l.term id.index with
  | error err => simp [read] at holds
  | ok t =>
      obtain ⟨present, rfl⟩ := shows.term_ok read
      simp only [read, beq_iff_eq] at holds
      exact ⟨present, holds⟩

theorem matchTerm_iff (shows : Shows l c) {id : EntryID}
    (available : l.firstIndex ≤ id.index + 1)
    : l.matchTerm id = true ↔ id.index ≤ c.length ∧ termAt c id.index = id.term := by
  refine ⟨shows.matchTerm, fun ⟨present, same⟩ => ?_⟩
  unfold RaftLog.matchTerm
  rw [shows.term available present]
  simpa using same

theorem lastEntryID (shows : Shows l c)
    : l.lastEntryID = .ok { term := termAt c c.length, index := c.length } := by
  unfold RaftLog.lastEntryID
  rw [shows.lastIndex, shows.term shows.firstIndex_le (Nat.le_refl _)]
  rfl

theorem slice_unstable (shows : Shows l c) {lo hi : Nat}
    (unstable : l.unstable.offset ≤ lo) (ordered : lo ≤ hi) (present : hi ≤ c.length + 1)
    : l.unstable.slice lo hi = .ok ((c.drop (lo - 1)).take (hi - lo)) := by
  have length := shows.length_entries
  have positive := shows.positive
  have first : l.unstable.offset - 1 + (lo - l.unstable.offset) = lo - 1 := by omega
  unfold Unstable.slice Unstable.mustCheckOutOfBounds
  rw [if_neg (by omega), if_neg (by omega), shows.entries, List.drop_drop, first]
  rfl

/-- The stored part of the log, up to the unstable entries. -/
theorem stored_part (shows : Shows l c) {lo hi : Nat} (available : l.firstIndex ≤ lo)
    (stable : lo < l.unstable.offset) (upTo : hi ≤ l.unstable.offset)
    : ∃ d, Stored l.storage d ∧ l.storage.dummy.index < lo ∧ l.unstable.offset ≤ d.length + 1
      ∧ (d.drop (lo - 1)).take (hi - lo) = (c.drop (lo - 1)).take (hi - lo) := by
  cases pending : l.unstable.snapshot with
  | some s =>
      have offset := (shows.snapshot s pending).1
      simp only [RaftLog.firstIndex, Unstable.maybeFirstIndex, pending, Option.map_some,
        Option.getD_some] at available
      omega
  | none =>
      obtain ⟨d, stored, agree, _, _⟩ := shows.stable pending
      have within := shows.within
      have length := agree.length_le
      rw [List.length_take] at length
      simp only [RaftLog.firstIndex, Unstable.maybeFirstIndex, pending, Option.map_none,
        Option.getD_none, MemoryStorage.firstIndex] at available
      refine ⟨d, stored, by omega, by omega, ?_⟩
      obtain ⟨rest, rfl⟩ := agree
      rw [List.drop_append_of_le_length (by rw [List.length_take]; omega),
        List.take_append_of_le_length (by rw [List.length_drop, List.length_take]; omega),
        List.drop_take, List.take_take]
      congr 1
      omega

theorem mustCheckOutOfBounds (shows : Shows l c) {lo hi : Nat}
    : l.mustCheckOutOfBounds lo hi = .ok (.ok ())
      ↔ l.firstIndex ≤ lo ∧ lo ≤ hi ∧ hi ≤ c.length + 1 := by
  have length := sub64_of_le shows.firstIndex_le
  have first := shows.firstIndex_le
  unfold RaftLog.mustCheckOutOfBounds
  rw [shows.lastIndex]
  simp only
  by_cases disordered : lo > hi
  · rw [if_pos disordered]
    simp
    omega
  by_cases compacted : lo < l.firstIndex
  · rw [if_neg disordered, if_pos compacted]
    simp
    omega
  by_cases beyond : hi > l.firstIndex + sub64 (c.length + 1) l.firstIndex
  · rw [if_neg disordered, if_neg compacted, if_pos beyond]
    simp
    omega
  · rw [if_neg disordered, if_neg compacted, if_neg beyond]
    simp
    omega

/-- `slice` reads the stored part and the unstable part of the log. -/
theorem slice_parts [Codec] (shows : Shows l c) {lo hi : Nat} (maxSize : Nat)
    (available : l.firstIndex ≤ lo) (ordered : lo ≤ hi) (present : hi ≤ c.length + 1)
    : l.slice lo hi maxSize = .ok (.ok (
        if lo < l.unstable.offset then
          limitParts ((c.drop (lo - 1)).take (min hi l.unstable.offset - lo))
            ((c.drop (l.unstable.offset - 1)).take (hi - l.unstable.offset)) maxSize
        else
          limitSize ((c.drop (lo - 1)).take (hi - lo)) maxSize)) := by
  have positive := shows.positive
  have first := l.firstIndex_pos
  have checked := shows.mustCheckOutOfBounds.mpr ⟨available, ordered, present⟩
  unfold RaftLog.slice
  rw [checked]
  simp only [except_ok_bind, except_pure]
  by_cases empty : lo = hi
  · subst empty
    rw [if_pos rfl]
    by_cases stable : lo < l.unstable.offset
    · rw [if_pos stable, Nat.min_eq_left stable.le, Nat.sub_self, Nat.sub_eq_zero_of_le stable.le]
      simp [limitParts, limitSize]
    · rw [if_neg stable, Nat.sub_self]
      rfl
  rw [if_neg empty]
  by_cases unstable : l.unstable.offset ≤ lo
  · rw [if_pos unstable, if_neg (by omega), shows.slice_unstable unstable ordered present]
    rfl
  rw [if_neg unstable, if_pos (by omega)]
  obtain ⟨d, stored, notCompacted, length, same⟩ :=
    shows.stored_part available (by omega) (Nat.min_le_right hi l.unstable.offset)
  rw [stored.entries maxSize notCompacted (by omega) (by omega), same]
  simp only [except_ok_bind]
  have count : ((c.drop (lo - 1)).take (min hi l.unstable.offset - lo)).length
      = min hi l.unstable.offset - lo := by
    rw [List.length_take, List.length_drop]
    omega
  generalize (c.drop (lo - 1)).take (min hi l.unstable.offset - lo) = part at count ⊢
  unfold limitParts
  simp only
  by_cases below : hi ≤ l.unstable.offset
  · rw [if_pos below, Nat.sub_eq_zero_of_le below, List.take_zero]
    split
    · rfl
    · simp [limitSize]
  rw [if_neg below, ← count]
  by_cases short : (limitSize part maxSize).length < part.length
  · rw [if_pos short, if_pos (.inl short)]
  rw [if_neg short]
  by_cases full : maxSize ≤ entsSize (limitSize part maxSize)
  · rw [if_pos full, if_pos (.inr full)]
  rw [if_neg full, if_neg (not_or.mpr ⟨short, full⟩),
    shows.slice_unstable (Nat.le_refl _) (by omega) present]
  simp only [except_ok_bind]
  split <;> rfl

/-- What `slice` reads is the beginning of that part of the log, and not empty. -/
theorem slice [Codec] (shows : Shows l c) {lo hi : Nat} (maxSize : Nat)
    (available : l.firstIndex ≤ lo) (ordered : lo ≤ hi) (present : hi ≤ c.length + 1)
    : ∃ ents, l.slice lo hi maxSize = .ok (.ok ents) ∧ ents <+: (c.drop (lo - 1)).take (hi - lo)
      ∧ (lo < hi → ents ≠ []) := by
  have first := l.firstIndex_pos
  refine ⟨_, shows.slice_parts maxSize available ordered present, ?_, fun nonempty => ?_⟩
  · split
    · have cut := @take_cut c lo hi l.unstable.offset (by omega) (by assumption)
      exact cut ▸ limitParts_isPrefix _ _ _
    · exact limitSize_isPrefix _ _
  · split
    · refine limitParts_ne_nil ?_
      rw [ne_eq, ← List.length_eq_zero_iff, List.length_take, List.length_drop]
      omega
    · refine limitSize_ne_nil ?_
      rw [ne_eq, ← List.length_eq_zero_iff, List.length_take, List.length_drop]
      omega

/-- A single entry is always read. -/
theorem slice_one [Codec] (shows : Shows l c) {i maxSize : Nat} {e : Entry}
    (available : l.firstIndex ≤ i) (found : (c)[i - 1]? = some e)
    : l.slice i (i + 1) maxSize = .ok (.ok [e]) := by
  have first := l.firstIndex_pos
  have present := (List.getElem?_eq_some_iff.mp found).1
  obtain ⟨ents, read, part, nonempty⟩ :=
    shows.slice maxSize available (Nat.le_succ i) (by omega)
  have one : (c.drop (i - 1)).take (i + 1 - i) = [e] := by
    rw [Nat.add_sub_cancel_left, List.take_one, List.head?_drop, found]
    rfl
  rw [one] at part
  rw [read, part.eq_of_length_le (List.length_pos_iff.mpr (nonempty (Nat.lt_succ_self i)))]

/-- Only entries that exist are read. -/
theorem slice_within [Codec] (shows : Shows l c) {lo hi maxSize : Nat} {ents : List Entry}
    (read : l.slice lo hi maxSize = .ok (.ok ents))
    : l.firstIndex ≤ lo ∧ lo ≤ hi ∧ hi ≤ c.length + 1 := by
  refine shows.mustCheckOutOfBounds.mp ?_
  unfold RaftLog.slice at read
  rw [except_bind_eq_ok] at read
  obtain ⟨answer, checked, read⟩ := read
  cases answer with
  | error err => cases read
  | ok done => exact checked

theorem slice_ok [Codec] (shows : Shows l c) {lo hi maxSize : Nat} {ents : List Entry}
    (read : l.slice lo hi maxSize = .ok (.ok ents))
    : hi ≤ c.length + 1 ∧ ents <+: (c.drop (lo - 1)).take (hi - lo)
      ∧ (lo < hi → ents ≠ []) := by
  obtain ⟨available, ordered, present⟩ := shows.slice_within read
  obtain ⟨ents', read', part, nonempty⟩ := shows.slice maxSize available ordered present
  rw [read] at read'
  cases read'
  exact ⟨present, part, nonempty⟩

/-- `entries` reads the log from an index on. -/
theorem entries_ok [Codec] (shows : Shows l c) {i maxSize : Nat} {ents : List Entry}
    (read : l.entries i maxSize = .ok (.ok ents))
    : ents <+: c.drop (i - 1) := by
  unfold RaftLog.entries at read
  by_cases beyond : l.lastIndex < i
  · rw [if_pos beyond] at read
    cases read
    exact List.nil_prefix
  · rw [if_neg beyond] at read
    exact (shows.slice_ok read).2.1.trans (List.take_prefix _ _)

/-- There is an entry to hand out, and room for it. -/
theorem nextCommittedEnts_some [Codec] (shows : Shows l c) {allowUnstable : Bool}
    (running : l.applyingEntsPaused = false) (none : l.unstable.snapshot = none)
    (room : l.applyingEntsSize < l.maxApplyingEntsSize)
    (available : l.firstIndex ≤ l.applying + 1) (present : l.committed ≤ c.length)
    (some : l.applying < l.maxAppliableIndex allowUnstable)
    : ∃ e ents, l.nextCommittedEnts allowUnstable = .ok (e :: ents)
      ∧ (c)[l.applying]? = .some e := by
  have pending : ¬l.hasNextOrInProgressSnapshot = true := by
    simp [RaftLog.hasNextOrInProgressSnapshot, none]
  have within : l.maxAppliableIndex allowUnstable ≤ l.committed := by
    unfold RaftLog.maxAppliableIndex
    split <;> omega
  have space : sub64 l.maxApplyingEntsSize l.applyingEntsSize ≠ 0 := by
    rw [sub64_of_le room.le]
    omega
  obtain ⟨page, read, part, nonempty⟩ := shows.slice
    (sub64 l.maxApplyingEntsSize l.applyingEntsSize) available (Nat.succ_le_succ some.le) (by omega)
  obtain ⟨e, ents, rfl⟩ := List.exists_cons_of_ne_nil (nonempty (Nat.succ_lt_succ some))
  refine ⟨e, ents, ?_, ?_⟩
  · unfold RaftLog.nextCommittedEnts
    rw [if_neg (by simp [running]), if_neg pending, if_neg (by omega), if_neg space, read]
    rfl
  · have found := getElem?_of_isPrefix part (i := 0) rfl
    rwa [List.getElem?_take_of_lt (by omega), List.getElem?_drop] at found

/-- The entries handed out to be applied. -/
theorem nextCommittedEnts [Codec] (shows : Shows l c) {allowUnstable : Bool}
    {ents : List Entry} (next : l.nextCommittedEnts allowUnstable = .ok ents)
    : ents = [] ∨ l.unstable.snapshot = none
      ∧ ents <+: (c.drop l.applying).take (l.maxAppliableIndex allowUnstable - l.applying) := by
  unfold RaftLog.nextCommittedEnts at next
  by_cases paused : l.applyingEntsPaused = true
  · rw [if_pos paused] at next
    exact .inl (Except.ok.inj next).symm
  by_cases pending : l.hasNextOrInProgressSnapshot = true
  · rw [if_neg paused, if_pos pending] at next
    exact .inl (Except.ok.inj next).symm
  rw [if_neg paused, if_neg pending] at next
  simp only at next
  by_cases nothing : l.applying + 1 ≥ l.maxAppliableIndex allowUnstable + 1
  · rw [if_pos nothing] at next
    exact .inl (Except.ok.inj next).symm
  by_cases noRoom : sub64 l.maxApplyingEntsSize l.applyingEntsSize = 0
  · rw [if_neg nothing, if_pos noRoom] at next
    cases next
  rw [if_neg nothing, if_neg noRoom, except_bind_eq_ok] at next
  obtain ⟨read, known, next⟩ := next
  cases read with
  | error err => cases next
  | ok ents' =>
      cases next
      obtain ⟨_, part, _⟩ := shows.slice_ok known
      refine .inr ⟨by simpa [RaftLog.hasNextOrInProgressSnapshot] using pending, ?_⟩
      simpa using part

end Shows

-----------------------------------------------------------------------------------------
-- Replacing the end of the log
-----------------------------------------------------------------------------------------

/-- The unstable entries after those from index `a + 1` on have been replaced. -/
def Unstable.replaced (u : Unstable) (c : List Entry) (a : Nat) : Unstable :=
  { u with
    entries := c.drop (min u.offset (a + 1) - 1)
    offset := min u.offset (a + 1)
    offsetInProgress := min u.offsetInProgress (a + 1) }

/-- The raft log after `append`. -/
def RaftLog.appended (l : RaftLog) (c : List Entry) (a : Nat) : RaftLog :=
  { l with
    unstable := l.unstable.replaced c a
    logical := l.logical.truncateAndAppend (c.drop a) }

theorem drop_eq_append {log c : List Entry} {k a : Nat} (common : c.take a = log.take a)
    (le : k ≤ a)
    : c.drop k = (log.drop k).take (a - k) ++ c.drop a := by
  have split : k + (a - k) = a := by omega
  calc c.drop k
      = (c.drop k).take (a - k) ++ (c.drop k).drop (a - k) := (List.take_append_drop _ _).symm
    _ = (c.take a).drop k ++ c.drop a := by rw [List.drop_drop, split, List.drop_take]
    _ = (log.drop k).take (a - k) ++ c.drop a := by rw [common, List.drop_take]

theorem drop_eq_cons {c : List Entry} {a : Nat} {e : Entry} (found : (c)[a]? = some e)
    : c.drop a = e :: c.drop (a + 1) := by
  obtain ⟨inside, rfl⟩ := List.getElem?_eq_some_iff.mp found
  exact List.drop_eq_getElem_cons inside

/-- `truncateAndAppend` of what follows the first `a` entries of `c`, which are those of
the log; each of its branches is one position of the unstable entries.
-/
theorem Unstable.truncateAndAppend_eq (u : Unstable) {log c : List Entry} {a : Nat}
    {e : Entry} (positive : 1 ≤ u.offset) (ordered : u.offset ≤ u.offsetInProgress)
    (within : u.offsetInProgress ≤ log.length + 1)
    (entries : u.entries = log.drop (u.offset - 1))
    (found : (c)[a]? = some e) (index : e.index = a + 1) (common : c.take a = log.take a)
    (inside : a ≤ log.length)
    : u.truncateAndAppend (c.drop a) = .ok (u.replaced c a) := by
  have length : u.entries.length = log.length - (u.offset - 1) := by
    rw [entries, List.length_drop]
  have split := drop_eq_cons found
  unfold Unstable.truncateAndAppend Unstable.replaced
  rw [split]
  simp only
  rw [← split, index]
  by_cases atEnd : a + 1 = u.offset + u.entries.length
  · rw [if_pos atEnd, Nat.min_eq_left (by omega), Nat.min_eq_left (by omega), entries,
      drop_eq_append common (show u.offset - 1 ≤ a by omega), List.take_of_length_le]
    · rfl
    · rw [List.length_drop]
      omega
  rw [if_neg atEnd]
  by_cases before : a + 1 ≤ u.offset
  · rw [if_pos before, Nat.min_eq_right before, Nat.min_eq_right (by omega)]
    rfl
  · have keep : u.slice u.offset (a + 1)
        = .ok ((log.drop (u.offset - 1)).take (a - (u.offset - 1))) := by
      unfold Unstable.slice Unstable.mustCheckOutOfBounds
      rw [if_neg (by omega), if_neg (by omega), entries, Nat.sub_self, List.drop_zero,
        show a + 1 - u.offset = a - (u.offset - 1) by omega]
      rfl
    rw [if_neg before, keep, Nat.min_eq_left (show u.offset ≤ a + 1 by omega),
      drop_eq_append common (show u.offset - 1 ≤ a by omega)]
    rfl

/-- `append` of what follows the first `a` entries of `c`, if nothing committed is
replaced.
-/
theorem RaftLog.append_eq {l : RaftLog} {c : List Entry} {a : Nat} {e : Entry}
    (truncated : l.unstable.truncateAndAppend (c.drop a) = .ok (l.unstable.replaced c a))
    (found : (c)[a]? = some e) (index : e.index = a + 1) (committed : l.committed ≤ a)
    : l.append (c.drop a) = .ok (l.appended c a) := by
  have after : sub64 e.index 1 = a := by
    rw [index, sub64_of_le (Nat.le_add_left 1 a), Nat.add_sub_cancel]
  have split := drop_eq_cons found
  unfold RaftLog.append
  rw [split]
  simp only [after]
  rw [if_neg (Nat.not_lt.mpr committed), ← split, truncated]
  rfl

end EtcdRaft
