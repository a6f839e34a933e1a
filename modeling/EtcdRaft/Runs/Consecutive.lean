import EtcdRaft.Refinement.Answers

/-! Entries with consecutive indexes, in the storage and in memory. As long as the entries
that arrive are consecutive, so is everything that can be read.
-/

namespace EtcdRaft

/-- The entries have consecutive indexes from `first` on. -/
def Consecutive (first : Nat) (es : List Entry) : Prop :=
  ∀ k e, es[k]? = some e → e.index = first + k

namespace Consecutive

variable {first : Nat} {es es' : List Entry}

theorem nil : Consecutive first [] := by simp [Consecutive]

theorem drop (ok : Consecutive first es) (n : Nat)
    : Consecutive (first + n) (es.drop n) := by
  intro k e found
  rw [List.getElem?_drop] at found
  rw [ok _ e found, Nat.add_assoc]

theorem of_isPrefix (ok : Consecutive first es') (pre : es <+: es') : Consecutive first es :=
  fun k e found => ok k e (getElem?_of_isPrefix pre found)

theorem take (ok : Consecutive first es) (n : Nat) : Consecutive first (es.take n) :=
  ok.of_isPrefix (List.take_prefix n es)

theorem append (ok : Consecutive first es) (ok' : Consecutive (first + es.length) es')
    : Consecutive first (es ++ es') := by
  intro k e found
  by_cases here : k < es.length
  · rw [List.getElem?_append_left here] at found
    exact ok k e found
  · rw [List.getElem?_append_right (by omega)] at found
    rw [ok' _ e found]
    omega

theorem head {e : Entry} (ok : Consecutive first (e :: es)) : e.index = first := ok 0 e rfl

theorem getLast {i : Nat} (ok : Consecutive (i + 1) es)
    : (es.getLast?.map Entry.index).getD i = i + es.length := by
  rw [List.getLast?_eq_getElem?]
  cases last : es[es.length - 1]? with
  | none =>
      rw [List.getElem?_eq_none_iff] at last
      simp only [Option.map_none, Option.getD_none]
      omega
  | some e =>
      have inside := (List.getElem?_eq_some_iff.mp last).1
      simp only [Option.map_some, Option.getD_some, ok _ e last]
      omega

theorem increasing (ok : Consecutive first es)
    : es.Pairwise fun e e' => e.index < e'.index := by
  rw [List.pairwise_iff_getElem]
  intro j k inside inside' order
  rw [ok j _ (List.getElem?_eq_getElem inside), ok k _ (List.getElem?_eq_getElem inside')]
  omega

theorem ge (ok : Consecutive first es)
    : ∀ e ∈ es, first ≤ e.index ∧ e.index < first + es.length := by
  intro e member
  obtain ⟨k, found⟩ := List.mem_iff_getElem?.mp member
  have inside := (List.getElem?_eq_some_iff.mp found).1
  rw [ok k e found]
  omega

end Consecutive

-----------------------------------------------------------------------------------------
-- The storage
-----------------------------------------------------------------------------------------

namespace MemoryStorage

variable {ms ms' : MemoryStorage}

/-- The stored entries follow the dummy. -/
def Contiguous (ms : MemoryStorage) : Prop := Consecutive (ms.dummy.index + 1) ms.ents

theorem Contiguous.append {first : Nat} {es : List Entry} (ok : ms.Contiguous)
    (new : Consecutive first es) (appended : ms.append es = .ok ms')
    : ms'.Contiguous := by
  unfold MemoryStorage.append at appended
  cases es with
  | nil =>
      cases appended
      exact ok
  | cons e rest =>
      have index := new.head
      dsimp only at appended
      split at appended
      · cases appended
        exact ok
      · split at appended
        · rename_i start
          cases appended
          show Consecutive (ms.dummy.index + 1) _
          refine (ok.take _).append ?_
          have firstIndex : ms.firstIndex = ms.dummy.index + 1 := rfl
          have length : (ms.ents.take (max ms.firstIndex e.index - ms.dummy.index - 1)).length
              = max ms.firstIndex e.index - ms.dummy.index - 1 := by
            rw [List.length_take]
            omega
          rw [length]
          split
          · rename_i overlap
            have := new.drop (ms.firstIndex - e.index)
            rwa [show first + (ms.firstIndex - e.index)
              = ms.dummy.index + 1 + (max ms.firstIndex e.index - ms.dummy.index - 1) by omega]
                at this
          · rename_i after
            rwa [show first
              = ms.dummy.index + 1 + (max ms.firstIndex e.index - ms.dummy.index - 1) by omega]
                at new
        · cases appended

theorem Contiguous.install (ok : ms.Contiguous) (snapshot : Option Snapshot)
    : (ms.install snapshot).Contiguous := by
  unfold MemoryStorage.install
  cases snapshot with
  | none => exact ok
  | some s =>
      dsimp only
      split
      · rename_i ms' applied
        unfold MemoryStorage.applySnapshot at applied
        dsimp only at applied
        split at applied
        · cases applied
        · cases applied
          exact .nil
      · exact ok

theorem Contiguous.store {first : Nat} {w : Write} (ok : ms.Contiguous)
    (new : Consecutive first w.entries) (stored : Host.store ms w = .ok ms')
    : ms'.Contiguous := by
  rw [store_eq] at stored
  obtain ⟨ms₁, appended, eq⟩ := except_bind_eq_ok.mp stored
  have ok₁ := (ok.install w.snapshot).append new appended
  cases eq
  split
  · exact ok₁
  · exact ok₁

theorem Contiguous.compact {i : Nat} (ok : ms.Contiguous)
    (compacted : ms.compact i = .ok (.ok ms'))
    : ms'.Contiguous := by
  obtain ⟨above, e, found, rfl⟩ := compact_ok compacted
  have index := ok _ e found
  have rest := ok.drop (i - ms.dummy.index)
  show Consecutive (e.index + 1) _
  rwa [show ms.dummy.index + 1 + (i - ms.dummy.index) = e.index + 1 by omega] at rest

theorem Contiguous.createSnapshot {i : Nat} {cs : ConfState} {data : List Entry}
    (ok : ms.Contiguous) (created : ms.createSnapshot i cs data = .ok (.ok ms'))
    : ms'.Contiguous := by
  obtain ⟨term, rfl⟩ := createSnapshot_ok created
  exact ok

end MemoryStorage

-----------------------------------------------------------------------------------------
-- Memory
-----------------------------------------------------------------------------------------

namespace Unstable

variable {u u' : Unstable}

/-- The unstable entries begin at the offset. -/
def Contiguous (u : Unstable) : Prop := Consecutive u.offset u.entries

theorem Contiguous.stableTo (ok : u.Contiguous) (id : EntryID)
    : (u.stableTo id).Contiguous := by
  unfold Unstable.stableTo
  split
  · exact ok
  · split
    · exact ok
    · split
      · exact ok
      · have := ok.drop (id.index + 1 - u.offset)
        show Consecutive (id.index + 1) _
        rwa [show u.offset + (id.index + 1 - u.offset) = id.index + 1 by omega] at this

theorem Contiguous.stableSnapTo (ok : u.Contiguous) (i : Nat)
    : (u.stableSnapTo i).Contiguous := by
  unfold Unstable.stableSnapTo
  split
  · split
    · exact ok
    · exact ok
  · exact ok

theorem slice_ok {lo hi : Nat} {es : List Entry} (read : u.slice lo hi = .ok es)
    : u.offset ≤ lo ∧ hi ≤ u.offset + u.entries.length
      ∧ es = (u.entries.drop (lo - u.offset)).take (hi - lo) := by
  unfold slice mustCheckOutOfBounds at read
  by_cases order : lo > hi
  · rw [if_pos order] at read
    cases read
  rw [if_neg order] at read
  dsimp only at read
  by_cases outside : lo < u.offset ∨ hi > u.offset + u.entries.length
  · rw [if_pos outside] at read
    cases read
  · rw [if_neg outside] at read
    cases read
    exact ⟨by omega, by omega, rfl⟩

theorem truncateAndAppend_snapshot {es : List Entry}
    (appended : u.truncateAndAppend es = .ok u')
    : u'.snapshot = u.snapshot ∧ u'.snapshotInProgress = u.snapshotInProgress := by
  unfold Unstable.truncateAndAppend at appended
  cases es with
  | nil => cases appended
  | cons e rest =>
      dsimp only at appended
      split at appended
      · cases appended
        exact ⟨rfl, rfl⟩
      · split at appended
        · cases appended
          exact ⟨rfl, rfl⟩
        · obtain ⟨keep, _, eq⟩ := except_bind_eq_ok.mp appended
          cases eq
          exact ⟨rfl, rfl⟩

theorem Contiguous.truncateAndAppend {first : Nat} {es : List Entry} (ok : u.Contiguous)
    (new : Consecutive first es) (appended : u.truncateAndAppend es = .ok u')
    : u'.Contiguous := by
  unfold Unstable.truncateAndAppend at appended
  cases es with
  | nil => cases appended
  | cons e rest =>
      have index := new.head
      dsimp only at appended
      split at appended
      · rename_i atEnd
        cases appended
        exact Consecutive.append ok (by rwa [← atEnd, index])
      · split at appended
        · cases appended
          show Consecutive e.index _
          rwa [index]
        · rename_i after
          obtain ⟨keep, read, eq⟩ := except_bind_eq_ok.mp appended
          cases eq
          obtain ⟨_, within, rfl⟩ := slice_ok read
          show Consecutive u.offset _
          rw [Nat.sub_self, List.drop_zero]
          refine Consecutive.append (ok.take _) ?_
          rw [List.length_take, Nat.min_eq_left (by omega)]
          rwa [show u.offset + (e.index - u.offset) = first by omega]

end Unstable

-----------------------------------------------------------------------------------------
-- Reading the log
-----------------------------------------------------------------------------------------

/-- The entry that the log holds at an index: an unstable one, or else a stored one. -/
def RaftLog.entryAt (l : RaftLog) (i : Nat) : Option Entry :=
  if l.unstable.offset ≤ i then
    l.unstable.entries[i - l.unstable.offset]?
  else if i ≤ l.storage.dummy.index then
    none
  else
    l.storage.ents[i - l.storage.dummy.index - 1]?

/-- What is read from index `lo` on are the entries that the log holds there. -/
def RaftLog.Reads (l : RaftLog) (lo : Nat) (es : List Entry) : Prop :=
  ∀ k e, es[k]? = some e → l.entryAt (lo + k) = some e

variable {l : RaftLog} {lo hi : Nat} {es es' : List Entry}

theorem RaftLog.Reads.of_isPrefix (reads : l.Reads lo es') (pre : es <+: es') : l.Reads lo es :=
  fun k e found => reads k e (getElem?_of_isPrefix pre found)

theorem RaftLog.Reads.append (reads : l.Reads lo es)
    (reads' : l.Reads (lo + es.length) es')
    : l.Reads lo (es ++ es') := by
  intro k e found
  by_cases here : k < es.length
  · rw [List.getElem?_append_left here] at found
    exact reads k e found
  · rw [List.getElem?_append_right (by omega)] at found
    have := reads' _ e found
    rwa [show lo + es.length + (k - es.length) = lo + k by omega] at this

/-- Both parts of the log have consecutive indexes. -/
structure RaftLog.Contiguous (l : RaftLog) : Prop where
  storage : l.storage.Contiguous
  unstable : l.unstable.Contiguous

theorem RaftLog.Contiguous.index (ok : l.Contiguous) {i : Nat} {e : Entry}
    (found : l.entryAt i = some e)
    : e.index = i := by
  unfold entryAt at found
  split at found
  · rw [ok.unstable _ e found]
    omega
  · split at found
    · cases found
    · rw [ok.storage _ e found]
      omega

theorem Unstable.reads_slice (read : l.unstable.slice lo hi = .ok es)
    : es.length ≤ hi - lo ∧ l.Reads lo es := by
  obtain ⟨after, _, rfl⟩ := Unstable.slice_ok read
  refine ⟨by rw [List.length_take]; exact Nat.min_le_left _ _, fun k e found => ?_⟩
  have inside := (List.getElem?_eq_some_iff.mp found).1
  rw [List.length_take] at inside
  rw [List.getElem?_take_of_lt (by omega), List.getElem?_drop] at found
  rw [RaftLog.entryAt, if_pos (by omega), ← found]
  congr 1
  omega

variable [Codec] {maxSize : Nat}

/-- The storage is read below the first unstable entry. -/
theorem MemoryStorage.reads_entries (read : l.storage.entries lo hi maxSize = .ok (.ok es))
    (stable : hi ≤ l.unstable.offset)
    : es.length ≤ hi - lo ∧ l.Reads lo es := by
  unfold MemoryStorage.entries at read
  by_cases compacted : lo ≤ l.storage.dummy.index
  · rw [if_pos compacted] at read
    cases read
  rw [if_neg compacted] at read
  by_cases outside : hi > l.storage.lastIndex + 1
  · rw [if_pos outside] at read
    cases read
  rw [if_neg outside] at read
  by_cases empty : l.storage.ents.length = 0
  · rw [if_pos empty] at read
    cases read
  rw [if_neg empty] at read
  by_cases order : lo > hi
  · rw [if_pos order] at read
    cases read
  rw [if_neg order] at read
  cases read
  have pre := limitSize_isPrefix
    ((l.storage.ents.drop (lo - l.storage.dummy.index - 1)).take (hi - lo)) maxSize
  refine ⟨pre.length_le.trans (by rw [List.length_take]; exact Nat.min_le_left _ _), ?_⟩
  refine RaftLog.Reads.of_isPrefix (fun k e found => ?_) pre
  have inside := (List.getElem?_eq_some_iff.mp found).1
  rw [List.length_take] at inside
  rw [List.getElem?_take_of_lt (by omega), List.getElem?_drop] at found
  rw [RaftLog.entryAt, if_neg (by omega), if_neg (by omega), ← found]
  congr 1
  omega

theorem RaftLog.reads_slice (read : l.slice lo hi maxSize = .ok (.ok es))
    : es.length ≤ hi - lo ∧ l.Reads lo es := by
  unfold slice at read
  obtain ⟨checked, _, read⟩ := except_bind_eq_ok.mp read
  cases checked with
  | error err => cases read
  | ok _ =>
      dsimp only at read
      by_cases none : lo = hi
      · rw [if_pos none] at read
        cases read
        exact ⟨Nat.zero_le _, nofun⟩
      rw [if_neg none] at read
      by_cases unstable : lo ≥ l.unstable.offset
      · rw [if_pos unstable] at read
        obtain ⟨all, slice, eq⟩ := except_bind_eq_ok.mp read
        cases eq
        obtain ⟨length, reads⟩ := Unstable.reads_slice slice
        have pre := limitSize_isPrefix all maxSize
        exact ⟨pre.length_le.trans length, reads.of_isPrefix pre⟩
      rw [if_neg unstable] at read
      obtain ⟨stored, entries, read⟩ := except_bind_eq_ok.mp read
      match stored with
      | .error .errUnavailable => cases read
      | .error .errCompacted => cases read
      | .error .errSnapOutOfDate => cases read
      | .ok ents =>
          obtain ⟨length, reads⟩ :=
            MemoryStorage.reads_entries entries (Nat.min_le_right _ _)
          dsimp only at read
          by_cases stable : hi ≤ l.unstable.offset
          · rw [if_pos stable] at read
            cases read
            exact ⟨by omega, reads⟩
          rw [if_neg stable] at read
          by_cases limited : ents.length < min hi l.unstable.offset - lo
          · rw [if_pos limited] at read
            cases read
            exact ⟨by omega, reads⟩
          rw [if_neg limited] at read
          by_cases full : entsSize ents ≥ maxSize
          · rw [if_pos full] at read
            cases read
            exact ⟨by omega, reads⟩
          rw [if_neg full] at read
          obtain ⟨rest, slice, read⟩ := except_bind_eq_ok.mp read
          split at read
          · cases read
            exact ⟨by omega, reads⟩
          · cases read
            obtain ⟨length', reads'⟩ := Unstable.reads_slice slice
            have pre := limitSize_isPrefix rest (maxSize - entsSize ents)
            have count := pre.length_le
            have start : lo + ents.length = l.unstable.offset := by omega
            refine ⟨by rw [List.length_append]; omega, reads.append ?_⟩
            rw [start]
            exact reads'.of_isPrefix pre

/-- The entries that are handed out follow those handed out before, up to the commit index
and, if they have to be stable, below the first unstable one.
-/
theorem RaftLog.reads_nextCommittedEnts {allowUnstable : Bool}
    (next : l.nextCommittedEnts allowUnstable = .ok es)
    : l.Reads (l.applying + 1) es ∧ l.applying + es.length ≤ max l.applying l.committed
      ∧ (allowUnstable = false → es ≠ [] → l.applying + es.length < l.unstable.offset)
      ∧ (l.unstable.snapshot ≠ none → es = []) := by
  have nothing : l.Reads (l.applying + 1) [] ∧ l.applying + ([] : List Entry).length
      ≤ max l.applying l.committed
      ∧ (allowUnstable = false → ([] : List Entry) ≠ []
        → l.applying + ([] : List Entry).length < l.unstable.offset)
      ∧ (l.unstable.snapshot ≠ none → ([] : List Entry) = []) :=
    ⟨nofun, Nat.le_max_left _ _, fun _ some => absurd rfl some, fun _ => rfl⟩
  unfold nextCommittedEnts at next
  by_cases paused : l.applyingEntsPaused = true
  · rw [if_pos paused] at next
    cases next
    exact nothing
  rw [if_neg paused] at next
  by_cases pending : l.hasNextOrInProgressSnapshot = true
  · rw [if_pos pending] at next
    cases next
    exact nothing
  rw [if_neg pending] at next
  dsimp only at next
  by_cases empty : l.applying + 1 ≥ l.maxAppliableIndex allowUnstable + 1
  · rw [if_pos empty] at next
    cases next
    exact nothing
  rw [if_neg empty] at next
  by_cases zero : sub64 l.maxApplyingEntsSize l.applyingEntsSize = 0
  · rw [if_pos zero] at next
    cases next
  rw [if_neg zero] at next
  obtain ⟨read, slice, next⟩ := except_bind_eq_ok.mp next
  cases read with
  | error err => cases next
  | ok ents =>
      cases next
      obtain ⟨length, reads⟩ := reads_slice slice
      unfold maxAppliableIndex at length empty
      refine ⟨reads, ?_, ?_, fun some => ?_⟩
      · split at length <;> omega
      · intro stable _
        rw [stable, if_neg Bool.false_ne_true] at length empty
        omega
      · have none : l.unstable.snapshot = none := by
          simpa [hasNextOrInProgressSnapshot] using pending
        exact absurd none some

end EtcdRaft
