import EtcdRaft.Refinement.Slices

/-! `maybeAppend` on every representation of the log: where the first entry that is
missing or different may be stored, unstable or past the end.
-/

namespace EtcdRaft

-----------------------------------------------------------------------------------------
-- Valid slices
-----------------------------------------------------------------------------------------

/-- The entries follow the given one: consecutive indexes, terms that do not decrease. -/
def FollowOn : EntryID → List Entry → Prop
  | _, [] => True
  | prev, e :: rest => prev.term ≤ e.term ∧ e.index = prev.index + 1 ∧ FollowOn e.id rest

theorem LogSlice.checkEntries_ok {term : Nat} {prev last : EntryID} {es : List Entry}
    (checked : LogSlice.checkEntries term prev es = .ok last)
    : FollowOn prev es := by
  induction es generalizing prev with
  | nil => trivial
  | cons e rest ih =>
      unfold LogSlice.checkEntries at checked
      split at checked
      · cases checked
      · rename_i consistent
        obtain ⟨term, index⟩ := not_or.mp consistent
        exact ⟨Nat.le_of_not_lt term, not_not.mp index, ih checked⟩

theorem LogSlice.valid_ok {a : LogSlice} (valid : a.valid = .ok ())
    : FollowOn a.prev a.entries := by
  unfold LogSlice.valid at valid
  obtain ⟨last, checked, _⟩ := except_bind_eq_ok.mp valid
  exact checkEntries_ok checked

theorem FollowOn.index {prev : EntryID} {es : List Entry} (follow : FollowOn prev es)
    {j : Nat} {e : Entry} (found : es[j]? = some e)
    : e.index = prev.index + j + 1 := by
  induction es generalizing prev j with
  | nil => simp at found
  | cons e' rest ih =>
      obtain ⟨_, index, later⟩ := follow
      cases j with
      | zero =>
          cases found
          exact index
      | succ j =>
          have := ih later found
          simp only [Entry.id] at this
          omega

/-- A log with the entries of the slice has terms that do not decrease there. -/
theorem FollowOn.terms {prev : EntryID} {es x : List Entry} (follow : FollowOn prev es)
    (start : termAt x prev.index = prev.term)
    (each : ∀ j e, es[j]? = some e → termAt x (prev.index + j + 1) = e.term) {j : Nat}
    (inside : j < es.length)
    : termAt x (prev.index + j) ≤ termAt x (prev.index + j + 1) := by
  induction es generalizing prev j with
  | nil => simp at inside
  | cons e rest ih =>
      obtain ⟨term, index, later⟩ := follow
      have first := each 0 e rfl
      cases j with
      | zero =>
          rw [Nat.add_zero] at first ⊢
          rw [start, first]
          exact term
      | succ j =>
          have shift (k : Nat) : e.id.index + k = prev.index + (k + 1) := by
            simp only [Entry.id]
            omega
          have next := ih later (by rw [← Nat.add_zero e.id.index, shift]; exact first)
            (fun k e' found => by rw [shift]; exact each (k + 1) e' found)
            (Nat.lt_of_succ_lt_succ inside)
          rwa [shift] at next

/-- The first entry that the log does not have. -/
theorem RaftLog.findConflict_cases {l : RaftLog} {prev : EntryID} {es : List Entry}
    (follow : FollowOn prev es)
    : (l.findConflict es = 0 ∧ ∀ e ∈ es, l.matchTerm e.id = true)
      ∨ ∃ j e, es[j]? = some e ∧ l.matchTerm e.id = false ∧ l.findConflict es = e.index
        ∧ ∀ e' ∈ es.take j, l.matchTerm e'.id = true := by
  induction es generalizing prev with
  | nil => exact .inl ⟨rfl, by simp⟩
  | cons e rest ih =>
      unfold RaftLog.findConflict
      by_cases holds : l.matchTerm e.id = true
      · rw [if_pos holds]
        rcases ih follow.2.2 with ⟨zero, all⟩ | ⟨j, e', found, missing, conflict, before⟩
        · refine .inl ⟨zero, ?_⟩
          rintro e' (_ | ⟨_, member⟩)
          · exact holds
          · exact all e' member
        · refine .inr ⟨j + 1, e', found, missing, conflict, ?_⟩
          rintro x member
          rw [List.take_succ_cons] at member
          rcases List.mem_cons.mp member with rfl | member
          · exact holds
          · exact before x member
      · rw [if_neg holds]
        exact .inr ⟨0, e, rfl, by simpa using holds, rfl, by simp⟩

-----------------------------------------------------------------------------------------
-- The log after an append
-----------------------------------------------------------------------------------------

variable {l : RaftLog} {c : List Entry}

/-- A log whose end after the first `a` entries has been replaced. -/
theorem Shows.appended {c' : List Entry} {a : Nat} (shows : Shows l c)
    (longer : a < c'.length)
    (common : c'.take a = c.take a) (first : l.firstIndex ≤ a + 1)
    : Shows (l.appended c' a) c' where
  positive := by
    have := shows.positive
    simp only [RaftLog.appended, Unstable.replaced]
    omega
  within := by
    simp only [RaftLog.appended, Unstable.replaced]
    omega
  entries := rfl
  snapshot := by
    intro s pending
    obtain ⟨offset, term⟩ := shows.snapshot s pending
    have covered : s.metadata.index ≤ a := by
      simp only [RaftLog.firstIndex, Unstable.maybeFirstIndex,
        show l.unstable.snapshot = some s from pending, Option.map_some, Option.getD_some] at first
      omega
    refine ⟨by simp only [RaftLog.appended, Unstable.replaced]; omega, term.trans ?_⟩
    refine termAt_congr ?_
    have := congrArg (List.take s.metadata.index) common
    rw [List.take_take, List.take_take, Nat.min_eq_left covered] at this
    exact this.symm
  stable := by
    intro settled
    obtain ⟨d, stored, agree, _, _⟩ := shows.stable settled
    have offset : min l.unstable.offset (a + 1) - 1 ≤ a := by omega
    refine ⟨d, stored, ?_, fun empty => ?_, ?_⟩
    · have := congrArg (List.take (min l.unstable.offset (a + 1) - 1)) common
      rw [List.take_take, List.take_take, Nat.min_eq_left offset] at this
      simp only [RaftLog.appended, Unstable.replaced]
      rw [this]
      exact (List.take_prefix_take_left (by omega)).trans agree
    · simp only [RaftLog.appended, Unstable.replaced, List.drop_eq_nil_iff] at empty
      omega
    · simp only [RaftLog.firstIndex, Unstable.maybeFirstIndex,
        show l.unstable.snapshot = none from settled, Option.map_none, Option.getD_none,
        MemoryStorage.firstIndex] at first
      simp only [RaftLog.appended]
      omega

/-- The log `c` with the entries of the slice from the `j`th one on. -/
def LogSlice.spliced (a : LogSlice) (c : List Entry) (j : Nat) : List Entry :=
  c.take (a.prev.index + j) ++ a.entries.drop j

section Spliced

variable {a : LogSlice} {j : Nat} (inside : a.prev.index + j ≤ c.length)

include inside

theorem LogSlice.take_spliced
    : (a.spliced c j).take (a.prev.index + j) = c.take (a.prev.index + j) := by
  rw [LogSlice.spliced, List.take_append_of_le_length (by rw [List.length_take]; omega),
    List.take_take, Nat.min_self]

theorem LogSlice.drop_spliced
    : (a.spliced c j).drop (a.prev.index + j) = a.entries.drop j := by
  have length : (c.take (a.prev.index + j)).length = a.prev.index + j := by
    rw [List.length_take]
    omega
  rw [LogSlice.spliced, List.drop_append_of_le_length length.ge, List.drop_of_length_le length.le,
    List.nil_append]

theorem LogSlice.length_spliced (within : j ≤ a.entries.length)
    : (a.spliced c j).length = a.prev.index + a.entries.length := by
  rw [LogSlice.spliced, List.length_append, List.length_take, List.length_drop]
  omega

theorem LogSlice.getElem?_spliced {k : Nat} (after : j ≤ k)
    : (a.spliced c j)[a.prev.index + k]? = a.entries[k]? := by
  have := congrArg (fun rest => rest[k - j]?) (drop_spliced inside)
  simp only [List.getElem?_drop] at this
  rwa [show a.prev.index + j + (k - j) = a.prev.index + k by omega,
    show j + (k - j) = k by omega] at this

end Spliced

/-- Where the first entry that the log does not have is: after the end of what it has in
common with the slice, and after what is committed.
-/
structure Conflict (l : RaftLog) (c : List Entry) (a : LogSlice) (j : Nat)
    (e : Entry) : Prop where
  found : a.entries[j]? = some e
  index : e.index = a.prev.index + j + 1
  inside : a.prev.index + j ≤ c.length
  committed : l.committed ≤ a.prev.index + j
  start : termAt c a.prev.index = a.prev.term
  before : ∀ k e', k < j → a.entries[k]? = some e' → termAt c (a.prev.index + k + 1) = e'.term

theorem Shows.conflict {a : LogSlice} {j : Nat} {e : Entry} (shows : Shows l c)
    (bounded : l.committed ≤ c.length) (follow : FollowOn a.prev a.entries)
    (compatible : ∀ e ∈ a.entries, e.index ≤ l.committed
      → ∀ e', l.entry? e.index = some e' → e'.term = e.term)
    (prev : l.Contains a.prev) (found : a.entries[j]? = some e)
    (missing : ¬l.Contains e.id) (before : ∀ e' ∈ a.entries.take j, l.Contains e'.id)
    : Conflict l c a j e := by
  obtain ⟨available, present, start⟩ := shows.contains_iff.mp prev
  have index := follow.index found
  have within := (List.getElem?_eq_some_iff.mp found).1
  have had (k : Nat) (e' : Entry) (less : k < j) (found' : a.entries[k]? = some e')
      : a.prev.index + k + 1 ≤ c.length ∧ termAt c (a.prev.index + k + 1) = e'.term := by
    have contained :=
      before e' (List.mem_of_getElem? (by rwa [List.getElem?_take_of_lt less]))
    obtain ⟨_, reached, term⟩ := shows.contains_iff.mp contained
    simp only [Entry.id, follow.index found'] at reached term
    exact ⟨reached, term⟩
  have inside : a.prev.index + j ≤ c.length := by
    cases j with
    | zero => exact present
    | succ j =>
        obtain ⟨e', found'⟩ : ∃ e', a.entries[j]? = some e' :=
          ⟨_, List.getElem?_eq_getElem (by omega)⟩
        exact (had j e' (Nat.lt_succ_self j) found').1
  refine ⟨found, index, inside, ?_, start, fun k e' less found' => (had k e' less found').2⟩
  -- a committed entry is in the log, so the slice has the same one
  by_contra early
  have readable : l.firstIndex ≤ e.index ∨ l.unstable.offset ≤ e.index :=
    available.imp (fun _ => by omega) (fun _ => by omega)
  obtain ⟨e', stored⟩ : ∃ e', (c)[e.index - 1]? = some e' :=
    ⟨_, List.getElem?_eq_getElem (by omega)⟩
  have entry := (shows.entry? readable).trans stored
  refine missing ?_
  unfold RaftLog.Contains
  simp only [Entry.id]
  rw [entry]
  exact compatible e (List.mem_of_getElem? found) (by omega) e' entry

namespace Conflict

variable {a : LogSlice} {j : Nat} {e : Entry}

/-- Up to the conflict the appended log is the old one. -/
theorem take_eq (conflict : Conflict l c a j e) {k : Nat} (le : k ≤ a.prev.index + j)
    : (a.spliced c j).take k = c.take k := by
  have := congrArg (List.take k) (LogSlice.take_spliced conflict.inside)
  rwa [List.take_take, List.take_take, Nat.min_eq_left le] at this

/-- The appended log has the terms of the slice. -/
theorem termAt_spliced (conflict : Conflict l c a j e) {k : Nat} {e' : Entry}
    (found : a.entries[k]? = some e')
    : termAt (a.spliced c j) (a.prev.index + k + 1) = e'.term := by
  by_cases before : k < j
  · rw [← conflict.before k e' before found]
    exact termAt_congr (conflict.take_eq (by omega))
  · refine termAt_succ ?_
    rw [LogSlice.getElem?_spliced conflict.inside (Nat.le_of_not_lt before)]
    exact found

/-- The appended log has the indexes of the slice, and the old ones in the unstable part.
-/
theorem index_spliced (conflict : Conflict l c a j e) (shows : Shows l c)
    (ok : l.WellFormed) (follow : FollowOn a.prev a.entries) {i : Nat} {x : Entry}
    (unstable : min l.unstable.offset (a.prev.index + j + 1) ≤ i + 1)
    (found : (a.spliced c j)[i]? = some x)
    : x.index = i + 1 := by
  by_cases before : i < a.prev.index + j
  · have old : (c)[i]? = some x := by
      have := congrArg (fun head => head[i]?) (conflict.take_eq (Nat.le_refl (a.prev.index + j)))
      simp only [List.getElem?_take_of_lt before] at this
      rw [← this]
      exact found
    have positive := shows.positive
    have entry : l.unstable.entries[i + 1 - l.unstable.offset]? = some x := by
      rw [shows.entries, List.getElem?_drop, ← old]
      congr 1
      omega
    obtain ⟨inside, rfl⟩ := List.getElem?_eq_some_iff.mp entry
    rw [ok.unstable _ inside]
    omega
  · obtain ⟨k, rfl⟩ : ∃ k, i = a.prev.index + k := ⟨i - a.prev.index, by omega⟩
    rw [LogSlice.getElem?_spliced conflict.inside (by omega)] at found
    exact follow.index found

/-- The terms of the appended log do not decrease. -/
theorem terms_spliced (conflict : Conflict l c a j e) (shows : Shows l c)
    (ok : l.WellFormed)
    (follow : FollowOn a.prev a.entries) {i : Nat} (available : l.firstIndex ≤ i + 1)
    (below : i < a.prev.index + a.entries.length)
    : termAt (a.spliced c j) i ≤ termAt (a.spliced c j) (i + 1) := by
  by_cases before : i < a.prev.index
  · have inside := conflict.inside
    rw [termAt_congr (conflict.take_eq (show i ≤ _ by omega)),
      termAt_congr (conflict.take_eq (show i + 1 ≤ _ by omega)),
      ← shows.zeroTerm available (by omega), ← shows.zeroTerm (by omega) (by omega)]
    exact ok.terms i (by rw [shows.lastIndex]; omega) available
  · obtain ⟨k, rfl⟩ : ∃ k, i = a.prev.index + k := ⟨i - a.prev.index, by omega⟩
    refine follow.terms ?_ (fun k e' found => conflict.termAt_spliced found) (by omega)
    rw [termAt_congr (conflict.take_eq (by omega))]
    exact conflict.start

theorem shows_appended (conflict : Conflict l c a j e) (shows : Shows l c)
    (first : l.firstIndex ≤ l.committed + 1)
    : Shows (l.appended (a.spliced c j) (a.prev.index + j)) (a.spliced c j) := by
  have within := (List.getElem?_eq_some_iff.mp conflict.found).1
  have length := LogSlice.length_spliced conflict.inside within.le
  have committed := conflict.committed
  exact shows.appended (by omega) (LogSlice.take_spliced conflict.inside) (by omega)

theorem append_eq (conflict : Conflict l c a j e) (shows : Shows l c) (ok : l.WellFormed)
    : l.append (a.entries.drop j)
      = .ok (l.appended (a.spliced c j) (a.prev.index + j)) := by
  have found :=
    (LogSlice.getElem?_spliced (a := a) conflict.inside (Nat.le_refl j)).trans conflict.found
  have length := shows.length_entries
  have handed := ok.inProgress
  rw [← LogSlice.drop_spliced conflict.inside]
  refine RaftLog.append_eq ?_ found conflict.index conflict.committed
  exact l.unstable.truncateAndAppend_eq shows.positive ok.offset (by omega) shows.entries found
    conflict.index (LogSlice.take_spliced conflict.inside) conflict.inside

/-- The appended log is well formed. -/
theorem wellFormed_appended (conflict : Conflict l c a j e) (shows : Shows l c)
    (ok : l.WellFormed) (follow : FollowOn a.prev a.entries)
    : (l.appended (a.spliced c j) (a.prev.index + j)).WellFormed := by
  have within := (List.getElem?_eq_some_iff.mp conflict.found).1
  have length := LogSlice.length_spliced conflict.inside within.le
  have committed := conflict.committed
  have first := ok.firstIndex
  have after := conflict.shows_appended shows first
  have last := after.lastIndex
  have count := after.length_entries
  have common := LogSlice.take_spliced conflict.inside
  refine {
    applied := ok.applied
    applying := ok.applying
    committed := ?_
    firstIndex := first
    offset := ?_
    inProgress := ?_
    unstable := ?_
    stored := ok.stored
    start := ok.start
    snapshot := fun s pending => ⟨(ok.snapshot s pending).1, (after.snapshot s pending).1⟩
    joined := fun settled => ⟨after.positive, ?_, fun empty => ?_⟩
    terms := ?_ }
  · rw [last, length]
    exact committed.trans (by omega)
  · have := ok.offset
    simp only [RaftLog.appended, Unstable.replaced]
    omega
  · rw [count]
    simp only [RaftLog.appended, Unstable.replaced]
    omega
  · intro k inside
    have found := List.getElem?_eq_getElem inside
    rw [show (l.appended (a.spliced c j) (a.prev.index + j)).unstable.entries[k]?
      = ((a.spliced c j).drop (min l.unstable.offset (a.prev.index + j + 1) - 1))[k]? from rfl,
      List.getElem?_drop] at found
    have positive := shows.positive
    rw [conflict.index_spliced shows ok follow (by omega) found]
    simp only [RaftLog.appended, Unstable.replaced]
    omega
  · have := (ok.joined settled).2.1
    simp only [RaftLog.appended, Unstable.replaced]
    omega
  · rw [after.entries, List.drop_eq_nil_iff, length] at empty
    simp only [RaftLog.appended, Unstable.replaced] at empty
    omega
  · intro i below available
    rw [last] at below
    rw [after.zeroTerm available below.le, after.zeroTerm (Nat.le_succ_of_le available) below]
    exact conflict.terms_spliced shows ok follow available (length ▸ below)

end Conflict

-----------------------------------------------------------------------------------------
-- The specification
-----------------------------------------------------------------------------------------

theorem RaftLog.commitTo_eq (l : RaftLog) {i : Nat} (present : i ≤ l.lastIndex)
    : l.commitTo i = .ok { l with committed := max l.committed i } := by
  unfold RaftLog.commitTo
  by_cases news : l.committed < i
  · rw [if_pos news, if_neg (Nat.not_lt.mpr present), Nat.max_eq_right news.le]
    rfl
  · rw [if_neg news, Nat.max_eq_left (Nat.le_of_not_lt news)]
    rfl

theorem RaftLog.WellFormed.commit (ok : l.WellFormed) {i : Nat}
    (present : i ≤ l.lastIndex)
    : { l with committed := max l.committed i }.WellFormed :=
  { ok with
    applying := ok.applying.trans (Nat.le_max_left _ _)
    committed := Nat.max_le.mpr ⟨ok.committed, present⟩
    firstIndex := ok.firstIndex.trans (Nat.succ_le_succ (Nat.le_max_left _ _)) }

/-- The log `l'` after `maybeAppend` of a slice whose first entry that `l` does not have
is the `j`th one: it has the entries before as they were, and ends with those of the
slice.
-/
structure Splices (l l' : RaftLog) (a : LogSlice) (j : Nat) (e : Entry) : Prop where
  before : ∀ i < e.index, l'.entry? i = l.entry? i
  from_ : ∀ e' ∈ a.entries.drop j, l'.entry? e'.index = some e'
  last : l'.lastIndex = a.prev.index + a.entries.length

/-- A log with the same entries below an index has the same IDs there. -/
theorem Splices.contains {l' : RaftLog} {a : LogSlice} {j : Nat} {e : Entry}
    (splices : Splices l l' a j e) (start : l'.startID = l.startID) {id : EntryID}
    (below : id.index < e.index) (had : l.Contains id)
    : l'.Contains id := by
  unfold RaftLog.Contains at had ⊢
  rw [splices.before _ below, start]
  exact had

theorem Conflict.splices {a : LogSlice} {j : Nat} {e : Entry}
    (conflict : Conflict l c a j e)
    (shows : Shows l c) (ok : l.WellFormed) (follow : FollowOn a.prev a.entries)
    : Splices l (l.appended (a.spliced c j) (a.prev.index + j)) a j e := by
  have within := (List.getElem?_eq_some_iff.mp conflict.found).1
  have after := conflict.shows_appended shows ok.firstIndex
  have offset : (l.appended (a.spliced c j) (a.prev.index + j)).unstable.offset
      = min l.unstable.offset (a.prev.index + j + 1) := rfl
  refine ⟨fun i below => ?_, fun e' member => ?_, ?_⟩
  · rw [conflict.index] at below
    have first := l.firstIndex_pos
    have positive := shows.positive
    by_cases available : l.firstIndex ≤ i ∨ l.unstable.offset ≤ i
    · have same := congrArg (fun head => head[i - 1]?)
        (conflict.take_eq (Nat.le_refl (a.prev.index + j)))
      simp only [List.getElem?_take_of_lt (show i - 1 < a.prev.index + j by omega)] at same
      rw [after.entry? (available.imp id fun _ => by omega), shows.entry? available, same]
    · rw [Shows.entry?_eq_none (l := l) (by omega) (by omega),
        Shows.entry?_eq_none (l := l.appended _ _) (Nat.lt_of_not_le (not_or.mp available).1)
          (by omega)]
  · obtain ⟨k, found⟩ := List.getElem?_of_mem member
    rw [List.getElem?_drop] at found
    have index := follow.index found
    rw [after.entry? (.inr (by omega)), index, Nat.add_sub_cancel,
      LogSlice.getElem?_spliced conflict.inside (Nat.le_add_right j k)]
    exact found
  · rw [after.lastIndex, LogSlice.length_spliced conflict.inside within.le]

/-- The first missing entry is the only first one. -/
theorem eq_of_first {es : List Entry} {p : Entry → Prop} {j j' : Nat} {e e' : Entry}
    (found : es[j]? = some e) (missing : ¬p e) (before : ∀ x ∈ es.take j, p x)
    (found' : es[j']? = some e') (missing' : ¬p e') (before' : ∀ x ∈ es.take j', p x)
    : j = j' ∧ e = e' := by
  have same : j = j' := by
    rcases Nat.lt_trichotomy j j' with less | same | less
    · exact absurd (before' e (List.mem_of_getElem? (by rwa [List.getElem?_take_of_lt less])))
        missing
    · exact same
    · exact absurd (before e' (List.mem_of_getElem? (by rwa [List.getElem?_take_of_lt less])))
        missing'
  subst same
  exact ⟨rfl, Option.some.inj (found.symm.trans found')⟩

/-- A log that has all entries of the slice reaches its end. -/
theorem Shows.length_le {a : LogSlice} (shows : Shows l c)
    (follow : FollowOn a.prev a.entries)
    (prev : l.Contains a.prev) (all : ∀ e ∈ a.entries, l.Contains e.id)
    : a.prev.index + a.entries.length ≤ c.length := by
  cases last : a.entries.getLast? with
  | none =>
      rw [List.getLast?_eq_none_iff.mp last]
      exact (shows.contains_iff.mp prev).2.1
  | some e =>
      have found : a.entries[a.entries.length - 1]? = some e :=
        List.getLast?_eq_getElem? ▸ last
      have present := (shows.contains_iff.mp (all e (List.mem_of_getElem? found))).2.1
      have within := (List.getElem?_eq_some_iff.mp found).1
      simp only [Entry.id, follow.index found] at present
      omega

/-- The log `l'` has taken the slice: it has its entries, and is the same log if `l` had
them before; the commit index is the leader's `k` up to the end of the slice.
-/
structure Takes (l l' : RaftLog) (a : LogSlice) (k : Nat) : Prop where
  prev : l'.Contains a.prev
  entries : ∀ e ∈ a.entries, l'.Contains e.id
  same : (∀ e ∈ a.entries, l.Contains e.id) → l' = { l with committed := l'.committed }
  splices : ∀ j e, a.entries[j]? = some e → ¬l.Contains e.id
    → (∀ e' ∈ a.entries.take j, l.Contains e'.id) → Splices l l' a j e
  committed : l'.committed = max l.committed (min k (a.prev.index + a.entries.length))
  wellFormed : l'.WellFormed

theorem Shows.takes_had {a : LogSlice} (shows : Shows l c) (ok : l.WellFormed)
    (follow : FollowOn a.prev a.entries) (prev : l.Contains a.prev)
    (all : ∀ e ∈ a.entries, l.Contains e.id) (k : Nat)
    : ∃ l', l.commitTo (min k (a.prev.index + a.entries.length)) = .ok l'
      ∧ Takes l l' a k := by
  have reached : min k (a.prev.index + a.entries.length) ≤ l.lastIndex := by
    have := shows.length_le follow prev all
    rw [shows.lastIndex]
    omega
  refine ⟨_, l.commitTo_eq reached, prev, all, fun _ => rfl, ?_, rfl, ok.commit reached⟩
  exact fun j e found missing _ => absurd (all e (List.mem_of_getElem? found)) missing

theorem Conflict.takes {a : LogSlice} {j : Nat} {e : Entry}
    (conflict : Conflict l c a j e)
    (shows : Shows l c) (ok : l.WellFormed) (follow : FollowOn a.prev a.entries)
    (prev : l.Contains a.prev) (missing : ¬l.Contains e.id)
    (before : ∀ e' ∈ a.entries.take j, l.Contains e'.id) (k : Nat)
    : ∃ l', (l.appended (a.spliced c j) (a.prev.index + j)).commitTo
          (min k (a.prev.index + a.entries.length)) = .ok l'
      ∧ Takes l l' a k := by
  have splices := conflict.splices shows ok follow
  have ok' := conflict.wellFormed_appended shows ok follow
  have index := conflict.index
  have reached : min k (a.prev.index + a.entries.length)
      ≤ (l.appended (a.spliced c j) (a.prev.index + j)).lastIndex := by
    rw [splices.last]
    exact Nat.min_le_right _ _
  refine ⟨_, RaftLog.commitTo_eq _ reached, ?_, ?_, ?_, ?_, rfl, ok'.commit reached⟩
  · exact splices.contains rfl (by omega) prev
  · intro e' member
    obtain ⟨i, found⟩ := List.getElem?_of_mem member
    by_cases early : i < j
    · have had := before e' (List.mem_of_getElem? (by rwa [List.getElem?_take_of_lt early]))
      exact splices.contains rfl (by rw [Entry.id, follow.index found]; simp only; omega) had
    · have later : e' ∈ a.entries.drop j := by
        refine List.mem_of_getElem? (i := i - j) ?_
        rw [List.getElem?_drop, ← found]
        congr 1
        omega
      show RaftLog.Contains (l.appended (a.spliced c j) (a.prev.index + j)) e'.id
      unfold RaftLog.Contains
      simp only [Entry.id]
      rw [splices.from_ e' later]
  · exact fun all => absurd (all e (List.mem_of_getElem? conflict.found)) missing
  · intro j' e' found' missing' before'
    obtain ⟨rfl, rfl⟩ := eq_of_first conflict.found missing before found' missing' before'
    exact ⟨splices.before, splices.from_, splices.last⟩

/-- `maybeAppend` of entries that follow on. Without the entry before them nothing
changes, otherwise the log takes them.
-/
theorem RaftLog.WellFormed.maybeAppend_followOn (ok : l.WellFormed) {a : LogSlice}
    (follow : FollowOn a.prev a.entries)
    (compatible : ∀ e ∈ a.entries, e.index ≤ l.committed
      → ∀ e', l.entry? e.index = some e' → e'.term = e.term) (k : Nat)
    : (¬l.Contains a.prev → l.maybeAppend a k = .ok (l, none))
      ∧ (l.Contains a.prev
        → ∃ l', l.maybeAppend a k = .ok (l', some (a.prev.index + a.entries.length))
          ∧ Takes l l' a k) := by
  obtain ⟨c, shows⟩ := ok.exists_shows
  unfold RaftLog.maybeAppend
  refine ⟨fun missing => ?_, fun prev => ?_⟩
  · rw [← shows.matchTerm_iff_contains, Bool.not_eq_true] at missing
    rw [missing]
    rfl
  rw [shows.matchTerm_iff_contains.mpr prev]
  simp only [Bool.not_true, Bool.false_eq_true, if_false]
  have held (e : Entry) : l.matchTerm e.id = true ↔ l.Contains e.id :=
    shows.matchTerm_iff_contains
  rcases @RaftLog.findConflict_cases l _ _ follow with
    ⟨none, all⟩ | ⟨j, e, found, missing, at_, before⟩
  · obtain ⟨l', committed, takes⟩ :=
      shows.takes_had ok follow prev (fun e member => (held e).mp (all e member)) k
    refine ⟨l', ?_, takes⟩
    rw [none]
    simp only [RaftLog.appendConflict, if_true, except_pure, except_ok_bind, committed]
  · have missing' : ¬l.Contains e.id := fun had => by simp [(held e).mpr had] at missing
    have before' : ∀ e' ∈ a.entries.take j, l.Contains e'.id :=
      fun e' member => (held e').mp (before e' member)
    have conflict := shows.conflict (shows.lastIndex ▸ ok.committed) follow compatible prev found
      missing' before'
    obtain ⟨l', committed, takes⟩ :=
      conflict.takes shows ok follow prev missing' before' k
    refine ⟨l', ?_, takes⟩
    have within := (List.getElem?_eq_some_iff.mp found).1
    have index := conflict.index
    have after := conflict.committed
    have skip : sub64 e.index (a.prev.index + 1) = j := by
      rw [sub64_of_le (by omega)]
      omega
    unfold RaftLog.appendConflict
    rw [at_, if_neg (by omega), if_neg (by omega)]
    simp only [skip]
    rw [if_neg (by omega), conflict.append_eq shows ok]
    simp only [except_ok_bind, committed]
    rfl

/-- `maybeAppend` of a valid slice that does not contradict a committed entry. Without the
entry before the slice nothing changes, otherwise the log takes the slice.
-/
theorem RaftLog.WellFormed.maybeAppend_spec (ok : l.WellFormed) {a : LogSlice}
    (valid : a.valid = .ok ())
    (compatible : ∀ e ∈ a.entries, e.index ≤ l.committed
      → ∀ e', l.entry? e.index = some e' → e'.term = e.term) (k : Nat)
    : (¬l.Contains a.prev → l.maybeAppend a k = .ok (l, none))
      ∧ (l.Contains a.prev
        → ∃ l', l.maybeAppend a k = .ok (l', some (a.prev.index + a.entries.length))
          ∧ Takes l l' a k) :=
  ok.maybeAppend_followOn (LogSlice.valid_ok valid) compatible k

/-- A slice of which the log has the first entry, and another one in place of the second.
-/
theorem maybeAppend_spec_straddling
    : let a : LogSlice := {
        term := 3
        prev := { term := 1, index := 2 }
        entries := [{ term := 2, index := 3 }, { term := 3, index := 4 },
          { term := 3, index := 5 }] }
      straddling.Contains a.prev ∧ ∃ l', straddling.maybeAppend a 4 = .ok (l', some 5)
        ∧ Takes straddling l' a 4 ∧ l'.committed = 4 := by
  intro a
  have prev : straddling.Contains a.prev := by decide
  obtain ⟨l', done, takes⟩ := (RaftLog.WellFormed.maybeAppend_spec (l := straddling) (by decide)
    (a := a) (by decide) (by decide) 4).2 prev
  exact ⟨prev, l', done, takes, takes.committed⟩

end EtcdRaft
