import EtcdRaft.Refinement.Representation

/-! `slice` limits the represented log by size: the separate limits on the stored and on
the unstable part are one limit on both.
-/

namespace EtcdRaft

-----------------------------------------------------------------------------------------
-- Limits by size
-----------------------------------------------------------------------------------------

section Limits

variable [Codec] {maxSize size : Nat} {ents rest : List Entry}

@[simp] theorem entsSize_nil : entsSize [] = 0 := rfl

@[simp] theorem entsSize_cons (e : Entry)
    : entsSize (e :: ents) = Codec.size e + entsSize ents := by
  simp [entsSize]

@[simp] theorem entsSize_append
    : entsSize (ents ++ rest) = entsSize ents + entsSize rest := by
  simp [entsSize]

/-- The limit on two parts, when it cuts the first one. -/
theorem limitSizeRest_append_of_short
    (short : (limitSizeRest maxSize size ents).length < ents.length)
    : limitSizeRest maxSize size (ents ++ rest) = limitSizeRest maxSize size ents := by
  induction ents generalizing size with
  | nil => simp at short
  | cons e more ih =>
      unfold limitSizeRest at short
      rw [List.cons_append]
      unfold limitSizeRest
      by_cases beyond : size + Codec.size e > maxSize
      · rw [if_pos beyond, if_pos beyond]
      · rw [if_neg beyond] at short
        rw [if_neg beyond, if_neg beyond, ih (Nat.lt_of_succ_lt_succ short)]

/-- The limit on two parts, when the first one fits. -/
theorem limitSizeRest_append_of_whole
    (whole : ents.length ≤ (limitSizeRest maxSize size ents).length)
    : limitSizeRest maxSize size (ents ++ rest)
      = ents ++ limitSizeRest maxSize (size + entsSize ents) rest := by
  induction ents generalizing size with
  | nil => simp
  | cons e more ih =>
      unfold limitSizeRest at whole
      rw [List.cons_append, List.cons_append]
      rw [limitSizeRest]
      by_cases beyond : size + Codec.size e > maxSize
      · rw [if_pos beyond] at whole
        simp at whole
      · rw [if_neg beyond] at whole
        rw [if_neg beyond, ih (Nat.le_of_succ_le_succ whole), entsSize_cons, Nat.add_assoc]

theorem limitSize_append_of_short (short : (limitSize ents maxSize).length < ents.length)
    : limitSize (ents ++ rest) maxSize = limitSize ents maxSize := by
  cases ents with
  | nil => simp at short
  | cons e more =>
      show e :: limitSizeRest maxSize (Codec.size e) (more ++ rest) = _
      rw [limitSizeRest_append_of_short (Nat.lt_of_succ_lt_succ short)]
      rfl

theorem limitSize_append_of_whole (nonempty : ents ≠ [])
    (whole : ents.length ≤ (limitSize ents maxSize).length)
    : limitSize (ents ++ rest) maxSize
      = ents ++ limitSizeRest maxSize (entsSize ents) rest := by
  cases ents with
  | nil => exact absurd rfl nonempty
  | cons e more =>
      show e :: limitSizeRest maxSize (Codec.size e) (more ++ rest) = _
      rw [limitSizeRest_append_of_whole (Nat.le_of_succ_le_succ whole), entsSize_cons]
      rfl

/-- A limit from which a part is used up is the rest of the limit. -/
theorem limitSizeRest_sub (used : Nat) (fits : used ≤ maxSize)
    : limitSizeRest (maxSize - used) size ents
      = limitSizeRest maxSize (used + size) ents := by
  induction ents generalizing size with
  | nil => rfl
  | cons e more ih =>
      unfold limitSizeRest
      by_cases beyond : size + Codec.size e > maxSize - used
      · rw [if_pos beyond, if_pos (by omega)]
      · rw [if_neg beyond, if_neg (by omega), ih, Nat.add_assoc]

/-- Nothing fits after a limit that is used up, if every entry has a size. -/
theorem limitSizeRest_of_full (full : maxSize ≤ size)
    (sized : ∀ e ∈ ents, 0 < Codec.size e)
    : limitSizeRest maxSize size ents = [] := by
  cases ents with
  | nil => rfl
  | cons e more =>
      have := sized e List.mem_cons_self
      unfold limitSizeRest
      rw [if_pos (by omega)]

/-- The unstable part under the rest of the limit; a single entry that does not fit, which
`limitSize` keeps, is dropped.
-/
theorem limitSize_sub (room : size < maxSize) (sized : ∀ e ∈ ents, 0 < Codec.size e)
    : limitSizeRest maxSize size ents
      = if (limitSize ents (maxSize - size)).length = 1
            ∧ size + entsSize (limitSize ents (maxSize - size)) > maxSize
        then [] else limitSize ents (maxSize - size) := by
  cases ents with
  | nil => rfl
  | cons e more =>
      have rest := @limitSizeRest_sub _ maxSize (Codec.size e) more size room.le
      rw [show limitSize (e :: more) (maxSize - size)
        = e :: limitSizeRest (maxSize - size) (Codec.size e) more from rfl, rest]
      rw [limitSizeRest]
      by_cases beyond : size + Codec.size e > maxSize
      · have none : limitSizeRest maxSize (size + Codec.size e) more = [] :=
          limitSizeRest_of_full beyond.le fun e member => sized e (List.mem_cons_of_mem _ member)
        rw [if_pos beyond, none, if_pos ⟨rfl, by simpa using beyond⟩]
      · rw [if_neg beyond, if_neg]
        rintro ⟨single, exceeds⟩
        rw [List.length_eq_zero_iff.mp (Nat.succ_injective single)] at exceeds
        simp only [entsSize_cons, entsSize_nil] at exceeds
        omega

/-- A limited rest fits. -/
theorem entsSize_limitSizeRest_le
    : limitSizeRest maxSize size ents = []
      ∨ size + entsSize (limitSizeRest maxSize size ents) ≤ maxSize := by
  induction ents generalizing size with
  | nil => exact .inl rfl
  | cons e more ih =>
      unfold limitSizeRest
      by_cases beyond : size + Codec.size e > maxSize
      · exact .inl (if_pos beyond)
      · rw [if_neg beyond, entsSize_cons]
        rcases @ih (size + Codec.size e) with none | fits
        · rw [none, entsSize_nil]
          exact .inr (by omega)
        · exact .inr (by omega)

/-- What is cut off does not fit. -/
theorem length_le_limitSizeRest {head : List Entry} (pre : head <+: ents)
    (fits : size + entsSize head ≤ maxSize)
    : head.length ≤ (limitSizeRest maxSize size ents).length := by
  induction ents generalizing size head with
  | nil => simp [List.prefix_nil.mp pre]
  | cons e more ih =>
      cases head with
      | nil => exact Nat.zero_le _
      | cons e' head =>
          obtain ⟨rfl, pre'⟩ := List.cons_prefix_cons.mp pre
          rw [entsSize_cons] at fits
          unfold limitSizeRest
          rw [if_neg (by omega)]
          exact Nat.succ_le_succ (ih pre' (by omega))

/-- `limitSize` keeps the longest head of the entries that fits, and one entry at least.
-/
theorem limitSize_longest (ents : List Entry) (maxSize : Nat)
    : ((limitSize ents maxSize).length ≤ 1 ∨ entsSize (limitSize ents maxSize) ≤ maxSize)
      ∧ ∀ head, head <+: ents → entsSize head ≤ maxSize
        → head.length ≤ (limitSize ents maxSize).length := by
  cases ents with
  | nil => exact ⟨.inl (Nat.zero_le _), fun head pre _ => pre.length_le⟩
  | cons e more =>
      refine ⟨?_, fun head pre fits => ?_⟩
      · simp only [limitSize, entsSize_cons, List.length_cons]
        rcases @entsSize_limitSizeRest_le _ maxSize (Codec.size e) more with none | fits
        · rw [none]
          exact .inl (Nat.le_refl _)
        · exact .inr fits
      · cases head with
        | nil => exact Nat.zero_le _
        | cons e' head =>
            obtain ⟨rfl, pre'⟩ := List.cons_prefix_cons.mp pre
            exact Nat.succ_le_succ (length_le_limitSizeRest pre' (by simpa using fits))

/-- The limit on the stored part and then on the unstable one is one limit on both. -/
theorem limitParts_eq {stored unstable : List Entry}
    (nonempty : stored = [] → unstable = []) (sized : ∀ e ∈ unstable, 0 < Codec.size e)
    : limitParts stored unstable maxSize = limitSize (stored ++ unstable) maxSize := by
  unfold limitParts
  simp only
  by_cases none : stored = []
  · simp [none, nonempty none, limitSize]
  by_cases short : (limitSize stored maxSize).length < stored.length
  · rw [if_pos (.inl short), limitSize_append_of_short short]
  have whole :=
    (limitSize_isPrefix stored maxSize).eq_of_length_le (Nat.le_of_not_lt short)
  rw [limitSize_append_of_whole none (Nat.le_of_not_lt short), whole]
  by_cases full : maxSize ≤ entsSize stored
  · rw [if_pos (.inr full), limitSizeRest_of_full full sized, List.append_nil]
  · rw [if_neg (not_or.mpr ⟨Nat.lt_irrefl _, full⟩), limitSize_sub (Nat.lt_of_not_le full) sized]
    split <;> simp

end Limits

theorem MemoryStorage.ends_entries_limitSize [Codec] (ms : MemoryStorage)
    (lo hi maxSize : Nat)
    : Ends (ms.entries lo hi maxSize)
        (fun read => ∀ ents, read = .ok ents → ∃ part, ents = limitSize part maxSize)
        (fun _ => True) := by
  unfold MemoryStorage.entries
  refine Ends.ite (fun _ ents read => nomatch read) fun _ => ?_
  refine Ends.ite (fun _ => trivial) fun _ => ?_
  refine Ends.ite (fun _ ents read => nomatch read) fun _ => ?_
  refine Ends.ite (fun _ => trivial) fun _ ents read => ?_
  cases read
  exact ⟨_, rfl⟩

/-- Whatever the log is, a slice of it fits or is a single entry. -/
theorem RaftLog.ends_slice_fits [Codec] (l : RaftLog) (lo hi maxSize : Nat)
    : Ends (l.slice lo hi maxSize)
        (fun read => ∀ ents, read = .ok ents → ents.length ≤ 1 ∨ entsSize ents ≤ maxSize)
        (fun _ => True) := by
  have limited : ∀ ents, (limitSize ents maxSize).length ≤ 1
      ∨ entsSize (limitSize ents maxSize) ≤ maxSize :=
    fun ents => (limitSize_longest ents maxSize).1
  unfold RaftLog.slice
  refine Ends.bind (q := fun _ => True) (Ends.of_eq (fun _ _ => trivial) fun _ _ => trivial)
    fun checked _ => ?_
  cases checked with
  | error err => exact fun ents read => nomatch read
  | ok _ =>
      refine Ends.ite (fun _ ents read => ?_) fun _ => Ends.ite (fun _ => ?_) fun _ => ?_
      · cases read
        exact .inl (Nat.zero_le _)
      · refine Ends.bind (q := fun _ => True) (Ends.of_eq (fun _ _ => trivial) fun _ _ => trivial)
          fun part _ ents read => ?_
        cases read
        exact limited part
      refine Ends.bind (l.storage.ends_entries_limitSize _ _ _) fun read stored => ?_
      match read with
      | .error .errUnavailable => exact trivial
      | .error .errCompacted => exact fun ents read => nomatch read
      | .error .errSnapOutOfDate => exact fun ents read => nomatch read
      | .ok ents =>
          obtain ⟨part, same⟩ := stored ents rfl
          have whole : ∀ read, (.ok ents : Except StorageError (List Entry)) = .ok read
              → read.length ≤ 1 ∨ entsSize read ≤ maxSize := by
            rintro read ⟨⟩
            exact same ▸ limited part
          refine Ends.ite (fun _ => whole) fun _ => Ends.ite (fun _ => whole) fun _ => ?_
          refine Ends.ite (fun _ => whole) fun room => ?_
          refine Ends.bind (q := fun _ => True) (Ends.of_eq (fun _ _ => trivial) fun _ _ => trivial)
            fun rest _ => ?_
          refine Ends.ite (fun _ => whole) fun joined read joins => ?_
          cases joins
          -- one entry is kept though it may not fit, and then the two parts are not joined
          rw [entsSize_append]
          rcases (limitSize_longest rest (maxSize - entsSize ents)).1 with single | fits
          · rcases Nat.le_one_iff_eq_zero_or_eq_one.mp single with none | one
            · rw [List.length_eq_zero_iff.mp none, entsSize_nil]
              omega
            · omega
          · omega

/-- `nextCommittedEnts` reads the log where `hasNextCommittedEnts` finds something. -/
theorem RaftLog.nextCommittedEnts_eq [Codec] (l : RaftLog) (allowUnstable : Bool)
    : l.nextCommittedEnts allowUnstable = if l.hasNextCommittedEnts allowUnstable = true then
        if sub64 l.maxApplyingEntsSize l.applyingEntsSize = 0 then
          throw (.applyingSizeNotPositive l.maxApplyingEntsSize l.applyingEntsSize)
        else
          l.slice (l.applying + 1) (l.maxAppliableIndex allowUnstable + 1)
              (sub64 l.maxApplyingEntsSize l.applyingEntsSize) >>= fun read =>
            match read with
            | .ok ents => pure ents
            | .error err => throw (.unappliedEntries err)
      else
        pure [] := by
  unfold RaftLog.nextCommittedEnts RaftLog.hasNextCommittedEnts
  by_cases paused : l.applyingEntsPaused = true
  · simp [paused]
  by_cases pending : l.hasNextOrInProgressSnapshot = true
  · simp [pending]
  by_cases some : l.applying + 1 < l.maxAppliableIndex allowUnstable + 1
  · simp only [paused, pending, some, Nat.not_le.mpr some, Bool.false_eq_true, ↓reduceIte,
      decide_true]
    split <;> rfl
  · simp only [paused, pending, some, Nat.not_lt.mp some, Bool.false_eq_true, ↓reduceIte,
      decide_false]

/-- A batch of committed entries fits into the room that is left, or is a single entry. -/
theorem RaftLog.nextCommittedEnts_fits [Codec] {l : RaftLog} {allowUnstable : Bool}
    {ents : List Entry} (read : l.nextCommittedEnts allowUnstable = .ok ents)
    : ents.length ≤ 1 ∨ entsSize ents ≤ sub64 l.maxApplyingEntsSize l.applyingEntsSize := by
  rw [nextCommittedEnts_eq] at read
  split at read
  · split at read
    · cases read
    · obtain ⟨page, sliced, same⟩ := except_bind_eq_ok.mp read
      cases page with
      | error err => cases same
      | ok page =>
          cases same
          exact (l.ends_slice_fits _ _ _).result sliced _ rfl
  · cases read
    exact .inl (Nat.zero_le _)

-----------------------------------------------------------------------------------------
-- Slices of the represented log
-----------------------------------------------------------------------------------------

/-- `slice` limits the represented entries by size, wherever the unstable ones begin: it
reads the longest head of them that fits, and one entry at least.
-/
theorem RaftLog.WellFormed.slice_eq_limitSize [Codec] {l : RaftLog} (ok : l.WellFormed)
    (sized : ∀ i e, l.entry? i = some e → 0 < Codec.size e) {lo hi : Nat} (maxSize : Nat)
    (available : l.firstIndex ≤ lo) (ordered : lo ≤ hi) (present : hi ≤ l.lastIndex + 1)
    : ∃ ents, l.slice lo hi maxSize = .ok (.ok ents)
      ∧ ents = limitSize (l.entriesBetween lo hi) maxSize
      ∧ (l.entriesBetween lo hi).length = hi - lo
      ∧ ents <+: l.entriesBetween lo hi
      ∧ (lo < hi → 1 ≤ ents.length)
      ∧ (ents.length ≤ 1 ∨ entsSize ents ≤ maxSize)
      ∧ ∀ head, head <+: l.entriesBetween lo hi → entsSize head ≤ maxSize
        → head.length ≤ ents.length := by
  obtain ⟨c, shows⟩ := ok.exists_shows
  have first := l.firstIndex_pos
  rw [shows.lastIndex] at present
  have between := @Shows.entriesBetween l c shows lo hi available
  have count : (l.entriesBetween lo hi).length = hi - lo := by
    rw [between, List.length_take, List.length_drop]
    omega
  obtain ⟨fits, longest⟩ := limitSize_longest (l.entriesBetween lo hi) maxSize
  refine ⟨limitSize (l.entriesBetween lo hi) maxSize, ?_, rfl, count, limitSize_isPrefix _ _,
    fun nonempty => ?_, fits, longest⟩
  · rw [shows.slice_parts maxSize available ordered present, between]
    by_cases stable : lo < l.unstable.offset
    · have cut := @take_cut c lo hi l.unstable.offset (by omega) stable
      rw [if_pos stable, limitParts_eq (fun none => ?_) fun e member => ?_, ← cut]
      · rw [← List.length_eq_zero_iff, List.length_take, List.length_drop] at none ⊢
        omega
      · have inside : e ∈ l.entriesBetween lo hi := by
          rw [between, cut]
          exact List.mem_append_right _ member
        obtain ⟨i, _, found⟩ := List.mem_filterMap.mp inside
        exact sized i e found
    · rw [if_neg stable]
  · refine List.length_pos_iff.mpr (limitSize_ne_nil fun empty => ?_)
    rw [empty] at count
    simp at count
    omega

attribute [local instance] Codec.wire

/-- Three stored entries, of which the unstable ones replace the last. -/
def straddling : RaftLog where
  storage := { ents := [
    { term := 1, index := 1, data := [1] },
    { term := 1, index := 2, data := [1, 2] },
    { term := 1, index := 3, data := [1, 2, 3] }] }
  unstable := {
    offset := 3
    offsetInProgress := 3
    entries := [{ term := 2, index := 3, data := [1, 2] }, { term := 2, index := 4, data := [1] }] }
  committed := 2
  applying := 1
  applied := 1
  maxApplyingEntsSize := noLimit
  logical := {}

/-- Up to 23 bytes from index 1 on: two stored entries of 7 and 8 bytes and an unstable
one of 8.
-/
theorem slice_eq_limitSize_straddling
    : straddling.WellFormed ∧ ∃ ents, straddling.slice 1 5 23 = .ok (.ok ents)
      ∧ ents = limitSize (straddling.entriesBetween 1 5) 23 ∧ ents.length = 3 := by
  refine ⟨by decide, ?_⟩
  have sized : ∀ e ∈ straddling.unstable.entries ++ straddling.storage.ents, 0 < Codec.size e := by
    decide
  obtain ⟨ents, read, limited, _⟩ := @RaftLog.WellFormed.slice_eq_limitSize _ straddling
    (by decide) (fun i e found => sized e (RaftLog.mem_of_entry? found)) 1 5 23 (by decide)
    (by decide) (by decide)
  exact ⟨ents, read, limited, by rw [limited]; decide⟩

end EtcdRaft
