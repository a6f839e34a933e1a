import EtcdRaft.Foundation.Consecutive
import EtcdRaft.Model.SliceStorage
import EtcdRaft.Refinement.View

/-! The storage as a log: the positions in the slice are those of the log as long as the
indexes stay below 2^63, and each call changes the log as a whole.
-/

namespace EtcdRaft

-----------------------------------------------------------------------------------------
-- The slice and the storage without it
-----------------------------------------------------------------------------------------

namespace MemoryStorage

/-- The storage in one slice. -/
def layout (ms : MemoryStorage) : SliceStorage where
  snapshot := ms.snapshot
  ents := ms.dummy :: ms.ents

/-- The entries follow the dummy one by one, and no position wraps around. -/
structure Fits (ms : MemoryStorage) : Prop where
  consecutive : ConsecutiveFrom Entry.index (ms.dummy.index + 1) ms.ents
  bound : ms.lastIndex < 2 ^ 63

section Layout

variable {ms : MemoryStorage}

@[simp] theorem layout_offset (ms : MemoryStorage) : ms.layout.offset = .ok ms.dummy.index := rfl

theorem Fits.layout_firstIndex (fits : ms.Fits)
    : ms.layout.firstIndex = .ok ms.firstIndex := by
  have bound : ms.dummy.index + ms.ents.length < 2 ^ 63 := fits.bound
  show Except.ok (add64 ms.dummy.index 1) = _
  rw [add64_of_lt (by omega)]
  rfl

theorem Fits.layout_lastIndex (fits : ms.Fits)
    : ms.layout.lastIndex = .ok ms.lastIndex := by
  have bound : ms.dummy.index + ms.ents.length < 2 ^ 63 := fits.bound
  show Except.ok (sub64 (add64 ms.dummy.index (ms.ents.length + 1)) 1) = _
  rw [add64_of_lt (by omega), sub64_of_le (by omega)]
  rfl

/-- An access at the position of an index. -/
theorem index_layout (ms : MemoryStorage) {i : Nat} {e : Entry}
    (found : (ms.dummy :: ms.ents)[i]? = some e)
    : SliceStorage.index ms.layout.ents i = .ok e := by
  unfold SliceStorage.index
  rw [show ms.layout.ents[i]? = some e from found]
  rfl

theorem layout_term (ms : MemoryStorage) {i : Nat} (small : i < 2 ^ 63)
    : ms.layout.term i = .ok (ms.term i) := by
  unfold SliceStorage.term MemoryStorage.term
  simp only [layout_offset, except_ok_bind]
  by_cases compacted : i < ms.dummy.index
  · rw [if_pos compacted, if_pos compacted]
    rfl
  rw [if_neg compacted, if_neg compacted, sub64_of_le (by omega)]
  cases found : (ms.dummy :: ms.ents)[i - ms.dummy.index]? with
  | none =>
      have beyond : ms.layout.ents.length ≤ i - ms.dummy.index :=
        List.getElem?_eq_none_iff.mp found
      rw [if_pos ⟨by omega, beyond⟩]
      rfl
  | some e =>
      have inside : i - ms.dummy.index < ms.layout.ents.length :=
        (List.getElem?_eq_some_iff.mp found).1
      rw [if_neg (by omega), ms.index_layout found]
      rfl

theorem Fits.layout_entries [Codec] (fits : ms.Fits) {lo hi : Nat} (maxSize : Nat)
    : ms.layout.entries lo hi maxSize = ms.entries lo hi maxSize := by
  have bound : ms.dummy.index + ms.ents.length < 2 ^ 63 := fits.bound
  unfold SliceStorage.entries MemoryStorage.entries
  simp only [layout_offset, except_ok_bind, fits.layout_lastIndex]
  by_cases compacted : lo ≤ ms.dummy.index
  · rw [if_pos compacted, if_pos compacted]
  rw [if_neg compacted, if_neg compacted, add64_of_lt (by unfold lastIndex; omega)]
  by_cases beyond : hi > ms.lastIndex + 1
  · rw [if_pos beyond, if_pos beyond]
    rfl
  rw [if_neg beyond, if_neg beyond, show ms.layout.ents.length = ms.ents.length + 1 from rfl]
  by_cases empty : ms.ents.length = 0
  · rw [if_pos (by omega), if_pos empty]
  rw [if_neg (by omega), if_neg empty, sub64_of_le (by omega)]
  unfold lastIndex at beyond
  unfold SliceStorage.slice
  rw [show ms.layout.ents.length = ms.ents.length + 1 from rfl]
  by_cases reversed : lo > hi
  · have outside : ¬(lo - ms.dummy.index ≤ sub64 hi ms.dummy.index
        ∧ sub64 hi ms.dummy.index ≤ ms.ents.length + 1) := by
      unfold sub64
      split <;> omega
    rw [if_pos reversed, if_neg outside]
    rfl
  · rw [if_neg reversed, sub64_of_le (by omega), if_pos ⟨by omega, by omega⟩]
    have position : lo - ms.dummy.index = lo - ms.dummy.index - 1 + 1 := by omega
    rw [show ms.layout.ents = ms.dummy :: ms.ents from rfl, position, List.drop_succ_cons,
      ← position, show hi - ms.dummy.index - (lo - ms.dummy.index) = hi - lo by omega]
    rfl

theorem Fits.layout_compact (fits : ms.Fits) (i : Nat)
    : ms.layout.compact i = (ms.compact i).map fun
        | .ok ms' => (ms'.layout, none)
        | .error err => (ms.layout, some err) := by
  have bound : ms.dummy.index + ms.ents.length < 2 ^ 63 := fits.bound
  unfold SliceStorage.compact MemoryStorage.compact
  simp only [layout_offset, except_ok_bind, fits.layout_lastIndex]
  by_cases compacted : i ≤ ms.dummy.index
  · rw [if_pos compacted, if_pos compacted]
    rfl
  rw [if_neg compacted, if_neg compacted]
  by_cases beyond : i > ms.lastIndex
  · rw [if_pos beyond, if_pos beyond]
    rfl
  rw [if_neg beyond, if_neg beyond, sub64_of_le (by omega)]
  unfold lastIndex at beyond
  obtain ⟨e, found⟩ : ∃ e, ms.ents[i - ms.dummy.index - 1]? = some e :=
    ⟨_, List.getElem?_eq_getElem (by omega)⟩
  have position : i - ms.dummy.index = i - ms.dummy.index - 1 + 1 := by omega
  have inSlice : (ms.dummy :: ms.ents)[i - ms.dummy.index]? = some e := by
    rw [position, List.getElem?_cons_succ, found]
  rw [ms.index_layout inSlice, found, add64_of_lt (by omega)]
  unfold SliceStorage.sliceFrom
  rw [show ms.layout.ents = ms.dummy :: ms.ents from rfl, List.length_cons, List.drop_succ_cons]
  simp only [except_ok_bind]
  rw [if_pos (by omega)]
  rfl

theorem Fits.layout_createSnapshot (fits : ms.Fits) (i : Nat) (cs : Option ConfState)
    (data : List Entry)
    : ms.layout.createSnapshot i cs data
      = (ms.createSnapshot i (cs.getD ms.snapshot.metadata.confState) data).map fun
        | .ok ms' => (ms'.layout, .ok ms'.snapshot)
        | .error err => (ms.layout, .error err) := by
  have bound : ms.dummy.index + ms.ents.length < 2 ^ 63 := fits.bound
  unfold SliceStorage.createSnapshot MemoryStorage.createSnapshot
  simp only [layout_offset, except_ok_bind, fits.layout_lastIndex]
  rw [show ms.layout.snapshot = ms.snapshot from rfl]
  by_cases outOfDate : i ≤ ms.snapshot.metadata.index
  · rw [if_pos outOfDate, if_pos outOfDate]
    rfl
  rw [if_neg outOfDate, if_neg outOfDate]
  by_cases beyond : i > ms.lastIndex
  · rw [if_pos beyond, if_pos beyond]
    rfl
  rw [if_neg beyond, if_neg beyond]
  unfold lastIndex at beyond
  by_cases compacted : i < ms.dummy.index
  · have outside : ms.layout.ents[sub64 i ms.dummy.index]? = none := by
      rw [List.getElem?_eq_none_iff, show ms.layout.ents.length = ms.ents.length + 1 from rfl,
        sub64, if_neg (by omega)]
      omega
    rw [if_pos compacted, SliceStorage.index, outside]
    rfl
  · obtain ⟨e, found⟩ : ∃ e, (ms.dummy :: ms.ents)[i - ms.dummy.index]? = some e :=
      ⟨_, List.getElem?_eq_getElem (by rw [List.length_cons]; omega)⟩
    rw [if_neg compacted, sub64_of_le (by omega), ms.index_layout found, found]
    rfl

theorem Fits.layout_appendNew (fits : ms.Fits) {e : Entry} {rest : List Entry}
    (new : ms.dummy.index < e.index)
    : ms.layout.appendNew (e :: rest)
      = if ms.ents.length + 1 ≥ e.index - ms.dummy.index then
          .ok { ms with ents := ms.ents.take (e.index - ms.dummy.index - 1) ++ e :: rest }.layout
        else
          .error (.missingLogEntry ms.lastIndex e.index) := by
  unfold SliceStorage.appendNew
  rw [show SliceStorage.index (e :: rest) 0 = .ok e from rfl, fits.layout_lastIndex,
    show ms.layout.ents = ms.dummy :: ms.ents from rfl, List.length_cons]
  simp only [except_ok_bind, layout_offset]
  obtain ⟨k, position⟩ : ∃ k, e.index - ms.dummy.index = k + 1 :=
    ⟨e.index - ms.dummy.index - 1, by omega⟩
  rw [sub64_of_le (by omega), position]
  by_cases inside : ms.ents.length + 1 > k + 1
  · rw [if_pos inside, if_pos (by omega)]
    rfl
  by_cases next : ms.ents.length + 1 = k + 1
  · rw [if_neg inside, if_pos next, if_pos (by omega), Nat.add_sub_cancel,
      List.take_of_length_le (by omega)]
    rfl
  · rw [if_neg inside, if_neg next, if_neg (by omega)]
    rfl

theorem Fits.layout_append (fits : ms.Fits) {es : List Entry} {first : Nat}
    (consecutive : ConsecutiveFrom Entry.index first es)
    (small : first + es.length ≤ 2 ^ 63)
    : ms.layout.append es = (ms.append es).map layout := by
  have bound : ms.dummy.index + ms.ents.length < 2 ^ 63 := fits.bound
  cases es with
  | nil => rfl
  | cons e rest =>
      have index : e.index = first := (ConsecutiveFrom.cons_iff.mp consecutive).1
      have count : (e :: rest).length = rest.length + 1 := rfl
      unfold SliceStorage.append MemoryStorage.append
      simp only [fits.layout_firstIndex, except_ok_bind]
      rw [add64_of_lt (by omega), sub64_of_le (by omega)]
      by_cases old : e.index + (e :: rest).length - 1 < ms.firstIndex
      · rw [if_pos old, if_pos old]
        rfl
      rw [if_neg old, if_neg old]
      unfold firstIndex at old ⊢
      by_cases overlaps : ms.dummy.index + 1 > e.index
      · -- the entries from the first index on
        obtain ⟨e', found⟩ : ∃ e', (e :: rest)[ms.dummy.index + 1 - e.index]? = some e' :=
          ⟨_, List.getElem?_eq_getElem (by omega)⟩
        have index' : e'.index = ms.dummy.index + 1 := by
          rw [consecutive.key_eq found]
          omega
        have kept : (e :: rest).drop (ms.dummy.index + 1 - e.index)
            = e' :: (e :: rest).drop (ms.dummy.index + 1 - e.index + 1) := by
          obtain ⟨inside, rfl⟩ := List.getElem?_eq_some_iff.mp found
          exact List.drop_eq_getElem_cons inside
        rw [if_pos overlaps, if_pos overlaps, sub64_of_le (by omega), SliceStorage.sliceFrom,
          if_pos (by omega), except_pure, except_ok_bind, kept, fits.layout_appendNew (by omega),
          index', Nat.max_eq_left (by omega)]
        split <;> rfl
      · rw [if_neg overlaps, if_neg overlaps, fits.layout_appendNew (by omega),
          Nat.max_eq_right (by omega)]
        split <;> rfl

theorem layout_applySnapshot (ms : MemoryStorage) (snap : Snapshot)
    : ms.layout.applySnapshot snap = match ms.applySnapshot snap with
      | .ok ms' => (ms'.layout, none)
      | .error err => (ms.layout, some err) := by
  unfold SliceStorage.applySnapshot MemoryStorage.applySnapshot
  simp only
  rw [show ms.layout.snapshot = ms.snapshot from rfl]
  split <;> rfl

end Layout

end MemoryStorage

-----------------------------------------------------------------------------------------
-- Calls that change the log
-----------------------------------------------------------------------------------------

namespace LogicalLog

/-- The entries from `lo` up to `hi`, without `hi`. -/
def between (l : LogicalLog) (lo hi : Nat) : List Entry :=
  l.entries.filter fun e => decide (lo ≤ e.index ∧ e.index < hi)

/-- The log cut before the first one of the entries and followed by them, as far as it is
not compacted.
-/
def replaceFrom (l : LogicalLog) (es : List Entry) : LogicalLog :=
  match es with
  | [] => l
  | e :: _ =>
      { l with
        entries := (l.entries.filter (fun e' => decide (e'.index < e.index)) ++ es).filter
          fun e' => decide (l.base < e'.index) }

/-- The log after an append, which entries that are all compacted do not change. -/
def write (l : LogicalLog) (es : List Entry) : LogicalLog :=
  if es.any fun e => decide (l.base < e.index) then l.replaceFrom es else l

/-- The log after the entries up to `i`, of which the term of the last one is kept. -/
def compact (l : LogicalLog) (i : Nat) : LogicalLog where
  base := i
  baseTerm := (l.term? i).getD 0
  entries := l.entries.filter fun e => decide (i < e.index)

/-- The log after a call that returns no error. -/
def after (l : LogicalLog) : StorageOp → LogicalLog
  | .append es => l.write es
  | .compact i => l.compact i
  | .createSnapshot .. => l
  | .applySnapshot snap => .restore snap

end LogicalLog

namespace MemoryStorage

/-- The log that the storage holds. -/
def log (ms : MemoryStorage) : LogicalLog where
  base := ms.dummy.index
  baseTerm := ms.dummy.term
  entries := ms.ents

variable {ms ms' : MemoryStorage}

/-- Overwriting cuts the log at a position. -/
theorem Fits.replaceFrom_entries (fits : ms.Fits) {e : Entry} {rest : List Entry}
    (consecutive : ConsecutiveFrom Entry.index e.index (e :: rest))
    : (ms.log.replaceFrom (e :: rest)).entries
      = ms.ents.take (e.index - (ms.dummy.index + 1))
        ++ (e :: rest).drop (ms.dummy.index + 1 - e.index) := by
  show List.filter (fun e' => decide (ms.dummy.index < e'.index))
    (ms.ents.filter (fun e' => decide (e'.index < e.index)) ++ e :: rest) = _
  have kept := ((fits.consecutive.take (e.index - (ms.dummy.index + 1))).filter_ge
    (ms.dummy.index + 1))
  rw [Nat.sub_self, List.drop_zero] at kept
  rw [List.filter_append, fits.consecutive.filter_lt]
  exact congrArg₂ _ kept (consecutive.filter_ge (ms.dummy.index + 1))

/-- An append that leaves no gap overwrites the log. -/
theorem Fits.append (fits : ms.Fits) {e : Entry} {rest : List Entry}
    (consecutive : ConsecutiveFrom Entry.index e.index (e :: rest))
    (small : e.index + (e :: rest).length ≤ 2 ^ 63) (joined : e.index ≤ ms.lastIndex + 1)
    : ∃ ms', ms.append (e :: rest) = .ok ms' ∧ ms'.Fits
      ∧ ms'.log = ms.log.write (e :: rest) := by
  have count : (e :: rest).length = rest.length + 1 := rfl
  unfold MemoryStorage.append LogicalLog.write
  simp only
  by_cases old : e.index + (e :: rest).length - 1 < ms.firstIndex
  · have none : ¬((e :: rest).any fun e' => decide (ms.log.base < e'.index)) = true := by
      rw [consecutive.any_gt_iff]
      unfold firstIndex at old
      show ¬ms.dummy.index < _
      omega
    rw [if_pos old, if_neg none]
    exact ⟨ms, rfl, fits, rfl⟩
  rw [if_neg old]
  unfold firstIndex at old ⊢
  unfold lastIndex at joined
  have some_ : ((e :: rest).any fun e' => decide (ms.log.base < e'.index)) = true := by
    rw [consecutive.any_gt_iff]
    show ms.dummy.index < _
    omega
  rw [if_pos (by omega), if_pos some_]
  -- the two cases of the code, with and without overlap, are one
  have kept : (if ms.dummy.index + 1 > e.index then
        (e :: rest).drop (ms.dummy.index + 1 - e.index)
      else e :: rest) = (e :: rest).drop (ms.dummy.index + 1 - e.index) := by
    split
    · rfl
    · rw [Nat.sub_eq_zero_of_le (by omega), List.drop_zero]
  have position : max (ms.dummy.index + 1) e.index - ms.dummy.index - 1
      = e.index - (ms.dummy.index + 1) := by
    omega
  rw [kept, position]
  refine ⟨_, rfl, ⟨?_, ?_⟩, ?_⟩
  · refine ConsecutiveFrom.append_iff.mpr ⟨fits.consecutive.take _, ?_⟩
    have next := consecutive.drop (ms.dummy.index + 1 - e.index)
    rw [List.length_take, Nat.min_eq_left (by omega)]
    rwa [show ms.dummy.index + 1 + (e.index - (ms.dummy.index + 1))
      = e.index + (ms.dummy.index + 1 - e.index) by omega]
  · show ms.dummy.index + List.length (_ ++ _) < _
    rw [List.length_append, List.length_take, List.length_drop]
    omega
  · exact congrArg (LogicalLog.mk ms.dummy.index ms.dummy.term)
      (fits.replaceFrom_entries consecutive).symm

/-- An append fails exactly if it would leave a gap. -/
theorem append_error_iff (ms : MemoryStorage) (e : Entry) (rest : List Entry)
    : (∃ p, ms.append (e :: rest) = .error p) ↔ ms.lastIndex + 1 < e.index := by
  have count : (e :: rest).length = rest.length + 1 := rfl
  unfold MemoryStorage.append lastIndex firstIndex
  simp only
  by_cases old : e.index + (e :: rest).length - 1 < ms.dummy.index + 1
  · rw [if_pos old]
    exact ⟨nofun, fun gap => by omega⟩
  rw [if_neg old]
  split
  · exact ⟨nofun, fun gap => by omega⟩
  · exact ⟨fun _ => by omega, fun _ => ⟨_, rfl⟩⟩

/-- Compacting keeps what comes after the index, and its term. -/
theorem Fits.compact (fits : ms.Fits) {i : Nat} (above : ms.dummy.index < i)
    (inside : i ≤ ms.lastIndex)
    : ∃ ms' e, ms.compact i = .ok (.ok ms') ∧ ms'.Fits ∧ ms'.log = ms.log.compact i
      ∧ ms.log.entry? i = some e := by
  unfold lastIndex at inside
  obtain ⟨e, found⟩ : ∃ e, ms.ents[i - ms.dummy.index - 1]? = some e :=
    ⟨_, List.getElem?_eq_getElem (by omega)⟩
  have index : e.index = i := by
    rw [fits.consecutive.key_eq found]
    omega
  have held : ms.log.entry? i = some e := by
    unfold LogicalLog.entry?
    rw [if_neg (by show ¬i ≤ ms.dummy.index; omega)]
    exact found
  have bound : ms.dummy.index + ms.ents.length < 2 ^ 63 := fits.bound
  unfold MemoryStorage.compact
  rw [if_neg (by omega), if_neg (by unfold lastIndex; omega), found]
  refine ⟨_, e, rfl, ⟨?_, ?_⟩, ?_, held⟩
  · have rest := fits.consecutive.drop (i - ms.dummy.index)
    show ConsecutiveFrom Entry.index (e.index + 1) _
    rwa [index, show i + 1 = ms.dummy.index + 1 + (i - ms.dummy.index) by omega]
  · show e.index + (ms.ents.drop _).length < _
    rw [List.length_drop]
    omega
  · have term : ms.log.term? i = some e.term := by
      unfold LogicalLog.term?
      rw [if_neg (by show i ≠ ms.dummy.index; omega), held]
      rfl
    have rest := fits.consecutive.filter_ge (i + 1)
    rw [show i + 1 - (ms.dummy.index + 1) = i - ms.dummy.index by omega] at rest
    unfold LogicalLog.compact
    rw [term]
    show LogicalLog.mk e.index e.term _ = LogicalLog.mk i e.term (ms.ents.filter _)
    rw [index]
    exact congrArg _ rest.symm

end MemoryStorage

end EtcdRaft
