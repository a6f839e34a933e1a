import EtcdRaft.Refinement.SliceStorage

/-! Sequences of calls of a storage. As long as the indexes stay below 2^63 the storage is
a log that every call changes or leaves as it is, and whose bounds, terms and entries can
be read.
-/

namespace EtcdRaft

-----------------------------------------------------------------------------------------
-- Calls
-----------------------------------------------------------------------------------------

/-- The indexes of a call are below 2^63, and the entries that it appends are consecutive.
-/
def StorageOp.InRange : StorageOp → Prop
  | .append es =>
      (∀ e ∈ es.head?, ConsecutiveFrom Entry.index e.index es) ∧ ∀ e ∈ es, e.index < 2 ^ 63
  | .compact i => i < 2 ^ 63
  | .createSnapshot i _ _ => i < 2 ^ 63
  | .applySnapshot snap => snap.metadata.index < 2 ^ 63

instance (op : StorageOp) : Decidable op.InRange := by
  cases op <;> unfold StorageOp.InRange <;> infer_instance

/-- The call needs what the log does not have: the entry before the first new one, or the
entry at the index.
-/
def StorageOp.OutOfBounds (op : StorageOp) (l : LogicalLog) : Prop :=
  match op with
  | .append es => ∃ e ∈ es.head?, l.lastIndex + 1 < e.index
  | .compact i => l.lastIndex < i
  | .createSnapshot i _ _ => l.lastIndex < i ∨ i < l.base
  | .applySnapshot _ => False

/-- The last entry is the one that bounds the length. -/
theorem StorageOp.InRange.length_le {e : Entry} {rest : List Entry}
    (inRange : (StorageOp.append (e :: rest)).InRange)
    : ConsecutiveFrom Entry.index e.index (e :: rest)
      ∧ e.index + (e :: rest).length ≤ 2 ^ 63 := by
  obtain ⟨consecutive, small⟩ := inRange
  have consecutive := consecutive e rfl
  refine ⟨consecutive, ?_⟩
  obtain ⟨e', found⟩ : ∃ e', (e :: rest)[rest.length]? = some e' :=
    ⟨_, List.getElem?_eq_getElem (Nat.lt_succ_self _)⟩
  have last := small e' (List.mem_of_getElem? found)
  rw [consecutive.key_eq found] at last
  rw [List.length_cons]
  omega

namespace SliceStorage

/-- The log in the slice. -/
def log (s : SliceStorage) : LogicalLog :=
  match s.ents with
  | [] => {}
  | dummy :: rest => { base := dummy.index, baseTerm := dummy.term, entries := rest }

/-- The slice is the layout of a storage that fits. -/
def Sound (s : SliceStorage) : Prop := ∃ ms : MemoryStorage, ms.Fits ∧ ms.layout = s

theorem sound_new : newMemoryStorage.Sound :=
  ⟨{}, ⟨ConsecutiveFrom.nil, Nat.two_pow_pos 63⟩, rfl⟩

/-- A call panics only out of bounds; otherwise it changes the log, or returns an error
and leaves the storage as it is.
-/
theorem Sound.call {s : SliceStorage} (sound : s.Sound) {op : StorageOp}
    (inRange : op.InRange)
    : Ends (s.call op)
        (fun | (s', none) => s'.Sound ∧ s'.log = s.log.after op
             | (s', some _) => s' = s)
        fun _ => op.OutOfBounds s.log := by
  obtain ⟨ms, fits, rfl⟩ := sound
  cases op with
  | append es =>
      cases es with
      | nil => exact ⟨⟨ms, fits, rfl⟩, rfl⟩
      | cons e rest =>
          obtain ⟨consecutive, small⟩ := inRange.length_le
          simp only [SliceStorage.call]
          rw [fits.layout_append consecutive small]
          by_cases gap : ms.lastIndex + 1 < e.index
          · obtain ⟨p, fails⟩ := (ms.append_error_iff e rest).mpr gap
            rw [fails]
            exact ⟨e, rfl, gap⟩
          · obtain ⟨ms', done, fits', log⟩ := fits.append consecutive small (by omega)
            rw [done]
            exact ⟨⟨ms', fits', rfl⟩, log⟩
  | compact i =>
      show Ends (ms.layout.compact i) _ _
      rw [fits.layout_compact]
      by_cases compacted : i ≤ ms.dummy.index
      · rw [MemoryStorage.compact, if_pos compacted]
        rfl
      by_cases beyond : ms.lastIndex < i
      · rw [MemoryStorage.compact, if_neg compacted, if_pos beyond]
        exact beyond
      · obtain ⟨ms', _, done, fits', log, _⟩ := fits.compact (i := i) (by omega) (by omega)
        rw [done]
        exact ⟨⟨ms', fits', rfl⟩, log⟩
  | createSnapshot i cs data =>
      simp only [SliceStorage.call]
      rw [fits.layout_createSnapshot, MemoryStorage.createSnapshot]
      by_cases outOfDate : i ≤ ms.snapshot.metadata.index
      · rw [if_pos outOfDate]
        rfl
      rw [if_neg outOfDate]
      by_cases beyond : i > ms.lastIndex
      · rw [if_pos beyond]
        exact .inl beyond
      rw [if_neg beyond]
      by_cases compacted : i < ms.dummy.index
      · rw [if_pos compacted]
        exact .inr compacted
      rw [if_neg compacted]
      unfold MemoryStorage.lastIndex at beyond
      obtain ⟨e, found⟩ : ∃ e, (ms.dummy :: ms.ents)[i - ms.dummy.index]? = some e :=
        ⟨_, List.getElem?_eq_getElem (by rw [List.length_cons]; omega)⟩
      rw [found]
      let snapshot : Snapshot := {
        data
        metadata := {
          index := i
          term := e.term
          confState := cs.getD ms.snapshot.metadata.confState } }
      exact ⟨⟨{ ms with snapshot := snapshot }, ⟨fits.consecutive, fits.bound⟩, rfl⟩, rfl⟩
  | applySnapshot snap =>
      simp only [SliceStorage.call]
      rw [ms.layout_applySnapshot, MemoryStorage.applySnapshot]
      by_cases outOfDate : ms.snapshot.metadata.index ≠ 0
          ∧ ms.snapshot.metadata.index ≥ snap.metadata.index
      · rw [if_pos outOfDate]
        rfl
      · rw [if_neg outOfDate]
        exact ⟨⟨{ ms with
          snapshot := snap
          dummy := { term := snap.metadata.term, index := snap.metadata.index }
          ents := [] }, ⟨ConsecutiveFrom.nil, inRange⟩, rfl⟩, rfl⟩

/-- A call that does not panic leaves a slice that fits. -/
theorem Sound.of_call {s s' : SliceStorage} (sound : s.Sound) {op : StorageOp}
    (inRange : op.InRange) {err : Option StorageError} (done : s.call op = .ok (s', err))
    : s'.Sound := by
  have outcome := (sound.call inRange).result done
  cases err with
  | none => exact outcome.1
  | some err => exact outcome ▸ sound

theorem Sound.calls {s s' : SliceStorage} (sound : s.Sound) {ops : List StorageOp}
    (inRange : ∀ op ∈ ops, op.InRange) (done : s.calls ops = .ok s')
    : s'.Sound := by
  induction ops generalizing s with
  | nil =>
      cases done
      exact sound
  | cons op rest ih =>
      obtain ⟨⟨s₁, err⟩, called, done⟩ := except_bind_eq_ok.mp done
      obtain ⟨first, later⟩ := List.forall_mem_cons.mp inRange
      exact ih (sound.of_call first called) later done

-----------------------------------------------------------------------------------------
-- The storage is a log
-----------------------------------------------------------------------------------------

/-- What the storage has in its slice, what can be read from it and what every call makes
of it is that of the log.
-/
structure IsLog [Codec] (s : SliceStorage) (log : LogicalLog) : Prop where
  /-- The first slot has the index and the term of the last entry that is gone. -/
  slots : ∃ dummy, s.ents = dummy :: log.entries ∧ dummy.index = log.base
    ∧ dummy.term = log.baseTerm
  contiguous : ∀ k e, s.ents[k]? = some e → e.index = log.base + k
  firstIndex : s.firstIndex = .ok (log.base + 1)
  lastIndex : s.lastIndex = .ok log.lastIndex
  term : ∀ i, log.base ≤ i → i ≤ log.lastIndex
    → ∃ t, log.term? i = some t ∧ s.term i = .ok (.ok t)
  termCompacted : ∀ i < log.base, s.term i = .ok (.error .errCompacted)
  termUnavailable : ∀ i, log.lastIndex < i → i < 2 ^ 63 → s.term i = .ok (.error .errUnavailable)
  entries : ∀ lo hi maxSize, log.base < lo → lo < hi → hi ≤ log.lastIndex + 1
    → s.entries lo hi maxSize = .ok (.ok (limitSize (log.between lo hi) maxSize))
  entriesCompacted : ∀ lo hi maxSize, lo ≤ log.base
    → s.entries lo hi maxSize = .ok (.error .errCompacted)
  /-- An append panics exactly if it would leave a gap. -/
  append : ∀ es, (StorageOp.append es).InRange
    → ((∃ p, s.append es = .error p) ↔ ∃ e ∈ es.head?, log.lastIndex + 1 < e.index)
  call : ∀ op : StorageOp, op.InRange → ∀ s', s.call op = .ok (s', none) → s'.log = log.after op
  error : ∀ op : StorageOp, op.InRange → ∀ s' err, s.call op = .ok (s', some err) → s' = s

/-- The term of an entry that is there, or of the last one that is gone. -/
theorem term?_layout (ms : MemoryStorage) {i : Nat} (above : ms.dummy.index ≤ i)
    {e : Entry} (found : (ms.dummy :: ms.ents)[i - ms.dummy.index]? = some e)
    : ms.log.term? i = some e.term := by
  unfold LogicalLog.term? LogicalLog.entry?
  show (if i = ms.dummy.index then some ms.dummy.term
    else (if i ≤ ms.dummy.index then none else ms.ents[i - ms.dummy.index - 1]?).map Entry.term) = _
  by_cases same : i = ms.dummy.index
  · subst same
    rw [Nat.sub_self, List.getElem?_cons_zero] at found
    cases found
    rw [if_pos rfl]
  · rw [show i - ms.dummy.index = i - ms.dummy.index - 1 + 1 by omega, List.getElem?_cons_succ]
      at found
    rw [if_neg same, if_neg (by omega), found]
    rfl

theorem Sound.isLog [Codec] {s : SliceStorage} (sound : s.Sound) : s.IsLog s.log := by
  have calls {op : StorageOp} (inRange : op.InRange) := sound.call inRange
  obtain ⟨ms, fits, rfl⟩ := sound
  refine {
    slots := ⟨ms.dummy, rfl, rfl, rfl⟩
    contiguous := ?_
    firstIndex := fits.layout_firstIndex
    lastIndex := fits.layout_lastIndex
    term := ?_
    termCompacted := ?_
    termUnavailable := ?_
    entries := ?_
    entriesCompacted := ?_
    append := ?_
    call := fun op inRange s' done => ((calls inRange).result done).2
    error := fun op inRange s' err done => (calls inRange).result done }
  all_goals rw [show ms.layout.log = ms.log from rfl]
  · intro k e found
    cases k with
    | zero =>
        cases found
        rfl
    | succ k =>
        rw [fits.consecutive.key_eq found]
        show ms.dummy.index + 1 + k = ms.dummy.index + (k + 1)
        omega
  · intro i above inside
    have bound := fits.bound
    have above : ms.dummy.index ≤ i := above
    have inside : i ≤ ms.dummy.index + ms.ents.length := inside
    obtain ⟨e, found⟩ : ∃ e, (ms.dummy :: ms.ents)[i - ms.dummy.index]? = some e :=
      ⟨_, List.getElem?_eq_getElem (by rw [List.length_cons]; omega)⟩
    refine ⟨e.term, term?_layout ms above found, ?_⟩
    unfold MemoryStorage.lastIndex at bound
    rw [ms.layout_term (by omega), MemoryStorage.term, if_neg (by omega), found]
    rfl
  · intro i below
    have below : i < ms.dummy.index := below
    have bound := fits.bound
    unfold MemoryStorage.lastIndex at bound
    rw [ms.layout_term (by omega), MemoryStorage.term, if_pos below]
    rfl
  · intro i beyond small
    have beyond : ms.dummy.index + ms.ents.length < i := beyond
    have none : (ms.dummy :: ms.ents)[i - ms.dummy.index]? = none := by
      rw [List.getElem?_eq_none_iff, List.length_cons]
      omega
    rw [ms.layout_term small, MemoryStorage.term, if_neg (by omega), none]
    rfl
  · intro lo hi maxSize above nonempty inside
    have above : ms.dummy.index < lo := above
    have inside : hi ≤ ms.dummy.index + ms.ents.length + 1 := inside
    rw [fits.layout_entries, MemoryStorage.entries, if_neg (by omega),
      if_neg (by unfold MemoryStorage.lastIndex; omega), if_neg (by omega), if_neg (by omega)]
    have part := fits.consecutive.filter_between lo hi above
    rw [Nat.sub_sub]
    exact congrArg (fun part => Except.ok (Except.ok (limitSize part maxSize))) part.symm
  · intro lo hi maxSize compacted
    have compacted : lo ≤ ms.dummy.index := compacted
    rw [fits.layout_entries, MemoryStorage.entries, if_pos compacted]
    rfl
  · intro es inRange
    cases es with
    | nil =>
        constructor
        · rintro ⟨p, fails⟩
          cases fails
        · rintro ⟨e, none, _⟩
          cases none
    | cons e rest =>
        obtain ⟨consecutive, small⟩ := inRange.length_le
        rw [fits.layout_append consecutive small]
        have fails : (∃ p, (ms.append (e :: rest)).map MemoryStorage.layout = .error p)
            ↔ ∃ p, ms.append (e :: rest) = .error p := by
          cases ms.append (e :: rest) <;> simp [Except.map]
        rw [fails, ms.append_error_iff]
        refine ⟨fun gap => ⟨e, rfl, gap⟩, ?_⟩
        rintro ⟨_, same, gap⟩
        cases same
        exact gap

/-- Every sequence of calls that does not panic leaves a log. -/
theorem calls_isLog [Codec] {ops : List StorageOp} {s : SliceStorage}
    (inRange : ∀ op ∈ ops, op.InRange) (done : newMemoryStorage.calls ops = .ok s)
    : s.IsLog s.log :=
  (sound_new.calls inRange done).isLog

-----------------------------------------------------------------------------------------
-- Snapshots of any storage
-----------------------------------------------------------------------------------------

end SliceStorage

/-- The indexes of a call are 64-bit values. -/
def StorageOp.Typed : StorageOp → Prop
  | .append es => ∀ e ∈ es, e.index < 2 ^ 64
  | .compact i => i < 2 ^ 64
  | .createSnapshot i _ _ => i < 2 ^ 64
  | .applySnapshot snap => snap.metadata.index < 2 ^ 64

instance (op : StorageOp) : Decidable op.Typed := by
  cases op <;> unfold StorageOp.Typed <;> infer_instance

namespace SliceStorage

/-- There is a first slot, and the indexes are 64-bit values. -/
structure Typed (s : SliceStorage) : Prop where
  nonempty : s.ents ≠ []
  small : ∀ e ∈ s.ents, e.index < 2 ^ 64

theorem mem_of_index {ents : List Entry} {i : Nat} {e : Entry}
    (found : index ents i = .ok e)
    : e ∈ ents := by
  unfold index at found
  split at found
  · cases found
  · rename_i at_
    cases found
    exact List.mem_of_getElem? at_

theorem typed_appendNew {s s' : SliceStorage} (typed : s.Typed) {es : List Entry}
    (small : ∀ e ∈ es, e.index < 2 ^ 64) (done : s.appendNew es = .ok s')
    : s'.Typed := by
  obtain ⟨e, first, done⟩ := except_bind_eq_ok.mp done
  obtain ⟨start, _, done⟩ := except_bind_eq_ok.mp done
  have some_ : es ≠ [] := List.ne_nil_of_mem (mem_of_index first)
  dsimp only at done
  split at done
  · cases done
    refine ⟨List.append_ne_nil_of_right_ne_nil _ some_, fun e member => ?_⟩
    rcases List.mem_append.mp member with old | new
    · exact typed.small e (List.mem_of_mem_take old)
    · exact small e new
  split at done
  · cases done
    refine ⟨List.append_ne_nil_of_right_ne_nil _ some_, fun e member => ?_⟩
    exact (List.mem_append.mp member).elim (typed.small e) (small e)
  · obtain ⟨_, _, done⟩ := except_bind_eq_ok.mp done
    cases done

theorem typed_append {s s' : SliceStorage} (typed : s.Typed) {es : List Entry}
    (small : ∀ e ∈ es, e.index < 2 ^ 64) (done : s.append es = .ok s')
    : s'.Typed := by
  cases es with
  | nil =>
      cases done
      exact typed
  | cons e rest =>
      obtain ⟨first, _, done⟩ := except_bind_eq_ok.mp done
      dsimp only at done
      split at done
      · cases done
        exact typed
      split at done
      · obtain ⟨kept, cut, done⟩ := except_bind_eq_ok.mp done
        refine typed_appendNew typed (fun e' member => small e' ?_) done
        unfold sliceFrom at cut
        split at cut
        · cases cut
          exact List.mem_of_mem_drop member
        · cases cut
      · exact typed_appendNew typed small done

theorem typed_compact {s s' : SliceStorage} (typed : s.Typed) {i : Nat}
    {err : Option StorageError} (done : s.compact i = .ok (s', err))
    : s'.Typed := by
  obtain ⟨start, _, done⟩ := except_bind_eq_ok.mp done
  split at done
  · cases done
    exact typed
  obtain ⟨last, _, done⟩ := except_bind_eq_ok.mp done
  split at done
  · cases done
  obtain ⟨e, found, done⟩ := except_bind_eq_ok.mp done
  obtain ⟨rest, cut, done⟩ := except_bind_eq_ok.mp done
  cases done
  refine ⟨List.cons_ne_nil _ _, List.forall_mem_cons.mpr ⟨typed.small e (mem_of_index found), ?_⟩⟩
  unfold sliceFrom at cut
  split at cut
  · cases cut
    exact fun e member => typed.small e (List.mem_of_mem_drop member)
  · cases cut

/-- No call leaves an empty slice. -/
theorem Typed.call {s s' : SliceStorage} (typed : s.Typed) {op : StorageOp}
    (small : op.Typed) {err : Option StorageError} (done : s.call op = .ok (s', err))
    : s'.Typed := by
  cases op with
  | append es =>
      obtain ⟨_, written, same⟩ := except_bind_eq_ok.mp done
      cases same
      exact typed_append typed small written
  | compact i => exact typed_compact typed done
  | createSnapshot i cs data =>
      obtain ⟨⟨s₁, answer⟩, created, same⟩ := except_bind_eq_ok.mp done
      have kept : s₁.ents = s.ents := by
        unfold createSnapshot at created
        split at created
        · cases created
          rfl
        obtain ⟨start, _, created⟩ := except_bind_eq_ok.mp created
        obtain ⟨last, _, created⟩ := except_bind_eq_ok.mp created
        split at created
        · cases created
        obtain ⟨e, _, created⟩ := except_bind_eq_ok.mp created
        cases created
        rfl
      have storage : s' = s₁ := by
        cases answer <;> cases same <;> rfl
      rw [storage]
      exact ⟨kept ▸ typed.nonempty, kept ▸ typed.small⟩
  | applySnapshot snap =>
      have applied : s.applySnapshot snap = (s', err) := Except.ok.inj done
      unfold applySnapshot at applied
      dsimp only at applied
      split at applied <;> cases applied
      · exact typed
      · exact ⟨List.cons_ne_nil _ _, List.forall_mem_singleton.mpr small⟩

theorem Typed.calls {s s' : SliceStorage} (typed : s.Typed) {ops : List StorageOp}
    (small : ∀ op ∈ ops, op.Typed) (done : s.calls ops = .ok s')
    : s'.Typed := by
  induction ops generalizing s with
  | nil =>
      cases done
      exact typed
  | cons op rest ih =>
      obtain ⟨⟨s₁, err⟩, called, done⟩ := except_bind_eq_ok.mp done
      obtain ⟨first, later⟩ := List.forall_mem_cons.mp small
      exact ih (typed.call first called) later done

/-- `CreateSnapshot` returns an error and leaves the storage as it is, or a snapshot with
the index and the term of the entry in its slot.
-/
def Snapshots (s : SliceStorage) (i : Nat) (cs : Option ConfState) (data : List Entry) : Prop :=
  match s.createSnapshot i cs data with
  | .error _ => False
  | .ok (s', .error _) => s' = s
  | .ok (_, .ok snap) =>
      snap.metadata.index = i
        ∧ ∃ e, s.ents[sub64 i s.log.base]? = some e ∧ snap.metadata.term = e.term

/-- The slot of an index up to the last one exists unless the index is compacted. The
indexes may wrap around, and then all of them have slots.
-/
theorem slot_iff {start count i : Nat} (small : start < 2 ^ 64) (short : count < 2 ^ 63)
    (inside : i ≤ sub64 (add64 start (count + 1)) 1)
    : sub64 i start < count + 1
      ↔ start ≤ i ∨ sub64 (add64 start (count + 1)) 1 < start := by
  have last : sub64 (add64 start (count + 1)) 1 = (start + count) % 2 ^ 64 := by
    unfold sub64 add64
    split <;> omega
  rw [last] at inside ⊢
  unfold sub64
  split <;> omega

/-- `CreateSnapshot` up to the last index works exactly if the index is not compacted, or
covered by the last snapshot.
-/
theorem createSnapshot_iff {ops : List StorageOp} {s : SliceStorage}
    (typed : ∀ op ∈ ops, op.Typed)
    (done : newMemoryStorage.calls ops = .ok s) (short : s.ents.length ≤ 2 ^ 63)
    {last i : Nat}
    (lastIndex : s.lastIndex = .ok last) (inside : i ≤ last) (cs : Option ConfState)
    (data : List Entry)
    : s.Snapshots i cs data
      ↔ i ≤ s.snapshot.metadata.index ∨ s.log.base ≤ i ∨ last < s.log.base := by
  have typed := Typed.calls ⟨List.cons_ne_nil _ _, by decide⟩ typed done
  obtain ⟨snapshot, ents⟩ := s
  obtain ⟨dummy, rest, rfl⟩ := List.exists_cons_of_ne_nil typed.nonempty
  have small := typed.small dummy List.mem_cons_self
  cases lastIndex
  have inside : i ≤ sub64 (add64 dummy.index (rest.length + 1)) 1 := inside
  have slot := slot_iff small (by rw [List.length_cons] at short; omega) inside
  unfold Snapshots createSnapshot
  by_cases outOfDate : i ≤ snapshot.metadata.index
  · rw [if_pos outOfDate]
    exact ⟨fun _ => .inl outOfDate, fun _ => rfl⟩
  rw [if_neg outOfDate]
  have answer : ({ snapshot := snapshot, ents := dummy :: rest } : SliceStorage).lastIndex
      = .ok (sub64 (add64 dummy.index (rest.length + 1)) 1) := rfl
  rw [show ({ snapshot := snapshot, ents := dummy :: rest } : SliceStorage).offset = .ok dummy.index
    from rfl, answer]
  simp only [except_ok_bind]
  rw [if_neg (Nat.not_lt.mpr inside), index]
  cases found : (dummy :: rest)[sub64 i dummy.index]? with
  | none =>
      have missing : ¬sub64 i dummy.index < rest.length + 1 :=
        Nat.not_lt.mpr (List.getElem?_eq_none_iff.mp found)
      exact ⟨False.elim, fun holds => absurd (holds.resolve_left outOfDate) (slot.not.mp missing)⟩
  | some e =>
      have held : sub64 i dummy.index < rest.length + 1 :=
        (List.getElem?_eq_some_iff.mp found).1
      exact ⟨fun _ => .inr (slot.mp held), fun _ => ⟨rfl, e, found, rfl⟩⟩

end SliceStorage

-----------------------------------------------------------------------------------------
-- A storage that has been compacted
-----------------------------------------------------------------------------------------

attribute [local instance] Codec.wire

/-- Three entries, of which the second one is replaced and the first ones are compacted
then.
-/
def compacting : List StorageOp := [
  .append [{ term := 1, index := 1 }, { term := 1, index := 2 }, { term := 1, index := 3 }],
  .append [{ term := 2, index := 2 }, { term := 2, index := 3 }],
  .compact 2]

theorem calls_isLog_compacting
    : ∃ s, newMemoryStorage.calls compacting = .ok s ∧ s.log.base = 2 ∧ s.log.baseTerm = 2
      ∧ s.IsLog s.log :=
  ⟨_, rfl, rfl, rfl, @SliceStorage.calls_isLog _ compacting _ (by decide) rfl⟩

/-- Entries that are compacted already do not cut the log, although it has entries after
them.
-/
theorem append_compacted
    : let es : List Entry := [{ term := 1, index := 1 }, { term := 1, index := 2 }]
      ∃ s, newMemoryStorage.calls compacting = .ok s ∧ (StorageOp.append es).InRange
        ∧ s.call (.append es) = .ok (s, none) ∧ s.log.entries = [{ term := 2, index := 3 }]
        ∧ (s.log.replaceFrom es).entries = [] := by
  exact ⟨_, rfl, by decide, rfl, rfl, by decide⟩

theorem createSnapshot_iff_compacting
    : ∃ s, newMemoryStorage.calls compacting = .ok s ∧ s.Snapshots 2 none [] := by
  refine ⟨_, rfl, ?_⟩
  exact (@SliceStorage.createSnapshot_iff compacting _ (by decide) rfl (by decide) _ 2 rfl
    (by decide) none []).mpr (.inr (.inl (by decide)))

/-- There is no snapshot of the first entry although the last snapshot does not cover it.
-/
theorem createSnapshot_compacted
    : (∀ op ∈ compacting, op.Typed)
      ∧ ∃ s, newMemoryStorage.calls compacting = .ok s ∧ s.snapshot.metadata.index = 0
        ∧ s.lastIndex = .ok 3 ∧ s.createSnapshot 1 none [] = .error .runtimeError
        ∧ ¬s.Snapshots 1 none [] :=
  ⟨by decide, _, rfl, rfl, rfl, rfl, id⟩

end EtcdRaft
