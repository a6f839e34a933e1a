import EtcdRaft.Foundation.Outcome
import EtcdRaft.Foundation.Ring
import EtcdRaft.Model.Tracker

/-! The window of in-flight messages is a bounded queue. The messages are in the order of
their indexes, so freeing those up to an index frees a first part of the queue.
-/

namespace EtcdRaft

-----------------------------------------------------------------------------------------
-- The queue behind the ring buffer
-----------------------------------------------------------------------------------------

/-- The bytes of the queued messages. -/
def totalBytes (queue : List Inflight) : Nat := (queue.map Inflight.bytes).sum

theorem totalBytes_append (queue queue' : List Inflight)
    : totalBytes (queue ++ queue') = totalBytes queue + totalBytes queue' := by
  simp [totalBytes]

namespace Inflights

/-- The messages in the window, oldest first. -/
def contents (s : Inflights) : List Inflight := ringContents s.buffer s.size s.start s.count

/-- The window holds this queue of messages. -/
structure Holds (s : Inflights) (queue : List Inflight) : Prop where
  ring : Ring s.buffer s.size s.start queue
  count : s.count = queue.length
  bytes : s.bytes = totalBytes queue
  ordered : queue.Pairwise fun m m' => m.index < m'.index

theorem Holds.contents {s : Inflights} {queue : List Inflight} (holds : s.Holds queue)
    : s.contents = queue := by
  rw [Inflights.contents, holds.count, holds.ring.contents]

theorem holds_new {size : Nat} (positive : 0 < size) (maxBytes : Nat)
    : (newInflights size maxBytes).Holds [] where
  ring := Ring.empty [] positive (Nat.zero_le _)
  count := rfl
  bytes := rfl
  ordered := .nil

theorem Holds.reset {s : Inflights} {queue : List Inflight} (holds : s.Holds queue)
    : s.reset.Holds [] where
  ring := Ring.empty s.buffer (Nat.zero_lt_of_lt holds.ring.inside) holds.ring.bounded
  count := rfl
  bytes := rfl
  ordered := .nil

-----------------------------------------------------------------------------------------
-- Adding
-----------------------------------------------------------------------------------------

theorem Holds.not_full {s : Inflights} {queue : List Inflight} (holds : s.Holds queue)
    (room : s.full = false)
    : queue.length < s.size := by
  have fits := holds.ring.fits
  have differs : s.count ≠ s.size := by
    intro same
    simp [full, same] at room
  rw [holds.count] at differs
  omega

/-- The larger buffer, as slots added to the present one. -/
theorem grow_eq {s : Inflights} (more : s.buffer.length < s.size)
    : ∃ added, s.grow = { s with buffer := s.buffer ++ added }
      ∧ 0 < added.length ∧ (s.buffer ++ added).length ≤ s.size := by
  unfold grow
  dsimp only
  generalize newSize : (if s.buffer.length * 2 = 0 then 1
    else if s.buffer.length * 2 > s.size then s.size else s.buffer.length * 2) = n
  have larger : s.buffer.length < n ∧ n ≤ s.size := by
    rw [← newSize]
    split <;> (try split) <;> omega
  refine ⟨List.replicate (n - s.buffer.length) {}, ?_, ?_, ?_⟩
  · rw [List.take_of_length_le (Nat.le_of_lt larger.1)]
  · rw [List.length_replicate]
    omega
  · rw [List.length_append, List.length_replicate]
    omega

/-- `Add` on a window that is not full queues the message. -/
theorem Holds.add {s : Inflights} {queue : List Inflight} (holds : s.Holds queue)
    {index : Nat} (bytes : Nat) (room : s.full = false)
    (later : ∀ m ∈ queue, m.index < index)
    : ∃ s', s.add index bytes = .ok s' ∧ s'.Holds (queue ++ [⟨index, bytes⟩])
      ∧ s'.size = s.size ∧ s'.maxBytes = s.maxBytes := by
  have few := holds.not_full room
  have next : (if s.start + s.count ≥ s.size then s.start + s.count - s.size
      else s.start + s.count) = ringIndex s.size s.start queue.length := by
    rw [holds.count]
    rfl
  have written : ∀ {buffer : List Inflight}, Ring buffer s.size s.start queue
      → ringIndex s.size s.start queue.length < buffer.length
      → Holds { s with
          buffer := buffer.set (ringIndex s.size s.start queue.length) { index, bytes }
          count := s.count + 1
          bytes := s.bytes + bytes } (queue ++ [⟨index, bytes⟩]) := by
    intro buffer ring inside
    refine ⟨ring.push _ few inside, ?_, ?_, ?_⟩
    · simp [holds.count]
    · simp [holds.bytes, totalBytes]
    · refine List.pairwise_append.mpr ⟨holds.ordered, List.pairwise_singleton _ _, ?_⟩
      intro m member m' last
      rw [List.mem_singleton.mp last]
      exact later m member
  unfold Inflights.add
  simp only [room, Bool.false_eq_true, ↓reduceIte, next]
  by_cases atEnd : ringIndex s.size s.start queue.length ≥ s.buffer.length
  · have bound := ringIndex_lt holds.ring.inside (Nat.le_of_lt few)
    have reached := holds.ring.next_le
    obtain ⟨added, grown, some_, bounded⟩ := grow_eq (s := s) (by omega)
    have inside : ringIndex s.size s.start queue.length < (s.buffer ++ added).length := by
      rw [List.length_append]
      omega
    simp only [atEnd, ↓reduceIte, grown, inside]
    exact ⟨_, rfl, written (holds.ring.grow bounded) inside, rfl, rfl⟩
  · have inside : ringIndex s.size s.start queue.length < s.buffer.length := by omega
    simp only [atEnd, ↓reduceIte, inside]
    exact ⟨_, rfl, written holds.ring inside, rfl, rfl⟩

-----------------------------------------------------------------------------------------
-- Freeing
-----------------------------------------------------------------------------------------

/-- The messages that `FreeLE` frees, from the front of the queue. -/
def freed (to_ : Nat) (queue : List Inflight) : List Inflight :=
  queue.takeWhile fun m => decide (m.index ≤ to_)

/-- In a queue ordered by index the messages up to an index come first. -/
theorem drop_freed {to_ : Nat} {queue : List Inflight}
    (ordered : queue.Pairwise fun m m' => m.index < m'.index)
    : queue.drop (freed to_ queue).length = queue.filter fun m => decide (to_ < m.index) := by
  induction queue with
  | nil => rfl
  | cons m rest ih =>
      obtain ⟨above, tail⟩ := List.pairwise_cons.mp ordered
      by_cases low : m.index ≤ to_
      · have high : ¬ to_ < m.index := Nat.not_lt.mpr low
        rw [freed, List.takeWhile_cons_of_pos (by simpa using low), List.length_cons,
          List.drop_succ_cons, List.filter_cons_of_neg (by simpa using high)]
        exact ih tail
      · rw [freed, List.takeWhile_cons_of_neg (by simpa using low), List.length_nil,
          List.drop_zero]
        refine (List.filter_eq_self.mpr ?_).symm
        intro m' member
        rcases List.mem_cons.mp member with same | later
        · simp only [same, decide_eq_true_eq]
          omega
        · have := above m' later
          simp only [decide_eq_true_eq]
          omega

/-- The loop of `FreeLE` stops at the first message that stays. -/
theorem freeLELoop_eq {s : Inflights} {idx : Nat} {queue : List Inflight} (to_ : Nat)
    (inside : idx < s.size) (fits : queue.length ≤ s.size)
    (slots : ∀ k (used : k < queue.length), s.buffer[ringIndex s.size idx k]? = some queue[k])
    (i bytes : Nat)
    : ∃ last, s.freeLELoop to_ queue.length idx i bytes
        = .ok (last, i + (freed to_ queue).length, bytes + totalBytes (freed to_ queue))
      ∧ ((freed to_ queue).length < queue.length
        → last = ringIndex s.size idx (freed to_ queue).length) := by
  induction queue generalizing idx i bytes with
  | nil => exact ⟨idx, rfl, fun some_ => absurd some_ (Nat.not_lt_zero _)⟩
  | cons m rest ih =>
      have first := slots 0 (Nat.zero_lt_succ _)
      rw [ringIndex_zero inside] at first
      simp only [List.length_cons] at fits
      rw [List.length_cons, freeLELoop]
      simp only [first, List.getElem_cons_zero]
      by_cases stays : to_ < m.index
      · have none : freed to_ (m :: rest) = [] :=
          List.takeWhile_cons_of_neg (by simpa using stays)
        simp only [stays, ↓reduceIte, none]
        exact ⟨idx, rfl, fun _ => (ringIndex_zero inside).symm⟩
      · have one : freed to_ (m :: rest) = m :: freed to_ rest :=
          List.takeWhile_cons_of_pos (by simpa using stays)
        have slots' : ∀ k (used : k < rest.length),
            s.buffer[ringIndex s.size (ringIndex s.size idx 1) k]? = some rest[k] := by
          intro k used
          rw [ringIndex_ringIndex (by omega) inside, Nat.add_comm 1 k]
          exact slots (k + 1) (Nat.succ_lt_succ used)
        obtain ⟨last, done, stopped⟩ := ih (ringIndex_lt inside (by omega)) (by omega) slots'
          (i + 1) (bytes + m.bytes)
        have next : (if idx + 1 ≥ s.size then idx + 1 - s.size else idx + 1)
            = ringIndex s.size idx 1 := rfl
        simp only [stays, ↓reduceIte, next, done, one]
        refine ⟨last, ?_, fun some_ => ?_⟩
        · simp only [List.length_cons, totalBytes, List.map_cons, List.sum_cons]
          congr 3 <;> omega
        · rw [List.length_cons] at some_ ⊢
          rw [stopped (by omega), ringIndex_ringIndex (by omega) inside, Nat.add_comm]

/-- `FreeLE` frees exactly the messages up to the index. -/
theorem Holds.freeLE {s : Inflights} {queue : List Inflight} (holds : s.Holds queue)
    (to_ : Nat)
    : ∃ s', s.freeLE to_ = .ok s'
      ∧ s'.Holds (queue.filter fun m => decide (to_ < m.index))
      ∧ s'.size = s.size ∧ s'.maxBytes = s.maxBytes := by
  rw [← drop_freed holds.ordered]
  have left : freed to_ queue ++ queue.drop (freed to_ queue).length = queue :=
    List.prefix_iff_eq_append.mp (List.takeWhile_prefix _)
  have total := congrArg totalBytes left
  rw [totalBytes_append] at total
  have sorted : (queue.drop (freed to_ queue).length).Pairwise fun m m' => m.index < m'.index :=
    holds.ordered.sublist (List.drop_sublist _ _)
  unfold Inflights.freeLE
  cases queue with
  | nil =>
      simp only [holds.count, List.length_nil, ↓reduceIte]
      exact ⟨s, rfl, holds, rfl, rfl⟩
  | cons m rest =>
      have some_ : ¬ s.count = 0 := by simp [holds.count]
      simp only [some_, ↓reduceIte, holds.ring.getElem?_start]
      by_cases stays : to_ < m.index
      · have none : freed to_ (m :: rest) = [] :=
          List.takeWhile_cons_of_neg (by simpa using stays)
        simp only [stays, ↓reduceIte, none]
        exact ⟨s, rfl, holds, rfl, rfl⟩
      · obtain ⟨last, done, stopped⟩ := freeLELoop_eq to_ holds.ring.inside
          holds.ring.fits holds.ring.slots 0 0
        rw [← holds.count] at done stopped
        simp only [Nat.zero_add] at done
        simp only [stays, ↓reduceIte, done]
        refine ⟨_, rfl, ⟨?_, ?_, ?_, sorted⟩, rfl, rfl⟩
        · dsimp only
          by_cases all : (freed to_ (m :: rest)).length < s.count
          · rw [if_neg (by omega), stopped all]
            exact holds.ring.drop (holds.count ▸ all)
          · rw [if_pos (by omega), List.drop_eq_nil_iff.mpr (by rw [← holds.count]; omega)]
            exact Ring.empty _ (Nat.zero_lt_of_lt holds.ring.inside) holds.ring.bounded
        · simp only [List.length_drop, holds.count]
        · dsimp only
          rw [holds.bytes, sub64, if_pos (by omega)]
          omega

-----------------------------------------------------------------------------------------
-- Windows of any size
-----------------------------------------------------------------------------------------

/-- A window of any size, which holds a queue of messages or has no room for one. -/
structure Carries (s : Inflights) (queue : List Inflight) : Prop where
  holds : s.size ≠ 0 → s.Holds queue
  none : s.size = 0 → s.count = 0 ∧ queue = []

namespace Carries

variable {s : Inflights} {queue : List Inflight}

theorem ordered (carries : s.Carries queue)
    : queue.Pairwise fun m m' => m.index < m'.index := by
  by_cases some_ : s.size = 0
  · rw [(carries.none some_).2]
    exact .nil
  · exact (carries.holds some_).ordered

theorem count (carries : s.Carries queue) : s.count = queue.length := by
  by_cases some_ : s.size = 0
  · obtain ⟨count, empty⟩ := carries.none some_
    rw [count, empty]
    rfl
  · exact (carries.holds some_).count

theorem contents (carries : s.Carries queue) : s.contents = queue := by
  by_cases some_ : s.size = 0
  · obtain ⟨count, empty⟩ := carries.none some_
    rw [Inflights.contents, count, empty]
    rfl
  · exact (carries.holds some_).contents

theorem reset (carries : s.Carries queue) : s.reset.Carries [] where
  holds := fun some_ => (carries.holds some_).reset
  none := fun _ => ⟨rfl, rfl⟩

/-- There is room in a window that is not full. -/
theorem add {index : Nat} (bytes : Nat) (carries : s.Carries queue)
    (room : s.full = false)
    (later : ∀ m ∈ queue, m.index < index)
    : ∃ s', s.add index bytes = .ok s' ∧ s'.Carries (queue ++ [⟨index, bytes⟩]) := by
  have some_ : s.size ≠ 0 := by
    intro zero
    have count := (carries.none zero).1
    simp [full, zero, count] at room
  obtain ⟨s', added, holds, size, _⟩ := (carries.holds some_).add bytes room later
  exact ⟨s', added, fun _ => holds, fun zero => absurd (size.symm.trans zero) some_⟩

theorem freeLE (carries : s.Carries queue) (to_ : Nat)
    : ∃ s', s.freeLE to_ = .ok s'
      ∧ s'.Carries (queue.filter fun m => decide (to_ < m.index)) := by
  by_cases some_ : s.size = 0
  · obtain ⟨count, empty⟩ := carries.none some_
    refine ⟨s, ?_, fun more => absurd some_ more, fun _ => ⟨count, ?_⟩⟩
    · unfold Inflights.freeLE
      rw [if_pos count]
      rfl
    · rw [empty]
      rfl
  · obtain ⟨s', freed, holds, size, _⟩ := (carries.holds some_).freeLE to_
    exact ⟨s', freed, fun _ => holds, fun zero => absurd (size.symm.trans zero) some_⟩

end Carries

theorem carries_new (size maxBytes : Nat) : (newInflights size maxBytes).Carries [] where
  holds := fun some_ => holds_new (Nat.pos_of_ne_zero some_) maxBytes
  none := fun _ => ⟨rfl, rfl⟩

-----------------------------------------------------------------------------------------
-- Sequences of operations
-----------------------------------------------------------------------------------------

inductive Op where
  | add (index bytes : Nat)
  | freeLE (to_ : Nat)
  | reset
  | clone

def apply (s : Inflights) : Op → Result Inflights
  | .add index bytes => s.add index bytes
  | .freeLE to_ => s.freeLE to_
  | .reset => return s.reset
  | .clone => return s.clone

def applyAll (s : Inflights) (ops : List Op) : Result Inflights := ops.foldlM apply s

/-- What an operation is for: the queue of added messages that are not freed yet. -/
def Op.queue (queue : List Inflight) : Op → List Inflight
  | .add index bytes => queue ++ [{ index, bytes }]
  | .freeLE to_ => queue.filter fun m => decide (to_ < m.index)
  | .reset => []
  | .clone => queue

/-- `Add` is called only when the window is not full, with an index beyond the queued ones
and a number of bytes that the counter can hold.
-/
def Permits (s : Inflights) (queue : List Inflight) : Op → Prop
  | .add index bytes =>
      s.full = false ∧ (∀ m ∈ queue, m.index < index) ∧ totalBytes queue + bytes < 2 ^ 64
  | _ => True

/-- Every operation of the sequence is permitted when it is applied. -/
def PermitsAll (s : Inflights) (queue : List Inflight) : List Op → Prop
  | [] => True
  | op :: rest =>
      s.Permits queue op
      ∧ match s.apply op with
        | .ok s' => s'.PermitsAll (op.queue queue) rest
        | .error _ => True

instance (s : Inflights) (queue : List Inflight) : (op : Op) → Decidable (s.Permits queue op)
  | .add index bytes => inferInstanceAs
      (Decidable (s.full = false ∧ (∀ m ∈ queue, m.index < index)
        ∧ totalBytes queue + bytes < 2 ^ 64))
  | .freeLE _ => isTrue trivial
  | .reset => isTrue trivial
  | .clone => isTrue trivial

instance decidablePermitsAll (s : Inflights) (queue : List Inflight)
    : (ops : List Op) → Decidable (s.PermitsAll queue ops)
  | [] => isTrue trivial
  | op :: rest =>
      match done : s.apply op with
      | .ok s' =>
          have := decidablePermitsAll s' (op.queue queue) rest
          decidable_of_iff (s.Permits queue op ∧ s'.PermitsAll (op.queue queue) rest)
            (by rw [PermitsAll, done])
      | .error _ => decidable_of_iff (s.Permits queue op) (by simp [PermitsAll, done])

/-- A permitted operation does to the window what it does to the queue. -/
theorem Holds.apply {s : Inflights} {queue : List Inflight} (holds : s.Holds queue)
    {op : Op} (permits : s.Permits queue op)
    : ∃ s', s.apply op = .ok s' ∧ s'.Holds (op.queue queue)
      ∧ s'.size = s.size ∧ s'.maxBytes = s.maxBytes := by
  cases op with
  | add index bytes => exact holds.add bytes permits.1 permits.2.1
  | freeLE to_ => exact holds.freeLE to_
  | reset => exact ⟨_, rfl, holds.reset, rfl, rfl⟩
  | clone => exact ⟨_, rfl, holds, rfl, rfl⟩

theorem Holds.applyAll {s : Inflights} {queue : List Inflight} (holds : s.Holds queue)
    {ops : List Op} (permits : s.PermitsAll queue ops)
    : ∃ s', s.applyAll ops = .ok s' ∧ s'.Holds (ops.foldl Op.queue queue)
      ∧ s'.size = s.size ∧ s'.maxBytes = s.maxBytes := by
  induction ops generalizing s queue with
  | nil => exact ⟨s, rfl, holds, rfl, rfl⟩
  | cons op rest ih =>
      obtain ⟨first, later⟩ := permits
      obtain ⟨s₁, done, holds₁, size₁, maxBytes₁⟩ := holds.apply first
      rw [done] at later
      obtain ⟨s', finished, holds', size', maxBytes'⟩ := ih holds₁ later
      refine ⟨s', ?_, holds', size'.trans size₁, maxBytes'.trans maxBytes₁⟩
      rw [Inflights.applyAll, List.foldlM_cons, done]
      exact finished

/-- `Inflights` is a bounded queue. After every permitted sequence of operations, none of
which leaves the range of the buffer, the ring holds the messages added and not freed,
oldest first, with their number and their bytes.
-/
theorem applyAll_newInflights {size : Nat} (maxBytes : Nat) {ops : List Op}
    (positive : 1 ≤ size) (permits : (newInflights size maxBytes).PermitsAll [] ops)
    : ∃ s, (newInflights size maxBytes).applyAll ops = .ok s
      ∧ s.contents = ops.foldl Op.queue []
      ∧ s.count = s.contents.length ∧ s.count ≤ size
      ∧ s.bytes = totalBytes s.contents
      ∧ (s.full = true ↔ s.count = size ∨ (maxBytes ≠ 0 ∧ maxBytes ≤ s.bytes)) := by
  obtain ⟨s, done, holds, sameSize, sameMax⟩ :=
    (holds_new positive maxBytes).applyAll permits
  have size_eq : s.size = size := sameSize
  have max_eq : s.maxBytes = maxBytes := sameMax
  refine ⟨s, done, holds.contents, ?_, ?_, ?_, ?_⟩
  · rw [holds.contents, holds.count]
  · rw [holds.count, ← size_eq]
    exact holds.ring.fits
  · rw [holds.contents, holds.bytes]
  · simp [full, size_eq, max_eq]

/-- Three slots, a message freed in between, so that the fourth one is written to the
first slot again, and a limit that the bytes of the last one reach.
-/
def wrapping : List Op :=
  [.add 1 5, .add 3 5, .freeLE 2, .clone, .add 4 5, .add 7 90, .freeLE 3]

theorem applyAll_wrapping
    : 1 ≤ 3 ∧ ∃ s, (newInflights 3 100).applyAll wrapping = .ok s
      ∧ s.contents = [⟨4, 5⟩, ⟨7, 90⟩] ∧ s.full = false := by
  obtain ⟨s, done, queue, count, _, bytes, full_iff⟩ :=
    @applyAll_newInflights 3 100 wrapping (by decide) (by decide)
  have contents : s.contents = [⟨4, 5⟩, ⟨7, 90⟩] := queue.trans (by decide)
  refine ⟨by decide, s, done, contents, ?_⟩
  rw [contents] at count bytes
  have free : ¬ (s.count = 3 ∨ (100 ≠ 0 ∧ 100 ≤ s.bytes)) := by
    rw [count, bytes]
    decide
  simpa using mt full_iff.mp free

end Inflights

end EtcdRaft
