import Mathlib.Data.List.Basic

/-! Queues in ring buffers. The positions wrap at `size`, while the buffer itself may
still be shorter: slots are added only when a position beyond its end is written.
-/

namespace EtcdRaft

variable {α : Type}

-----------------------------------------------------------------------------------------
-- Positions
-----------------------------------------------------------------------------------------

/-- The position `k` slots after `start`, at most one turn later. -/
def ringIndex (size start k : Nat) : Nat :=
  if start + k ≥ size then start + k - size else start + k

theorem ringIndex_lt {size start k : Nat} (inside : start < size) (turn : k ≤ size)
    : ringIndex size start k < size := by
  unfold ringIndex
  split <;> omega

theorem ringIndex_zero {size start : Nat} (inside : start < size)
    : ringIndex size start 0 = start := by
  unfold ringIndex
  split <;> omega

/-- Going on from a later position. -/
theorem ringIndex_ringIndex {size start j k : Nat} (turn : j + k < size)
    (inside : start < size)
    : ringIndex size (ringIndex size start j) k = ringIndex size start (j + k) := by
  unfold ringIndex
  split <;> split <;> split <;> omega

/-- The positions of one turn are distinct. -/
theorem ringIndex_inj {size start j k : Nat} (left : j < size) (right : k < size)
    (same : ringIndex size start j = ringIndex size start k)
    : j = k := by
  unfold ringIndex at same
  split at same <;> split at same <;> omega

-----------------------------------------------------------------------------------------
-- Queues
-----------------------------------------------------------------------------------------

/-- The elements in `count` slots from `start` on, in this order. -/
def ringContents (buffer : List α) (size start count : Nat) : List α :=
  (List.range count).filterMap fun k => buffer[ringIndex size start k]?

/-- The buffer holds the queue from position `start` on. A queue without elements starts
at the first slot; with the slots in use this bounds the position that is written next.
-/
structure Ring (buffer : List α) (size start : Nat) (queue : List α) : Prop where
  inside : start < size
  bounded : buffer.length ≤ size
  fits : queue.length ≤ size
  slots : ∀ k (used : k < queue.length), buffer[ringIndex size start k]? = some queue[k]
  rewound : queue = [] → start = 0

namespace Ring

variable {buffer : List α} {size start : Nat} {queue : List α}

theorem empty (buffer : List α) (positive : 0 < size) (bounded : buffer.length ≤ size)
    : Ring buffer size 0 [] where
  inside := positive
  bounded := bounded
  fits := Nat.zero_le _
  slots k used := absurd used (Nat.not_lt_zero k)
  rewound _ := rfl

theorem contents_take (ring : Ring buffer size start queue) {n : Nat}
    (used : n ≤ queue.length)
    : ringContents buffer size start n = queue.take n := by
  unfold ringContents
  induction n with
  | zero => rfl
  | succ n ih =>
      rw [List.range_succ, List.filterMap_append, ih (Nat.le_of_succ_le used),
        List.take_add_one, List.filterMap_cons, ring.slots n used,
        List.getElem?_eq_getElem used]
      rfl

/-- The queue can be read off the buffer. -/
theorem contents (ring : Ring buffer size start queue)
    : ringContents buffer size start queue.length = queue := by
  rw [ring.contents_take (Nat.le_refl _), List.take_length]

/-- A slot in use is inside the buffer. -/
theorem used_lt (ring : Ring buffer size start queue) {k : Nat} (used : k < queue.length)
    : ringIndex size start k < buffer.length :=
  (List.getElem?_eq_some_iff.mp (ring.slots k used)).1

theorem getElem?_start {m : α} {rest : List α} (ring : Ring buffer size start (m :: rest))
    : buffer[start]? = some m := by
  have first := ring.slots 0 (Nat.zero_lt_succ _)
  rwa [ringIndex_zero ring.inside] at first

/-- The position after the last element is inside the buffer or right at its end. -/
theorem next_le (ring : Ring buffer size start queue)
    : ringIndex size start queue.length ≤ buffer.length := by
  cases queue with
  | nil =>
      rw [ring.rewound rfl, List.length_nil, ringIndex_zero (ring.rewound rfl ▸ ring.inside)]
      exact Nat.zero_le _
  | cons m rest =>
      have inside := ring.inside
      have fits := ring.fits
      have last := ring.used_lt (k := rest.length) (by simp)
      have first := ring.used_lt (k := 0) (by simp)
      simp only [List.length_cons, ringIndex] at *
      split at last <;> split at first <;> split <;> omega

/-- More slots change nothing. -/
theorem grow (ring : Ring buffer size start queue) {added : List α}
    (bounded : (buffer ++ added).length ≤ size)
    : Ring (buffer ++ added) size start queue where
  inside := ring.inside
  bounded := bounded
  fits := ring.fits
  slots k used := by rw [List.getElem?_append_left (ring.used_lt used), ring.slots k used]
  rewound := ring.rewound

/-- Write an element after the last one. -/
theorem push (ring : Ring buffer size start queue) (m : α) (room : queue.length < size)
    (inside : ringIndex size start queue.length < buffer.length)
    : Ring (buffer.set (ringIndex size start queue.length) m) size start (queue ++ [m]) where
  inside := ring.inside
  bounded := by
    rw [List.length_set]
    exact ring.bounded
  fits := by
    rw [List.length_append]
    exact room
  slots k used := by
    rw [List.getElem?_set]
    by_cases last : k = queue.length
    · subst last
      simp [inside]
    · have used' : k < queue.length := by
        simp only [List.length_append, List.length_singleton] at used
        omega
      have differs : ringIndex size start queue.length ≠ ringIndex size start k :=
        fun same => last (ringIndex_inj room (by omega) same).symm
      rw [if_neg differs, ring.slots k used', List.getElem_append_left used']
  rewound none := by simp at none

/-- Drop elements at the front. -/
theorem drop (ring : Ring buffer size start queue) {n : Nat} (some_ : n < queue.length)
    : Ring buffer size (ringIndex size start n) (queue.drop n) where
  inside := ringIndex_lt ring.inside (by have := ring.fits; omega)
  bounded := ring.bounded
  fits := by
    have := ring.fits
    rw [List.length_drop]
    omega
  slots k used := by
    have fits := ring.fits
    rw [List.length_drop] at used
    rw [ringIndex_ringIndex (by omega) ring.inside, ring.slots (n + k) (by omega),
      List.getElem_drop]
  rewound none := by
    have := List.drop_eq_nil_iff.mp none
    omega

end Ring

end EtcdRaft
