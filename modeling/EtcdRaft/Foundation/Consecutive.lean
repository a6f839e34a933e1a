import Mathlib.Data.List.Range

/-! Lists whose items have consecutive keys. Selecting items by their key is cutting the
list.
-/

namespace EtcdRaft

variable {α : Type} {key : α → Nat} {first n : Nat} {a : α} {l l' : List α}

/-- The keys of the items are `first`, `first + 1` and so on. -/
def ConsecutiveFrom (key : α → Nat) (first : Nat) (l : List α) : Prop :=
  l.map key = List.range' first l.length

instance (key : α → Nat) (first : Nat) (l : List α) : Decidable (ConsecutiveFrom key first l) :=
  inferInstanceAs (Decidable (_ = _))

namespace ConsecutiveFrom

@[simp] theorem nil : ConsecutiveFrom key first [] := rfl

theorem cons_iff
    : ConsecutiveFrom key first (a :: l)
      ↔ key a = first ∧ ConsecutiveFrom key (first + 1) l := by
  unfold ConsecutiveFrom
  rw [List.map_cons, List.length_cons, List.range'_succ, List.cons.injEq]

theorem append_iff
    : ConsecutiveFrom key first (l ++ l')
      ↔ ConsecutiveFrom key first l ∧ ConsecutiveFrom key (first + l.length) l' := by
  induction l generalizing first with
  | nil => simp
  | cons a l ih =>
      rw [List.cons_append, cons_iff, cons_iff, ih, and_assoc, List.length_cons,
        Nat.add_right_comm, Nat.add_assoc]

theorem key_eq (consecutive : ConsecutiveFrom key first l) (found : l[n]? = some a)
    : key a = first + n := by
  have keyed : (l.map key)[n]? = some (key a) := by rw [List.getElem?_map, found, Option.map_some]
  have inside := (List.getElem?_eq_some_iff.mp found).1
  rw [show l.map key = _ from consecutive, List.getElem?_range' inside, Nat.one_mul] at keyed
  exact (Option.some.inj keyed).symm

theorem take (consecutive : ConsecutiveFrom key first l) (n : Nat)
    : ConsecutiveFrom key first (l.take n) := by
  rw [← List.take_append_drop n l, append_iff] at consecutive
  exact consecutive.1

theorem drop (consecutive : ConsecutiveFrom key first l) (n : Nat)
    : ConsecutiveFrom key (first + n) (l.drop n) := by
  rw [← List.take_append_drop n l, append_iff] at consecutive
  rcases Nat.le_total n l.length with inside | beyond
  · rw [List.length_take, Nat.min_eq_left inside] at consecutive
    exact consecutive.2
  · rw [List.drop_of_length_le beyond]
    exact nil

/-- The items with smaller keys come first. -/
theorem filter_lt (consecutive : ConsecutiveFrom key first l) (n : Nat)
    : l.filter (fun a => decide (key a < n)) = l.take (n - first) := by
  induction l generalizing first with
  | nil => simp
  | cons a l ih =>
      obtain ⟨head, tail⟩ := cons_iff.mp consecutive
      rw [List.filter_cons, ih tail, head]
      by_cases below : first < n
      · rw [if_pos (by simpa using below), show n - first = n - (first + 1) + 1 by omega,
          List.take_succ_cons]
      · rw [if_neg (by simpa using below), Nat.sub_eq_zero_of_le (by omega),
          Nat.sub_eq_zero_of_le (by omega), List.take_zero, List.take_zero]

/-- The items with larger keys come last. -/
theorem filter_ge (consecutive : ConsecutiveFrom key first l) (n : Nat)
    : l.filter (fun a => decide (n ≤ key a)) = l.drop (n - first) := by
  induction l generalizing first with
  | nil => simp
  | cons a l ih =>
      obtain ⟨head, tail⟩ := cons_iff.mp consecutive
      rw [List.filter_cons, ih tail, head]
      by_cases below : first < n
      · rw [if_neg (by simpa using below), show n - first = n - (first + 1) + 1 by omega,
          List.drop_succ_cons]
      · rw [if_pos (by simpa using below), Nat.sub_eq_zero_of_le (by omega),
          Nat.sub_eq_zero_of_le (by omega), List.drop_zero, List.drop_zero]

/-- The items with keys in a range are a part of the list. -/
theorem filter_between (consecutive : ConsecutiveFrom key first l) (lo hi : Nat)
    (inside : first ≤ lo)
    : l.filter (fun a => decide (lo ≤ key a ∧ key a < hi))
      = (l.drop (lo - first)).take (hi - lo) := by
  have both : (fun a => decide (lo ≤ key a ∧ key a < hi))
      = fun a => decide (key a < hi) && decide (lo ≤ key a) := by
    funext a
    rw [Bool.decide_and, Bool.and_comm]
  rw [both, ← List.filter_filter, consecutive.filter_ge, (consecutive.drop _).filter_lt,
    Nat.add_sub_cancel' inside]

/-- A key is exceeded if the last one exceeds it. -/
theorem any_gt_iff (consecutive : ConsecutiveFrom key first (a :: l)) (n : Nat)
    : ((a :: l).any fun a' => decide (n < key a')) = true ↔ n < first + l.length := by
  rw [List.any_eq_true]
  constructor
  · rintro ⟨a', member, above⟩
    obtain ⟨k, found⟩ := List.mem_iff_getElem?.mp member
    have inside := (List.getElem?_eq_some_iff.mp found).1
    have above := of_decide_eq_true above
    rw [consecutive.key_eq found] at above
    rw [List.length_cons] at inside
    omega
  · intro above
    obtain ⟨a', found⟩ : ∃ a', (a :: l)[l.length]? = some a' :=
      ⟨_, List.getElem?_eq_getElem (Nat.lt_succ_self _)⟩
    refine ⟨a', List.mem_of_getElem? found, decide_eq_true ?_⟩
    rw [consecutive.key_eq found]
    exact above

end ConsecutiveFrom

end EtcdRaft
