import Mathlib.Data.Nat.Digits.Lemmas

/-! Decimal numerals as strings of bytes, printed without leading zeros and read with
them.
-/

namespace EtcdRaft

variable {n m : Nat} {s t : List UInt8}

/-- A decimal digit in ASCII. -/
def isDigit (c : UInt8) : Bool := decide (48 ≤ c.toNat ∧ c.toNat ≤ 57)

/-- The number that one gets by reading digits after those of `n`. -/
def readDigits (n : Nat) (s : List UInt8) : Nat := s.foldl (fun n c => n * 10 + (c.toNat - 48)) n

@[simp] theorem readDigits_nil : readDigits n [] = n := rfl

theorem readDigits_cons (c : UInt8)
    : readDigits n (c :: s) = readDigits (n * 10 + (c.toNat - 48)) s := by
  unfold readDigits
  rw [List.foldl_cons]

theorem readDigits_append : readDigits n (s ++ t) = readDigits (readDigits n s) t :=
  List.foldl_append

/-- More digits never make a number smaller. -/
theorem le_readDigits (n : Nat) (s : List UInt8) : n ≤ readDigits n s := by
  induction s generalizing n with
  | nil => exact Nat.le_refl n
  | cons c s ih =>
      rw [readDigits_cons]
      exact Nat.le_trans (by omega) (ih _)

/-- The numeral of a number. -/
def decimal (n : Nat) : List UInt8 :=
  if n = 0 then [48] else (Nat.digits 10 n).reverse.map fun d => UInt8.ofNat (48 + d)

theorem decimal_ne_nil (n : Nat) : decimal n ≠ [] := by
  unfold decimal
  split
  · exact List.cons_ne_nil _ _
  · rename_i positive
    simpa [Nat.digits_ne_nil_iff_ne_zero] using positive

theorem toNat_digit {d : Nat} (digit : d < 10)
    : (UInt8.ofNat (48 + d)).toNat = 48 + d := by
  rw [UInt8.toNat_ofNat', Nat.mod_eq_of_lt (by omega)]

theorem isDigit_of_mem_decimal {c : UInt8} (member : c ∈ decimal n)
    : isDigit c = true := by
  unfold decimal at member
  split at member
  · rw [List.mem_singleton.mp member]
    decide
  · obtain ⟨d, digit, rfl⟩ := List.mem_map.mp member
    have small := Nat.digits_lt_base (by decide) (List.mem_reverse.mp digit)
    unfold isDigit
    rw [toNat_digit small, decide_eq_true_iff]
    omega

/-- Digits, the least significant one first, are read from the other end. -/
theorem readDigits_map_reverse (digits : List Nat) (small : ∀ d ∈ digits, d < 10)
    : readDigits 0 (digits.reverse.map fun d => UInt8.ofNat (48 + d)) = Nat.ofDigits 10 digits := by
  induction digits with
  | nil => rfl
  | cons d digits ih =>
      obtain ⟨digit, rest⟩ := List.forall_mem_cons.mp small
      rw [List.reverse_cons, List.map_append, readDigits_append, ih rest, Nat.ofDigits_cons,
        List.map_singleton, readDigits_cons, readDigits_nil, toNat_digit digit]
      omega

/-- Reading a numeral gives the number. -/
theorem readDigits_decimal (n : Nat) : readDigits 0 (decimal n) = n := by
  unfold decimal
  split
  · rename_i zero
    rw [zero]
    rfl
  · rw [readDigits_map_reverse _ fun d => Nat.digits_lt_base (by decide), Nat.ofDigits_digits]

end EtcdRaft
