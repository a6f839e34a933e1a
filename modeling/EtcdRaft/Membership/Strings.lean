import EtcdRaft.Model.ConfChangeStrings
import EtcdRaft.Foundation.Outcome

/-! The text form of configuration changes: parsing inverts printing, and what is parsed
has one letter and a number in every token.
-/

namespace EtcdRaft

-----------------------------------------------------------------------------------------
-- Numbers
-----------------------------------------------------------------------------------------

/-- The digits that are read stay in range if the number does. -/
theorem parseDigits_eq_ok_iff {n m : Nat} {s : List UInt8} (small : n < 2 ^ 64)
    : parseDigits n s = .ok m
      ↔ (∀ c ∈ s, isDigit c = true) ∧ readDigits n s = m ∧ m < 2 ^ 64 := by
  induction s generalizing n with
  | nil =>
      rw [parseDigits, readDigits_nil]
      constructor
      · rintro ⟨⟩
        exact ⟨nofun, rfl, small⟩
      · rintro ⟨_, rfl, _⟩
        rfl
  | cons c s ih =>
      rw [parseDigits, List.forall_mem_cons, readDigits_cons]
      cases digit : isDigit c with
      | false => simp
      | true =>
          simp only [Bool.not_true, Bool.false_eq_true, ↓reduceIte, true_and]
          by_cases large : n * 10 + (c.toNat - 48) ≥ 2 ^ 64
          · rw [if_pos large]
            refine ⟨nofun, fun ⟨_, value, bound⟩ => ?_⟩
            have := le_readDigits (n * 10 + (c.toNat - 48)) s
            omega
          · rw [if_neg large, ih (Nat.lt_of_not_le large)]

/-- The string is the numeral of a 64-bit number, possibly with leading zeros. -/
structure Numeral (s : List UInt8) (n : Nat) : Prop where
  nonempty : s ≠ []
  digits : ∀ c ∈ s, isDigit c = true
  value : readDigits 0 s = n
  small : n < 2 ^ 64

theorem parseUint_eq_ok_iff {s : List UInt8} {n : Nat}
    : parseUint s = .ok n ↔ Numeral s n := by
  unfold parseUint
  by_cases empty : s.length = 0
  · rw [if_pos empty]
    exact ⟨nofun, fun numeral => absurd (List.length_eq_zero_iff.mp empty) numeral.nonempty⟩
  · rw [if_neg empty, parseDigits_eq_ok_iff (by decide)]
    exact ⟨fun ⟨digits, value, small⟩ => ⟨fun none => empty (by rw [none]; rfl), digits, value,
      small⟩, fun numeral => ⟨numeral.digits, numeral.value, numeral.small⟩⟩

theorem numeral_decimal {n : Nat} (small : n < 2 ^ 64) : Numeral (decimal n) n where
  nonempty := decimal_ne_nil n
  digits := fun _ => isDigit_of_mem_decimal
  value := readDigits_decimal n
  small := small

-----------------------------------------------------------------------------------------
-- Tokens
-----------------------------------------------------------------------------------------

/-- The token stands for the change: one letter and a number. -/
def Denotes (tok : List UInt8) (cc : ConfChangeSingle) : Prop :=
  ∃ c digits, tok = c :: digits ∧ operation c = some cc.type ∧ Numeral digits cc.nodeId

theorem confChangeFromToken_eq_ok_iff {tok : List UInt8} {cc : ConfChangeSingle}
    : confChangeFromToken tok = .ok cc ↔ Denotes tok cc := by
  unfold confChangeFromToken Denotes
  cases tok with
  | nil => simp
  | cons c digits =>
      simp only [List.cons.injEq]
      by_cases empty : digits.length = 0
      · rw [if_pos empty]
        refine ⟨nofun, ?_⟩
        rintro ⟨_, _, ⟨rfl, rfl⟩, _, numeral⟩
        exact absurd (List.length_eq_zero_iff.mp empty) numeral.nonempty
      rw [if_neg empty]
      cases known : operation c with
      | none =>
          refine ⟨nofun, ?_⟩
          rintro ⟨_, _, ⟨rfl, rfl⟩, same, _⟩
          exact absurd (known.symm.trans same) nofun
      | some type =>
          simp only
          constructor
          · intro parsed
            cases number : parseUint digits with
            | error err =>
                rw [number] at parsed
                cases parsed
            | ok id =>
                rw [number] at parsed
                cases parsed
                exact ⟨c, digits, ⟨rfl, rfl⟩, known, parseUint_eq_ok_iff.mp number⟩
          · rintro ⟨_, _, ⟨rfl, rfl⟩, same, numeral⟩
            cases known.symm.trans same
            rw [parseUint_eq_ok_iff.mpr numeral]
            rfl

/-- The type of the change is known, and the ID is a 64-bit number. -/
structure ConfChangeSingle.Printable (cc : ConfChangeSingle) : Prop where
  type : ∀ value, cc.type ≠ .unknown value
  nodeId : cc.nodeId < 2 ^ 64

/-- What is printed for a change stands for it. -/
theorem denotes_confChangeString {cc : ConfChangeSingle} (printable : cc.Printable)
    : Denotes (confChangeString cc) cc := by
  have numeral := numeral_decimal printable.nodeId
  obtain ⟨type, id⟩ := cc
  cases type with
  | unknown value => exact absurd rfl (printable.type value)
  | confChangeAddNode => exact ⟨'v'.toUInt8, decimal id, rfl, rfl, numeral⟩
  | confChangeAddLearnerNode => exact ⟨'l'.toUInt8, decimal id, rfl, rfl, numeral⟩
  | confChangeRemoveNode => exact ⟨'r'.toUInt8, decimal id, rfl, rfl, numeral⟩
  | confChangeUpdateNode => exact ⟨'u'.toUInt8, decimal id, rfl, rfl, numeral⟩

/-- A token that stands for a change has a known operation. -/
theorem Denotes.printable {tok : List UInt8} {cc : ConfChangeSingle}
    (denotes : Denotes tok cc)
    : cc.Printable := by
  obtain ⟨c, digits, _, known, numeral⟩ := denotes
  refine ⟨fun value same => ?_, numeral.small⟩
  rw [same] at known
  unfold operation at known
  repeat' split at known
  all_goals cases known

/-- A letter is no blank, and neither is a digit. -/
theorem Denotes.no_blank {tok : List UInt8} {cc : ConfChangeSingle}
    (denotes : Denotes tok cc)
    : ' '.toUInt8 ∉ tok := by
  obtain ⟨c, digits, rfl, known, numeral⟩ := denotes
  rw [List.mem_cons, not_or]
  constructor
  · rintro rfl
    cases known
  · intro member
    exact absurd (numeral.digits _ member) (by decide)

-----------------------------------------------------------------------------------------
-- Trimming
-----------------------------------------------------------------------------------------

/-- Nothing is cut off in front of a byte that begins none of the encodings. -/
theorem trimFront_of_solid {cut : List (List UInt8)} {solid : UInt8 → Bool} {c : UInt8}
    {s : List UInt8} (front : solid c = true)
    (hollow : ∀ w ∈ cut, w.head?.map solid = some false) (fuel : Nat)
    : trimFront cut fuel (c :: s) = c :: s := by
  cases fuel with
  | zero => rfl
  | succ fuel =>
      have none : (cut.find? fun w => w.isPrefixOf (c :: s)) = none := by
        refine List.find?_eq_none.mpr fun w member => ?_
        have first := hollow w member
        cases w with
        | nil => cases first
        | cons b w =>
            have differ : b ≠ c := by
              rintro rfl
              rw [List.head?_cons, Option.map_some, front] at first
              cases first
            simp [List.isPrefixOf, differ]
      rw [trimFront, none]

/-- A string that begins with a letter and ends with a digit has no blanks around it. -/
theorem trimSpace_eq {c d : UInt8} {s t : List UInt8} (same : c :: s = t ++ [d])
    (letter : (operation c).isSome = true) (digit : isDigit d = true)
    : trimSpace (c :: s) = c :: s := by
  have front := trimFront_of_solid (s := s) letter
    (show ∀ w ∈ spaces, w.head?.map (fun c => (operation c).isSome) = some false by decide)
    (c :: s).length
  have back := trimFront_of_solid (s := t.reverse) digit
    (show ∀ w ∈ spaces.map List.reverse, w.head?.map isDigit = some false by decide)
    (c :: s).length
  unfold trimSpace
  simp only
  rw [front, same, List.reverse_append, List.reverse_singleton, List.singleton_append, ← same, back,
    List.reverse_cons, List.reverse_reverse, same]

-----------------------------------------------------------------------------------------
-- Lists of changes
-----------------------------------------------------------------------------------------

theorem confChangesToString_cons_cons (cc cc' : ConfChangeSingle)
    (rest : List ConfChangeSingle)
    : confChangesToString (cc :: cc' :: rest)
      = confChangeString cc ++ ' '.toUInt8 :: confChangesToString (cc' :: rest) := by
  simp [confChangesToString]

theorem confChangesToString_eq (ccs : List ConfChangeSingle)
    : confChangesToString ccs = [' '.toUInt8].intercalate (ccs.map confChangeString) := by
  induction ccs with
  | nil => rfl
  | cons cc rest ih =>
      cases rest with
      | nil => simp [confChangesToString, List.intercalate]
      | cons cc' rest =>
          rw [confChangesToString_cons_cons, ih]
          simp [List.intercalate]

/-- The last byte that is printed is a digit. -/
theorem confChangesToString_ends (cc : ConfChangeSingle) (rest : List ConfChangeSingle)
    : ∃ t d, confChangesToString (cc :: rest) = t ++ [d] ∧ isDigit d = true := by
  induction rest generalizing cc with
  | nil =>
      obtain ⟨digits, d, printed⟩ :=
        List.eq_nil_or_concat (decimal cc.nodeId) |>.resolve_left (decimal_ne_nil _)
      refine ⟨operationString cc.type ++ digits, d, ?_, isDigit_of_mem_decimal (n := cc.nodeId) ?_⟩
      · simp [confChangesToString, confChangeString, printed]
      · simp [printed]
  | cons cc' rest ih =>
      obtain ⟨t, d, printed, digit⟩ := ih cc'
      refine ⟨confChangeString cc ++ ' '.toUInt8 :: t, d, ?_, digit⟩
      rw [confChangesToString_cons_cons, printed, List.append_assoc, List.cons_append]

/-- The tokens of what is printed are those of the single changes. -/
theorem confChangeTokens_toString {ccs : List ConfChangeSingle}
    (printable : ∀ cc ∈ ccs, cc.Printable)
    : confChangeTokens (confChangesToString ccs) = ccs.map confChangeString := by
  cases ccs with
  | nil => decide
  | cons cc rest =>
      obtain ⟨c, digits, token, known, _⟩ :=
        denotes_confChangeString (printable cc List.mem_cons_self)
      obtain ⟨t, d, ends, digit⟩ := confChangesToString_ends cc rest
      have trimmed : trimSpace (confChangesToString (cc :: rest))
          = confChangesToString (cc :: rest) := by
        have begins : confChangesToString (cc :: rest)
            = c :: (digits ++ rest.flatMap fun cc => ' '.toUInt8 :: confChangeString cc) := by
          rw [confChangesToString, token, List.cons_append]
        rw [begins] at ends ⊢
        exact trimSpace_eq ends (by rw [known]; rfl) digit
      have split : List.splitOn ' '.toUInt8 (trimSpace (confChangesToString (cc :: rest)))
          = (cc :: rest).map confChangeString := by
        rw [trimmed, confChangesToString_eq]
        refine List.splitOn_intercalate _ (fun tok member => ?_) (List.cons_ne_nil _ _)
        obtain ⟨cc', inside, rfl⟩ := List.mem_map.mp member
        exact (denotes_confChangeString (printable cc' inside)).no_blank
      unfold confChangeTokens
      rw [split, List.map_cons, token]

theorem printable_of_denotes {toks : List (List UInt8)} {ccs : List ConfChangeSingle}
    (denotes : List.Forall₂ Denotes toks ccs)
    : ∀ cc ∈ ccs, cc.Printable := by
  induction denotes with
  | nil => nofun
  | cons first _ ih => exact List.forall_mem_cons.mpr ⟨first.printable, ih⟩

/-- A list of tokens is parsed if each stands for a change. -/
theorem mapM_confChangeFromToken {toks : List (List UInt8)} {ccs : List ConfChangeSingle}
    : toks.mapM confChangeFromToken = .ok ccs ↔ List.Forall₂ Denotes toks ccs := by
  induction toks generalizing ccs with
  | nil =>
      rw [List.mapM_nil, List.forall₂_nil_left_iff]
      exact ⟨fun same => (Except.ok.inj same).symm, fun none => by rw [none]; rfl⟩
  | cons tok toks ih =>
      rw [List.mapM_cons, List.forall₂_cons_left_iff]
      constructor
      · intro parsed
        obtain ⟨cc, first, parsed⟩ := except_bind_eq_ok.mp parsed
        obtain ⟨rest, later, parsed⟩ := except_bind_eq_ok.mp parsed
        cases parsed
        exact ⟨cc, rest, confChangeFromToken_eq_ok_iff.mp first, ih.mp later, rfl⟩
      · rintro ⟨cc, rest, first, later, rfl⟩
        rw [confChangeFromToken_eq_ok_iff.mpr first, ih.mpr later]
        rfl

theorem confChangesFromString_eq_ok_iff {s : List UInt8} {ccs : List ConfChangeSingle}
    : confChangesFromString s = .ok ccs ↔ List.Forall₂ Denotes (confChangeTokens s) ccs :=
  mapM_confChangeFromToken

/-- Printed changes are parsed. -/
theorem confChangesFromString_of_printable {ccs : List ConfChangeSingle}
    (printable : ∀ cc ∈ ccs, cc.Printable)
    : confChangesFromString (confChangesToString ccs) = .ok ccs := by
  rw [confChangesFromString_eq_ok_iff, confChangeTokens_toString printable,
    List.forall₂_map_left_iff, List.forall₂_same]
  exact fun cc member => denotes_confChangeString (printable cc member)

/-- Parsing inverts printing, for all changes of known types; and whatever is parsed has
one letter and a 64-bit number in every token, and is parsed again after it has been
printed.
-/
theorem confChangesFromString_toString
    : (∀ ccs : List ConfChangeSingle, (∀ cc ∈ ccs, cc.Printable)
        → confChangesFromString (confChangesToString ccs) = .ok ccs)
      ∧ ∀ s ccs, confChangesFromString s = .ok ccs
        → List.Forall₂ (fun tok cc => ∃ c digits, tok = c :: digits ∧ operation c = some cc.type
            ∧ digits ≠ [] ∧ (∀ c ∈ digits, isDigit c = true) ∧ readDigits 0 digits = cc.nodeId
            ∧ cc.nodeId < 2 ^ 64) (confChangeTokens s) ccs
          ∧ confChangesFromString (confChangesToString ccs) = .ok ccs := by
  refine ⟨fun ccs => confChangesFromString_of_printable, fun s ccs parsed => ?_⟩
  have denotes := confChangesFromString_eq_ok_iff.mp parsed
  refine ⟨denotes.imp ?_, confChangesFromString_of_printable (printable_of_denotes denotes)⟩
  rintro tok cc ⟨c, digits, token, known, numeral⟩
  exact ⟨c, digits, token, known, numeral.nonempty, numeral.digits, numeral.value, numeral.small⟩

theorem confChangesFromString_toString_extremes
    : let ccs : List ConfChangeSingle := [
        { type := .confChangeAddLearnerNode, nodeId := 0 },
        { type := .confChangeRemoveNode, nodeId := 2 ^ 64 - 1 }]
      confChangesFromString (confChangesToString ccs) = .ok ccs := by
  refine confChangesFromString_toString.1 _ ?_
  exact List.forall_mem_cons.mpr ⟨⟨nofun, by decide⟩,
    List.forall_mem_singleton.mpr ⟨nofun, by decide⟩⟩

/-- A blank before and after the tokens, a leading zero and the largest number. -/
example
    : confChangesFromString
        (" v01 u18446744073709551615\n".toList.map Char.toUInt8)
      = .ok [{ type := .confChangeAddNode, nodeId := 1 },
          { type := .confChangeUpdateNode, nodeId := 2 ^ 64 - 1 }] := by
  decide +kernel

end EtcdRaft
