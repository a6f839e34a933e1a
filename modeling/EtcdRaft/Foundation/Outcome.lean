import Mathlib.Logic.Basic
import Mathlib.Order.Defs.Unbundled

/-! Postconditions of computations that may fail, one for results and one for failures,
with the rules to derive them along the structure of a program. The postcondition of a
program that changes a state may be a relation of the new state to the old one.
-/

section Except

variable {ε α β : Type}

@[simp] theorem except_ok_bind (a : α) (f : α → Except ε β) : (Except.ok a >>= f) = f a := rfl

@[simp] theorem except_error_bind (e : ε) (f : α → Except ε β)
    : ((Except.error e : Except ε α) >>= f) = .error e :=
  rfl

@[simp] theorem except_pure (a : α) : (pure a : Except ε α) = .ok a := rfl

@[simp] theorem except_throw (e : ε) : (throw e : Except ε α) = .error e := rfl

/-- A sequence has a result if both parts have one. -/
theorem except_bind_eq_ok {x : Except ε α} {f : α → Except ε β} {b : β}
    : (x >>= f) = .ok b ↔ ∃ a, x = .ok a ∧ f a = .ok b := by
  cases x <;> simp

/-- A sequence fails if one of the parts does. -/
theorem except_bind_eq_error {x : Except ε α} {f : α → Except ε β} {e : ε}
    : (x >>= f) = .error e ↔ x = .error e ∨ ∃ a, x = .ok a ∧ f a = .error e := by
  cases x <;> simp

theorem except_toOption_eq_some {x : Except ε α} {a : α}
    : x.toOption = some a ↔ x = .ok a := by
  cases x <;> simp [Except.toOption]

/-- The error that a computation ends with. -/
def Except.failure? : Except ε α → Option ε
  | .ok _ => none
  | .error e => some e

theorem except_failure_eq_some {x : Except ε α} {e : ε}
    : x.failure? = some e ↔ x = .error e := by
  cases x <;> simp [Except.failure?]

end Except

/-- A result satisfies `post`, a failure satisfies `fail`. -/
def Ends {ε α : Type} (x : Except ε α) (post : α → Prop) (fail : ε → Prop) : Prop :=
  match x with
  | .ok a => post a
  | .error e => fail e

namespace Ends

variable {ε α β : Type} {post : α → Prop} {fail : ε → Prop}

theorem pure {a : α} (h : post a) : Ends (Pure.pure a : Except ε α) post fail := h

theorem ok {a : α} (h : post a) : Ends (.ok a : Except ε α) post fail := h

theorem throw {e : ε} (h : fail e) : Ends (MonadExcept.throw e : Except ε α) post fail := h

theorem error {e : ε} (h : fail e) : Ends (.error e : Except ε α) post fail := h

theorem bind {x : Except ε α} {f : α → Except ε β} {q : α → Prop} {post : β → Prop}
    (hx : Ends x q fail) (hf : ∀ a, q a → Ends (f a) post fail)
    : Ends (x >>= f) post fail := by
  cases x with
  | error e => exact hx
  | ok a => exact hf a hx

theorem ite {c : Prop} [Decidable c] {x y : Except ε α} (hx : c → Ends x post fail)
    (hy : ¬c → Ends y post fail)
    : Ends (if c then x else y) post fail := by
  split
  · exact hx ‹_›
  · exact hy ‹_›

theorem map {x : Except ε α} {f : α → β} {post : β → Prop}
    (hx : Ends x (fun a => post (f a)) fail)
    : Ends (f <$> x) post fail := by
  cases x with
  | error e => exact hx
  | ok a => exact hx

theorem mono {x : Except ε α} {post' : α → Prop} {fail' : ε → Prop}
    (hx : Ends x post fail)
    (hpost : ∀ a, post a → post' a) (hfail : ∀ e, fail e → fail' e)
    : Ends x post' fail' := by
  cases x with
  | error e => exact hfail e hx
  | ok a => exact hpost a hx

/-- What is known about the result may be used in the postcondition. -/
theorem of_eq {x : Except ε α} (hok : ∀ a, x = .ok a → post a)
    (herror : ∀ e, x = .error e → fail e)
    : Ends x post fail := by
  cases x with
  | error e => exact herror e rfl
  | ok a => exact hok a rfl

theorem of_ok {x : Except ε α} {a : α} (eq : x = .ok a) (h : post a)
    : Ends x post fail := by
  subst eq
  exact h

theorem result {x : Except ε α} {a : α} (h : Ends x post fail) (eq : x = .ok a)
    : post a := by
  subst eq
  exact h

theorem failure {x : Except ε α} {e : ε} (h : Ends x post fail) (eq : x = .error e)
    : fail e := by
  subst eq
  exact h

/-- A computation that cannot fail has a result. -/
theorem exists_ok {x : Except ε α} (h : Ends x post fail) (never : ∀ e, ¬fail e)
    : ∃ a, x = .ok a ∧ post a := by
  cases x with
  | error e => exact absurd h (never e)
  | ok a => exact ⟨a, rfl, h⟩

/-- A computation that cannot have a result fails. -/
theorem exists_error {x : Except ε α} (h : Ends x post fail) (never : ∀ a, ¬post a)
    : ∃ e, x = .error e := by
  cases x with
  | error e => exact ⟨e, rfl⟩
  | ok a => exact absurd h (never a)

/-- The invariant rule for loops over a list. -/
theorem foldlM {f : β → α → Except ε β} {l : List α} {b : β} {q : β → Prop} (hb : q b)
    (step : ∀ b a, a ∈ l → q b → Ends (f b a) q fail)
    : Ends (l.foldlM f b) q fail := by
  induction l generalizing b with
  | nil => exact hb
  | cons a rest ih =>
      rw [List.foldlM_cons]
      apply bind (step b a List.mem_cons_self hb)
      intro b' hb'
      exact ih hb' fun b a member => step b a (List.mem_cons_of_mem _ member)

end Ends

/-- The call leads from the state `s` to a related one, if it has a result. -/
def Leads {ε α σ : Type} (R : σ → σ → Prop) (s : σ) (x : Except ε α) (state : α → σ) : Prop :=
  Ends x (fun a => R s (state a)) fun _ => True

namespace Leads

variable {ε α β σ : Type} {R : σ → σ → Prop} {s s' : σ} {x y : Except ε α}
  {f : α → Except ε β}
  {state : α → σ} {state' : β → σ}

/-- A computation that has nothing to do with the state. -/
theorem skip (hf : ∀ a, Leads R s (f a) state') : Leads R s (x >>= f) state' :=
  Ends.bind (q := fun _ => True) (.of_eq (fun _ _ => trivial) fun _ _ => trivial) fun a _ => hf a

theorem ite {c : Prop} [Decidable c] (hx : Leads R s x state) (hy : Leads R s y state)
    : Leads R s (if c then x else y) state :=
  Ends.ite (fun _ => hx) fun _ => hy

theorem mono {R' : σ → σ → Prop} (hx : Leads R s x state)
    (weaker : ∀ a, R s (state a) → R' s (state a))
    : Leads R' s x state :=
  Ends.mono hx weaker fun _ _ => trivial

variable [IsTrans σ R]

/-- The state that the call starts from may itself be related to an earlier one. -/
theorem since (hx : Leads R s' x state) (before : R s s') : Leads R s x state :=
  Ends.mono hx (fun _ later => IsTrans.trans _ _ _ before later) fun _ _ => trivial

theorem bind (hx : Leads R s x state) (hf : ∀ a, Leads R (state a) (f a) state')
    : Leads R s (x >>= f) state' :=
  Ends.bind hx fun a first => (hf a).since first

/-- A loop over a list. -/
theorem foldlM {f : σ → α → Except ε σ} {l : List α} (same : R s s)
    (step : ∀ s a, Leads R s (f s a) fun s => s)
    : Leads R s (l.foldlM f s) fun s => s :=
  Ends.foldlM (q := R s) same fun s' a _ before => (step s' a).since before

end Leads
