import Mathlib.Logic.Basic

/-! States that reach the disk later than they are reached in memory. Every write that is
on its way takes the state on the disk to a newer one.
-/

namespace EtcdRaft

/-- The writes lead from the state `s` to the state at the end, each one by a sound step.
-/
def Pending {S W : Type} (store : W → S → S) (sound : S → W → S → Prop) (s : S) : List W → S → Prop
  | [], last => s = last
  | w :: writes, last => sound s w (store w s) ∧ Pending store sound (store w s) writes last

namespace Pending

variable {S W : Type} {store : W → S → S} {sound sound' : S → W → S → Prop} {s last : S}
  {writes : List W}

theorem mono (pending : Pending store sound s writes last)
    (weaker : ∀ {s w s'}, sound s w s' → sound' s w s')
    : Pending store sound' s writes last := by
  induction writes generalizing s with
  | nil => exact pending
  | cons w rest ih => exact ⟨weaker pending.1, ih pending.2⟩

/-- One more write at the end. -/
theorem snoc {w : W} (pending : Pending store sound s writes last)
    (next : sound last w (store w last))
    : Pending store sound s (writes ++ [w]) (store w last) := by
  induction writes generalizing s with
  | nil =>
      obtain rfl : s = last := pending
      exact ⟨next, rfl⟩
  | cons w' rest ih => exact ⟨pending.1, ih pending.2⟩

/-- What relates the states before and after every write relates the ends. -/
theorem related {r : S → S → Prop} (pending : Pending store sound s writes last)
    (refl : ∀ s, r s s) (trans : ∀ {a b c}, r a b → r b c → r a c)
    (step : ∀ {s w s'}, sound s w s' → r s s')
    : r s last := by
  induction writes generalizing s with
  | nil => exact pending ▸ refl s
  | cons w rest ih => exact trans (step pending.1) (ih pending.2)

end Pending

end EtcdRaft
