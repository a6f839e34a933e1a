import EtcdRaft.Runs.Terms
import Mathlib.Data.List.Induction

/-! Runs of a cluster as sequences of transitions of its hosts. -/

namespace EtcdRaft

/-- The host that an event happens to. -/
def Event.target (c : Cluster) : Event → Option Nat
  | .host id _ => some id
  | .deliver k => c.net[k]?.map Message.toId

variable [Codec]

namespace Cluster

/-- The messages that the network may deliver to a host. -/
def Arrives (c : Cluster) (id : Nat) (m : Message) : Prop := m ∈ c.net ∧ m.toId = id

variable {σ : Setup}

/-- Every event is an event of one host, unless nothing happens. -/
theorem step_cases (c : Cluster) (e : Event)
    : c.step σ e = { c with time := c.time + 1 }
      ∨ ∃ id out h', e.target c = some id ∧ c.step σ e = c.after id (h', out)
        ∧ Host.Proceeds σ id c.time (c.Arrives id) (c.hosts id) out h' := by
  cases e with
  | host id e => exact .inr ⟨id, _, _, rfl, rfl, Host.proceeds e⟩
  | deliver k =>
      unfold step
      dsimp only
      split
      · exact .inl rfl
      · rename_i m found
        have arrived : c.Arrives m.toId m := ⟨List.mem_of_getElem? found, rfl⟩
        have target : (Event.deliver k).target c = some m.toId := by
          simp [Event.target, found]
        exact .inr ⟨m.toId, _, _, target, rfl, .once (Host.once_receive arrived)⟩

omit [Codec] in
theorem after_hosts_self (c : Cluster) (id : Nat) (result : Host × Output)
    : (c.after id result).hosts id = result.1 :=
  if_pos rfl

omit [Codec] in
theorem after_hosts_other (c : Cluster) {n id : Nat} (other : n ≠ id)
    (result : Host × Output)
    : (c.after id result).hosts n = c.hosts n :=
  if_neg other

theorem run_append (events : List Event) (e : Event)
    : run σ (events ++ [e]) = (run σ events).step σ e := by
  simp [run]

/-- The messages of a cluster, on the network and at its hosts. -/
structure Termed (c : Cluster) : Prop where
  net : ∀ m ∈ c.net, m.Public
  hosts : ∀ n, (c.hosts n).Termed

theorem Termed.step {c : Cluster} (ok : c.Termed) (e : Event) : (c.step σ e).Termed := by
  rcases c.step_cases (σ := σ) e with same | ⟨id, out, h', _, same, proceeds⟩
  · rw [same]
    exact { ok with }
  · rw [same]
    obtain ⟨okHost, sent⟩ :=
      (ok.hosts id).proceeds (fun m arrived => ok.net m arrived.1) proceeds
    refine ⟨List.forall_mem_append.mpr ⟨ok.net, sent⟩, fun n => ?_⟩
    by_cases here : n = id
    · rw [here, after_hosts_self]
      exact okHost
    · rw [after_hosts_other c here]
      exact ok.hosts n

/-- In every run, messages carry their terms. -/
theorem termed_run (σ : Setup) (events : List Event) : (run σ events).Termed := by
  induction events using List.reverseRecOn with
  | nil => exact ⟨List.forall_mem_nil _, fun _ => Host.Termed.of_idle rfl rfl rfl rfl rfl⟩
  | append_singleton events e ih =>
      rw [run_append]
      exact ih.step e

end Cluster

end EtcdRaft
