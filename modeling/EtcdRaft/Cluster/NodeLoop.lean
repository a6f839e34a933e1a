import EtcdRaft.Cluster.Lifetime

/-! The loop of `node.run`. It offers the next `Ready` to the application while it waits
for something to do, and computes it anew before it waits again.

`Advance` is taken apart as in a lifetime. The loop also stops taking proposals while
there is no leader, which is left out.
-/

namespace EtcdRaft

/-- The state of the loop: the host of its node, and the `Ready` that `readyc` is armed
with.
-/
structure NodeLoop where
  host : Host
  rd : Option Ready := none

/-- Whether the loop has something to do for an input. Otherwise it is the application
alone that works, on its storage or on its state.
-/
def Input.wakes (h : Host) : Input → Bool
  | .event .persist | .event (.createSnapshot _) | .event (.compact _) => false
  | .event .apply =>
      match h.batches with
      | ⟨e :: _, _⟩ :: _ => e.isConfChange && decide (h.app.length < e.index)
      | _ => false
  | _ => true

/-- The application receives the `Ready` that the loop offers; `acceptReady`. -/
def Host.accept [Codec] (h : Host) (rd : Ready) : Host × Output :=
  match h.node with
  | none => (h, {})
  | some rn => h.outcome do
      let rn ← rn.acceptReady rd
      let h := { h with node := some rn }
      if rn.asyncStorageWrites then
        let writes := match rd.storageAppend with
          | none => []
          | some m =>
              let isResponse (m : Message) : Bool := m.type == .msgStorageAppendResp
              [writeOf rd (m.responses.filter fun m => !isResponse m)
                (m.responses.filter isResponse)]
        let batches := match rd.storageApply with
          | none => []
          | some m => [{ entries := m.message.entries, response := m.responses : Batch }]
        return ({ h with writes := h.writes ++ writes, batches := h.batches ++ batches },
          { sent := rd.messages, handedOut := rd.committedEntries })
      else
        return ({ h with
          outstanding := true
          writes := h.writes ++ [writeOf rd rd.messages []]
          batches := h.batches ++ [{ entries := rd.committedEntries, response := [] }] },
          { handedOut := rd.committedEntries })

namespace NodeLoop

variable [Codec]

/-- The top of the loop. Unless the node waits for `Advance`, the `Ready` is computed. -/
def top (l : NodeLoop) : NodeLoop :=
  match l.host.node with
  | none => l
  | some rn =>
      if !l.host.outstanding && rn.stepsOnAdvance.isEmpty && rn.hasReady then
        match rn.readyWithoutAccept with
        | .ok rd => { l with rd := some rd }
        | .error _ => { host := l.host.stop }
      else
        l

/-- One round of the loop, or a step of the application on its own. -/
def step (σ : Setup) (id : Nat) (l : NodeLoop) : Input → NodeLoop
  | .event .ready =>
      match l.rd with
      | none => l
      | some rd => top { host := (l.host.accept rd).1 }
  | i =>
      let l' := { l with host := (l.host.input σ id i).1 }
      if i.wakes l.host then l'.top else l'

end NodeLoop

/-- The loop after a sequence of inputs. -/
def Launch.loop [Codec] (x : Launch) (inputs : List Input) : NodeLoop :=
  inputs.foldl (fun l i => l.step x.setup x.id i) (NodeLoop.top { host := x.host })

end EtcdRaft
