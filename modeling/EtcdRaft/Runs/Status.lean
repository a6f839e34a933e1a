import EtcdRaft.Model.Status
import EtcdRaft.Runs.Configurations
import EtcdRaft.Runs.FlowControl

/-! The configuration that a node reports. `Clone` drops `AutoLeave`, so the report is
right unless the node is to leave a joint configuration on its own.
-/

namespace EtcdRaft

theorem TrackerConfig.clone_eq_iff (cfg : TrackerConfig)
    : cfg.clone = cfg ↔ cfg.autoLeave = false := by
  obtain ⟨voters, autoLeave, learners, learnersNext⟩ := cfg
  simp [clone, eq_comm]

/-- A node reports its configuration, and with it the `ConfState`, exactly if it does not
leave a joint configuration on its own.
-/
theorem RawNode.status_config_iff (rn : RawNode)
    : (rn.status.config = rn.raft.trk.config ∧ rn.status.config.confState = rn.raft.trk.confState)
      ↔ rn.raft.trk.config.autoLeave = false := by
  constructor
  · rintro ⟨same, _⟩
    exact rn.raft.trk.config.clone_eq_iff.mp same
  · intro stays
    have same : rn.status.config = rn.raft.trk.config :=
      rn.raft.trk.config.clone_eq_iff.mpr stays
    exact ⟨same, congrArg TrackerConfig.confState same⟩

/-- A configuration that is not joint is reported as it is. -/
theorem Raft.Placed.status_config {rn : RawNode} (placed : rn.raft.Placed)
    (simple : rn.raft.trk.config.joint = false)
    : rn.status.config = rn.raft.trk.config := by
  obtain ⟨_, places, _, configured⟩ := placed
  exact rn.raft.trk.config.clone_eq_iff.mpr
    (configured.autoLeave (configured.joint_eq_false.mp simple))

section

variable [Codec] {L : Nat → List Entry} {x : Launch} {services : List Service}

/-- At every point of a lifetime a configuration that is not joint is reported as it is.
-/
theorem Launch.status_config_simple {rn : RawNode} (logs : ∀ t, Matched L (L t))
    (prepared : x.Prepared L)
    (served : Host.Served x.setup x.id (Host.Accepts L x.setup x.id) x.host services)
    (node : (x.serve services).node = some rn) (simple : rn.raft.trk.config.joint = false)
    : rn.status.config = rn.raft.trk.config := by
  obtain ⟨d, _, start⟩ := host_ordered prepared
  obtain ⟨_, placed⟩ := serve_invariant (p := fun _ rn => rn.raft.Placed) logs start served
    (fun _ _ accepts => accepts) (fun _ up => up.placed) <| by
      intro h s rn rn' ordered accepts node node' placed
      obtain ⟨rn₁, _, node₁, _, turns, _⟩ := accepts.turns ordered node'
      cases node.symm.trans node₁
      exact turns.placed placed
  exact (placed rn node).status_config simple

end

attribute [local instance] Codec.wire

/-- A change of two peers leads to a joint configuration that the node leaves on its own;
the report does not say so.
-/
theorem status_omits_autoLeave
    : Host.Served tutor.setup tutor.id (Host.Accepts rejoinLog tutor.setup tutor.id) tutor.host
        (rejoins ++ [.process true])
      ∧ (tutor.serve (rejoins ++ [.process true])).node.map (fun rn => (rn.raft.trk.config.joint,
          rn.raft.trk.config.autoLeave, rn.status.config.autoLeave,
          decide (rn.status.config.confState = rn.raft.trk.confState)))
        = some (true, true, false, false) := by
  refine ⟨?_, ?_⟩ <;> decide +kernel

end EtcdRaft
