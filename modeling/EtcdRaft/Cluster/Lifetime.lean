import EtcdRaft.Cluster.Host

/-! One lifetime of a node, from its start to a crash or a panic. The rest of the cluster
is the messages that arrive.

`Advance` is taken apart into the end of the `Ready` and the messages that the node steps
then, so that more can happen in between than in the code.
-/

namespace EtcdRaft

/-- What can happen to a node: a message arrives, or something of its own host. With
`release` the application is done with a `Ready`, with `own` the node steps the next
message of its own.
-/
inductive Input where
  | receive (m : Message)
  | event (e : HostEvent)
  | release
  | own

/-- What can happen within a lifetime. -/
def HostEvent.steady : HostEvent → Bool
  | .start _ | .crash _ | .advance => false
  | _ => true

namespace Host

/-- The first half of `Advance`: everything in the `Ready` has been handled. -/
def release (h : Host) : Host × Output :=
  if h.outstanding && h.writes.isEmpty && h.batches.isEmpty then
    ({ h with outstanding := false }, {})
  else
    (h, {})

/-- The messages that the node steps on `Advance`, while no `Ready` is being handled. -/
def ownMessages (h : Host) : List Message :=
  match h.node with
  | none => []
  | some rn =>
      if !h.outstanding && h.writes.isEmpty && h.batches.isEmpty then rn.stepsOnAdvance else []

/-- The second half of `Advance`, for one message. -/
def own [Codec] (h : Host) : Host × Output :=
  match h.node, h.ownMessages with
  | some rn, m :: rest =>
      { h with node := some { rn with stepsOnAdvance := rest } }.call fun rn => rn.stepRaft m
  | _, _ => (h, {})

/-- One step of the host; the time is of no interest. -/
def input [Codec] (σ : Setup) (id : Nat) (h : Host) : Input → Host × Output
  | .receive m => h.receive 0 m
  | .event e => h.step σ id 0 e
  | .release => h.release
  | .own => h.own

end Host

/-- A node that is about to start, with its storage and the state of its application. -/
structure Launch where
  setup : Setup
  id : Nat
  config : Config
  disk : MemoryStorage
  app : List Entry := []
  confs : List (Nat × ConfState) := []

namespace Launch

variable [Codec]

/-- The host right after the start of its node. -/
def host (x : Launch) : Host :=
  (Host.start x.setup x.id { disk := x.disk, app := x.app, confs := x.confs } x.config).1

/-- The host after a sequence of inputs. -/
def run (x : Launch) (inputs : List Input) : Host :=
  inputs.foldl (fun h i => (h.input x.setup x.id i).1) x.host

end Launch

end EtcdRaft
