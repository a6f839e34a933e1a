import EtcdRaft.Cluster.Host

/-! Runs of a cluster. The network keeps every message that was ever sent, so that a
message can be lost, delayed, reordered and delivered any number of times.
-/

namespace EtcdRaft

/-- The hosts by their IDs, the messages sent, and the history of the run: the entries
handed out in `CommittedEntries`, the panics and the number of events.
-/
structure Cluster where
  hosts : Nat → Host
  net : List Message := []
  handedOut : List Entry := []
  panics : List Panic := []
  time : Nat := 0

/-- One event: something happens to a host, or a message of the network is delivered. -/
inductive Event where
  | host (id : Nat) (e : HostEvent)
  | deliver (k : Nat)

namespace Cluster

/-- Every host is set up with the same storage, whether it is a member yet or not. -/
def initial (σ : Setup) : Cluster where
  hosts := fun _ => σ.boot.host

/-- The cluster after a step of one host. -/
def after (c : Cluster) (id : Nat) (result : Host × Output) : Cluster where
  hosts := fun n => if n = id then result.1 else c.hosts n
  net := c.net ++ result.2.sent
  handedOut := c.handedOut ++ result.2.handedOut
  panics := c.panics ++ result.2.panic.toList
  time := c.time + 1

def step [Codec] (σ : Setup) (c : Cluster) : Event → Cluster
  | .host id e => c.after id ((c.hosts id).step σ id c.time e)
  | .deliver k =>
      match c.net[k]? with
      | none => { c with time := c.time + 1 }
      | some m => c.after m.toId ((c.hosts m.toId).receive c.time m)

/-- The cluster after a sequence of events. -/
def run [Codec] (σ : Setup) (events : List Event) : Cluster :=
  events.foldl (step σ) (initial σ)

end Cluster

end EtcdRaft
