import EtcdRaft.Cluster.Lifetime

/-! The application of `doc.go`, whose apply thread handles every entry handed out. It
does not look at snapshots: those are the business of the append thread.
-/

namespace EtcdRaft

/-- The apply thread handles the next of the entries handed out. If it is a configuration
change, `ApplyConfChange` is called, unless the application cancels the change. Once the
entries of a `Ready` are handled, they are acknowledged.
-/
def Host.process [Codec] (h : Host) (calls : Bool) : Host × Output :=
  match h.node, h.batches with
  | some rn, ⟨e :: entries, response⟩ :: rest => h.outcome do
      let h := { h with
        batches := ⟨entries, response⟩ :: rest
        app := if e.index ≤ h.app.length then h.app else h.app ++ [e] }
      match ← Raft.confChangeOf e with
      | none => return (h, {})
      | some cc =>
          if calls then
            let (rn, cs) ← rn.applyConfChange cc
            return ({ h with node := some rn, confs := (e.index, cs) :: h.confs }, {})
          else
            return (h, {})
  | some _, ⟨[], response⟩ :: rest =>
      ({ h with batches := rest, applied := h.applied ++ response }, {})
  | _, _ => (h, {})

/-- What can happen to a node with such an application. -/
inductive Service where
  | input (i : Input)
  | process (calls : Bool)

/-- Whether the application calls `ApplyConfChange` if the next entry changes the
configuration.
-/
def Service.calls : Service → Bool
  | .input (.event .apply) => true
  | .process calls => calls
  | _ => false

def Host.serve [Codec] (σ : Setup) (id : Nat) (h : Host) : Service → Host × Output
  | .input i => h.input σ id i
  | .process calls => h.process calls

/-- The host after a sequence of services. -/
def Launch.serve [Codec] (x : Launch) (services : List Service) : Host :=
  services.foldl (fun h s => (h.serve x.setup x.id s).1) x.host

end EtcdRaft
