import EtcdRaft.Model.RawNode

/-! A host: one node of the cluster together with its disk and its application.

The application handles a `Ready` in any number of steps: what has to be stored waits in
`writes` until it is durable, what has to be applied waits in `batches`. Messages may be
stepped at any time in between. With asynchronous storage writes the two local threads
answer through `appended` and `applied`.
-/

namespace EtcdRaft

-----------------------------------------------------------------------------------------
-- Parameters
-----------------------------------------------------------------------------------------

/-- What a crash may take back. `commitOnly` loses a suffix of the hard states that only
advanced the commit index; with `mustSync` that suffix ends at the last write whose
`Ready` asked for a sync.
-/
inductive Loss where
  | nothing
  | mustSync
  | commitOnly
deriving DecidableEq

/-- The state every node is set up with: the application's history up to some index, and
the configuration at that point.
-/
structure Boot where
  history : List Entry := []
  confState : ConfState

/-- The rules that a cluster is run by. -/
structure Setup where
  boot : Boot
  asyncStorageWrites : Bool := false
  loss : Loss := .nothing
  confChanges : Bool := false

def Boot.index (b : Boot) : Nat := b.history.length

def Boot.term (b : Boot) : Nat := (b.history.getLast?.map Entry.term).getD 0

/-- The storage a node is set up with. -/
def Boot.storage (b : Boot) : MemoryStorage where
  hardState := { term := b.term, commit := b.index }
  snapshot := {
    data := b.history
    metadata := { confState := b.confState, index := b.index, term := b.term } }
  dummy := { index := b.index, term := b.term }

-----------------------------------------------------------------------------------------
-- State
-----------------------------------------------------------------------------------------

/-- A `Ready` on its way to the disk. `messages` are sent once it is durable; `response`
is the `MsgStorageAppendResp` of an asynchronous write.
-/
structure Write where
  entries : List Entry
  hardState : HardState
  snapshot : Option Snapshot
  mustSync : Bool
  messages : List Message
  response : List Message

/-- Committed entries on their way to the state machine, with the `MsgStorageApplyResp` of
asynchronous writes.
-/
structure Batch where
  entries : List Entry
  response : List Message

/-- `disk` is the storage while the node is down, `node` has it while the node runs. `app`
is the state of the application, the entries it has applied; `confs` are the
configurations it has recorded and the indexes they took effect at, newest first. `revert`
are the hard states that a crash may bring back.
-/
structure Host where
  disk : MemoryStorage
  node : Option RawNode := none
  outstanding : Bool := false
  writes : List Write := []
  batches : List Batch := []
  appended : List Message := []
  applied : List Message := []
  app : List Entry
  confs : List (Nat × ConfState)
  revert : List HardState := []

/-- What the rest of the world sees of a step of a host. -/
structure Output where
  sent : List Message := []
  handedOut : List Entry := []
  panic : Option Panic := none

def Boot.host (b : Boot) : Host where
  disk := b.storage
  app := b.history
  confs := [(b.index, b.confState)]

namespace Host

def storage (h : Host) : MemoryStorage :=
  match h.node with
  | some rn => rn.raft.raftLog.storage
  | none => h.disk

/-- The configuration as of an index. -/
def confAt (h : Host) (i : Nat) : ConfState :=
  ((h.confs.find? fun c => decide (c.1 ≤ i)).map Prod.snd).getD {}

/-- The process ends; what is not durable is gone. -/
def stop (h : Host) : Host :=
  { h with
    disk := h.storage
    node := none
    outstanding := false
    writes := []
    batches := []
    appended := []
    applied := [] }

/-- The outcome of a call of the node: a panic ends the process. -/
def outcome (h : Host) (result : Result (Host × Output)) : Host × Output :=
  match result with
  | .ok done => done
  | .error p => (h.stop, { panic := some p })

/-- A call that changes the node and has no output. -/
def call (h : Host) (f : RawNode → Result RawNode) : Host × Output :=
  match h.node with
  | none => (h, {})
  | some rn => h.outcome do
      let rn ← f rn
      return ({ h with node := some rn }, {})

def setStorage (rn : RawNode) (ms : MemoryStorage) : RawNode :=
  { rn with raft := { rn.raft with raftLog := { rn.raft.raftLog with storage := ms } } }

-----------------------------------------------------------------------------------------
-- Starting and stopping
-----------------------------------------------------------------------------------------

/-- The index that a node restarted with `Config.Applied` set to `applied` has applied. -/
def restartIndex (h : Host) (applied : Nat) : Nat :=
  if applied = 0 then h.disk.dummy.index else applied

/-- The node starts from the disk; the storage reports the configuration as of
`Config.Applied`. The application goes back to that index.
-/
def start [Codec] (σ : Setup) (id : Nat) (h : Host) (c : Config) : Host × Output :=
  match h.node with
  | some _ => (h, {})
  | none =>
      let i := h.restartIndex c.applied
      if h.app.length < i then
        (h, {})
      else
        h.outcome do
          let rn ← newRawNode { c with
            id := id
            storage := h.disk
            confState := some (h.confAt i)
            asyncStorageWrites := σ.asyncStorageWrites }
          return ({ h with
            node := some rn
            app := h.app.take i
            confs := h.confs.filter fun conf => decide (conf.1 ≤ i) }, {})

/-- A crash, which takes the hard state back to the `k`-th of those it may lose; with
`k = 0` nothing is lost. Entries and snapshots are never lost once they are stored:
`MustSync` is set whenever there are entries, and is not about snapshots.
-/
def crash (h : Host) (k : Nat) : Host × Output :=
  let h := h.stop
  match (h.disk.hardState :: h.revert)[k]? with
  | none => ({ h with revert := [] }, {})
  | some hs => ({ h with disk := h.disk.setHardState hs, revert := [] }, {})

-----------------------------------------------------------------------------------------
-- Handling a Ready
-----------------------------------------------------------------------------------------

def writeOf (rd : Ready) (messages response : List Message) : Write where
  entries := rd.entries
  hardState := rd.hardState
  snapshot := if isEmptySnap rd.snapshot then none else rd.snapshot
  mustSync := rd.mustSync
  messages := messages
  response := response

/-- The application takes a `Ready`. In the synchronous mode its messages wait until it is
durable and there is no other one before `Advance`.
-/
def ready [Codec] (h : Host) : Host × Output :=
  match h.node with
  | none => (h, {})
  | some rn =>
      if h.outstanding then
        (h, {})
      else
        h.outcome do
          let (rn, rd) ← rn.ready
          let h := { h with node := some rn }
          if rn.asyncStorageWrites then
            let writes := match rd.storageAppend with
              | none => []
              | some m =>
                  let isResponse (m : Message) : Bool := m.type == .msgStorageAppendResp
                  [writeOf rd (m.responses.filter fun m => !isResponse m)
                    (m.responses.filter isResponse)]
            let batches := match rd.storageApply with
              | none => []
              | some m => [{ entries := m.message.entries, response := m.responses : Batch }]
            return ({ h with writes := h.writes ++ writes, batches := h.batches ++ batches },
              { sent := rd.messages, handedOut := rd.committedEntries })
          else
            return ({ h with
              outstanding := true
              writes := h.writes ++ [writeOf rd rd.messages []]
              batches := h.batches ++ [{ entries := rd.committedEntries, response := [] }] },
              { handedOut := rd.committedEntries })

/-- The snapshot, the entries and the hard state go to the storage, in this order. -/
def store (ms : MemoryStorage) (w : Write) : Result MemoryStorage := do
  let ms := match w.snapshot with
    | none => ms
    | some s =>
        match ms.applySnapshot s with
        | .ok ms => ms
        | .error _ => ms
  let ms ← ms.append w.entries
  return if isEmptyHardState w.hardState then ms else ms.setHardState w.hardState

/-- Whether a write makes all the hard states before it durable. -/
def flushes (loss : Loss) (old : HardState) (w : Write) : Bool :=
  match loss with
  | .nothing => true
  | .mustSync => w.mustSync
  | .commitOnly =>
      !isEmptyHardState w.hardState
        && (w.hardState.term != old.term || w.hardState.vote != old.vote)

/-- The oldest write becomes durable and its messages are sent. A snapshot also replaces
an older state of the application.
-/
def persist (σ : Setup) (h : Host) : Host × Output :=
  match h.node, h.writes with
  | some rn, w :: rest => h.outcome do
      let ms := rn.raft.raftLog.storage
      let ms' ← store ms w
      let h := { h with
        node := some (setStorage rn ms')
        writes := rest
        appended := h.appended ++ w.response
        revert := if flushes σ.loss ms.hardState w then []
          else if isEmptyHardState w.hardState then h.revert
          else ms.hardState :: h.revert }
      let h := match w.snapshot with
        | none => h
        | some s =>
            if h.app.length < s.data.length then
              { h with
                app := s.data
                confs := (s.metadata.index, s.metadata.confState) :: h.confs }
            else
              h
      return (h, { sent := w.messages })
  | _, _ => (h, {})

/-- The application applies the next of the entries handed out, unless a snapshot has
overtaken it. `ApplyConfChange` is called for a configuration change.
-/
def apply [Codec] (h : Host) : Host × Output :=
  match h.node, h.batches with
  | some rn, ⟨e :: entries, response⟩ :: rest => h.outcome do
      let h := { h with batches := ⟨entries, response⟩ :: rest }
      if e.index ≤ h.app.length then
        return (h, {})
      let h := { h with app := h.app ++ [e] }
      match ← Raft.confChangeOf e with
      | none => return (h, {})
      | some cc =>
          let (rn, cs) ← rn.applyConfChange cc
          return ({ h with node := some rn, confs := (e.index, cs) :: h.confs }, {})
  | some _, ⟨[], response⟩ :: rest =>
      ({ h with batches := rest, applied := h.applied ++ response }, {})
  | _, _ => (h, {})

/-- `Advance`, once everything in the `Ready` has been handled. -/
def advance [Codec] (h : Host) : Host × Output :=
  if h.outstanding && h.writes.isEmpty && h.batches.isEmpty then
    { h with outstanding := false }.call RawNode.advance
  else
    (h, {})

/-- The application steps a message; the error is of no interest to it. -/
def stepMessage [Codec] (h : Host) (m : Message) : Host × Output :=
  h.call fun rn => do
    let (rn, _) ← rn.step m
    return rn

def appendResp [Codec] (h : Host) : Host × Output :=
  match h.appended with
  | m :: rest => { h with appended := rest }.stepMessage m
  | [] => (h, {})

def applyResp [Codec] (h : Host) : Host × Output :=
  match h.applied with
  | m :: rest => { h with applied := rest }.stepMessage m
  | [] => (h, {})

-----------------------------------------------------------------------------------------
-- Snapshots and compaction
-----------------------------------------------------------------------------------------

/-- The application creates a snapshot of its state as of an applied index whose
commitment is durable.
-/
def createSnapshot (h : Host) (i : Nat) : Host × Output :=
  match h.node with
  | none => (h, {})
  | some rn =>
      let ms := rn.raft.raftLog.storage
      if rn.raft.raftLog.applied < i ∨ ms.hardState.commit < i ∨ h.app.length < i then
        (h, {})
      else
        h.outcome do
          match ← ms.createSnapshot i (h.confAt i) (h.app.take i) with
          | .error _ => return (h, {})
          | .ok ms => return ({ h with node := some (setStorage rn ms) }, {})

/-- The application compacts the log up to an applied index. -/
def compact (h : Host) (i : Nat) : Host × Output :=
  match h.node with
  | none => (h, {})
  | some rn =>
      if rn.raft.raftLog.applied < i then
        (h, {})
      else
        h.outcome do
          match ← rn.raft.raftLog.storage.compact i with
          | .error _ => return (h, {})
          | .ok ms => return ({ h with node := some (setStorage rn ms) }, {})

end Host

-----------------------------------------------------------------------------------------
-- Events
-----------------------------------------------------------------------------------------

/-- What can happen to a host. An event that is not possible changes nothing. -/
inductive HostEvent where
  | start (c : Config)
  | crash (k : Nat)
  | tick
  | campaign
  | propose (data : List UInt8)
  | proposeConfChange (type : EntryType) (data : List UInt8)
  | readIndex (rctx : List UInt8)
  | transferLeader (transferee : Nat)
  | forgetLeader
  | reportUnreachable (id : Nat)
  | reportSnapshot (id : Nat) (failure : Bool)
  | ready
  | persist
  | apply
  | advance
  | appendResp
  | applyResp
  | createSnapshot (i : Nat)
  | compact (i : Nat)

/-- A message of a peer reaches the node; the time of a read request is noted. -/
def Host.receive [Codec] (now : Nat) (h : Host) (m : Message) : Host × Output :=
  h.stepMessage (if m.type = .msgReadIndex then { m with stamp := now } else m)

/-- One step of the host `id` at time `now`. -/
def Host.step [Codec] (σ : Setup) (id now : Nat) (h : Host) : HostEvent → Host × Output
  | .start c => h.start σ id c
  | .crash k => h.crash k
  | .tick => h.call RawNode.tick
  | .campaign => h.call RawNode.campaign
  | .propose data => h.call fun rn => rn.propose data
  | .proposeConfChange type data =>
      if σ.confChanges then h.call fun rn => rn.proposeConfChange type data else (h, {})
  | .readIndex rctx => h.call fun rn => rn.readIndex rctx now
  | .transferLeader transferee => h.call fun rn => rn.transferLeader transferee
  | .forgetLeader => h.call RawNode.forgetLeader
  | .reportUnreachable peer => h.call fun rn => rn.reportUnreachable peer
  | .reportSnapshot peer failure => h.call fun rn => rn.reportSnapshot peer failure
  | .ready => h.ready
  | .persist => h.persist σ
  | .apply => h.apply
  | .advance => h.advance
  | .appendResp => h.appendResp
  | .applyResp => h.applyResp
  | .createSnapshot i => h.createSnapshot i
  | .compact i => h.compact i

end EtcdRaft
