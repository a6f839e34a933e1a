import EtcdRaft.Runs.Turns

/-! What happens to a node between two `Ready`s. No input but the next `Ready` depends on
whether the application is still busy with the last one, or makes it busy.
-/

namespace EtcdRaft

variable [Codec]

namespace Host

variable {σ : Setup} {id : Nat} {takes changes : Prop} {arrives : Message → Prop}
  {async : Bool}
  {h h' : Host} {rn rn' : RawNode}

/-- The host with or without a `Ready` that the application is busy with. -/
def busy (h : Host) (b : Bool) : Host := { h with outstanding := b }

omit [Codec] in
theorem busy_self (h : Host) : h.busy h.outstanding = h := rfl

variable {b : Bool}

omit [Codec] in
/-- Whether a call fails does not depend on it. -/
theorem outcome_busy {x x' : Result (Host × Output)}
    (same : x' = x.map fun res => (res.1.busy b, res.2))
    (up : (h.outcome x).1.node = some rn')
    : ((h.busy b).outcome x').1 = (h.outcome x).1.busy b := by
  subst same
  cases x with
  | ok res => rfl
  | error p => cases up

omit [Codec] in
theorem call_busy (h : Host) (f : RawNode → Result RawNode)
    (up : (h.call f).1.node = some rn')
    : ((h.busy b).call f).1 = (h.call f).1.busy b := by
  unfold call at up ⊢
  cases node : h.node with
  | none =>
      rw [node] at up
      exact absurd (node.symm.trans up) nofun
  | some rn =>
      rw [node] at up
      rw [show (h.busy b).node = some rn from node]
      refine outcome_busy ?_ up
      cases f rn <;> rfl

theorem stepMessage_busy (h : Host) (m : Message)
    (up : (h.stepMessage m).1.node = some rn')
    : ((h.busy b).stepMessage m).1 = (h.stepMessage m).1.busy b :=
  h.call_busy _ up

omit [Codec] in
theorem installed_busy (h : Host) (snapshot : Option Snapshot)
    : (h.busy b).installed snapshot = (h.installed snapshot).busy b := by
  cases snapshot with
  | none => rfl
  | some s =>
      unfold installed
      by_cases older : h.app.length < s.data.length
      · simp only [busy, older, ↓reduceIte]
      · simp only [busy, older, ↓reduceIte]

omit [Codec] in
theorem persist_busy (h : Host) (up : (h.persist σ).1.node = some rn')
    : ((h.busy b).persist σ).1 = (h.persist σ).1.busy b := by
  unfold persist at up ⊢
  rw [show (h.busy b).node = h.node from rfl, show (h.busy b).writes = h.writes from rfl]
  split at up
  · refine outcome_busy ?_ up
    rename_i rn w rest _ _
    dsimp only
    cases store rn.raft.raftLog.storage w with
    | error p => rfl
    | ok ms =>
        refine congrArg Except.ok (Prod.ext ?_ rfl)
        exact installed_busy { h with
          node := some (setStorage rn ms)
          writes := rest
          appended := h.appended ++ w.response
          revert := if flushes σ.loss rn.raft.raftLog.storage.hardState w then []
            else if isEmptyHardState w.hardState then h.revert
            else rn.raft.raftLog.storage.hardState :: h.revert } w.snapshot
  · rfl

theorem apply_busy (h : Host) (up : h.apply.1.node = some rn')
    : (h.busy b).apply.1 = h.apply.1.busy b := by
  unfold apply at up ⊢
  rw [show (h.busy b).node = h.node from rfl, show (h.busy b).batches = h.batches from rfl]
  split at up
  · refine outcome_busy ?_ up
    rename_i rn e entries response rest _ _
    dsimp only [busy]
    by_cases old : e.index ≤ h.app.length
    · simp only [old, ↓reduceIte]
      rfl
    · simp only [old, ↓reduceIte]
      cases Raft.confChangeOf e with
      | error p => rfl
      | ok change =>
          cases change with
          | none => rfl
          | some cc =>
              show (rn.applyConfChange cc >>= _) = Except.map _ (rn.applyConfChange cc >>= _)
              cases rn.applyConfChange cc <;> rfl
  · rfl
  · rfl

omit [Codec] in
theorem createSnapshot_busy (h : Host) (i : Nat)
    (up : (h.createSnapshot i).1.node = some rn')
    : ((h.busy b).createSnapshot i).1 = (h.createSnapshot i).1.busy b := by
  unfold createSnapshot at up ⊢
  rw [show (h.busy b).node = h.node from rfl, show (h.busy b).app = h.app from rfl]
  cases node : h.node with
  | none => rfl
  | some rn =>
      rw [node] at up
      dsimp only at up ⊢
      split at up
      · rename_i outside
        rw [if_pos outside, if_pos outside]
      · rename_i inside
        rw [if_neg inside, if_neg inside]
        refine outcome_busy ?_ up
        show (MemoryStorage.createSnapshot _ i (h.confAt i) (h.app.take i) >>= _) = _
        cases result : rn.raft.raftLog.storage.createSnapshot i (h.confAt i) (h.app.take i) with
        | error p => rfl
        | ok res => cases res <;> rfl

omit [Codec] in
theorem compact_busy (h : Host) (i : Nat) (up : (h.compact i).1.node = some rn')
    : ((h.busy b).compact i).1 = (h.compact i).1.busy b := by
  unfold compact at up ⊢
  rw [show (h.busy b).node = h.node from rfl]
  cases node : h.node with
  | none => rfl
  | some rn =>
      rw [node] at up
      dsimp only at up ⊢
      split at up
      · rename_i outside
        rw [if_pos outside, if_pos outside]
      · rename_i inside
        rw [if_neg inside, if_neg inside]
        refine outcome_busy ?_ up
        cases result : rn.raft.raftLog.storage.compact i with
        | error p => rfl
        | ok res => cases res <;> rfl

/-- No event but those of a `Ready` itself depends on whether the application is busy with
one.
-/
theorem step_busy {now : Nat} {e : HostEvent} (steady : e.steady = true)
    (other : e ≠ .ready) (up : (h.step σ id now e).1.node = some rn')
    : ((h.busy b).step σ id now e).1 = (h.step σ id now e).1.busy b := by
  cases e with
  | start c => cases steady
  | crash k => cases steady
  | advance => cases steady
  | ready => contradiction
  | proposeConfChange type data =>
      unfold Host.step at up ⊢
      dsimp only at up ⊢
      split at up
      · rename_i allowed
        rw [if_pos allowed, if_pos allowed]
        exact h.call_busy _ up
      · rename_i refused
        rw [if_neg refused, if_neg refused]
  | persist => exact h.persist_busy up
  | apply => exact h.apply_busy up
  | appendResp =>
      show (h.busy b).appendResp.1 = h.appendResp.1.busy b
      replace up : h.appendResp.1.node = some rn' := up
      unfold appendResp at up ⊢
      rw [show (h.busy b).appended = h.appended from rfl]
      split at up
      · exact stepMessage_busy _ _ up
      · rfl
  | applyResp =>
      show (h.busy b).applyResp.1 = h.applyResp.1.busy b
      replace up : h.applyResp.1.node = some rn' := up
      unfold applyResp at up ⊢
      rw [show (h.busy b).applied = h.applied from rfl]
      split at up
      · exact stepMessage_busy _ _ up
      · rfl
  | createSnapshot i => exact h.createSnapshot_busy i up
  | compact i => exact h.compact_busy i up
  | _ => exact h.call_busy _ up

omit [Codec] in
theorem Termed.busy (ok : h.Termed) : (h.busy b).Termed := { ok with }

omit [Codec] in
theorem Separate.busy (ok : h.Separate async) : (h.busy true).Separate async :=
  { ok with
    quiet := fun isSync => { ok.quiet isSync with }
    free := nofun }

theorem Turns.of_busy (turns : Turns takes changes async arrives (h.busy b) rn (h'.busy b) rn')
    : Turns takes changes async arrives h rn h' rn' := by
  cases turns with
  | rest writes appended applied => exact .rest writes appended applied
  | call called remote termed source writes appended applied own =>
      exact .call called remote termed source writes appended applied own
  | answerAppend answer handled popped writes applied =>
      exact .answerAppend answer handled popped writes applied
  | answerApply answer handled popped writes appended applied =>
      exact .answerApply answer handled popped writes appended applied
  | ready taken writes appended applied may =>
      exact .ready taken writes appended applied may
  | persist queued stored appended applied =>
      exact .persist queued stored appended applied
  | createSnapshot below created writes appended applied =>
      exact .createSnapshot below created writes appended applied
  | compact below compacted writes appended applied =>
      exact .compact below compacted writes appended applied

/-- An input that takes no `Ready`. -/
theorem turns_input {i : Input} (steady : ∀ e, i = .event e → e.steady = true)
    (other : i ≠ .event .ready) (termed : h.Termed) (separate : h.Separate async)
    (network : ∀ m, i = .receive m → m.Public)
    (node' : (h.input σ id i).1.node = some rn')
    : ∃ rn, h.node = some rn
      ∧ Turns False True async (fun m => i = .receive m) h rn (h.input σ id i).1 rn' := by
  have moves : ((h.busy true).input σ id i).1 = (h.input σ id i).1.busy true
      → ∃ rn, h.node = some rn
      ∧ Turns False True async (fun m => i = .receive m) h rn (h.input σ id i).1 rn' := by
    intro same
    have goes := @Host.goes _ σ id (h.busy true) i steady
    rw [same] at goes
    obtain ⟨rn, node, turns⟩ :=
      goes.turns termed.busy separate.busy network node' nofun fun _ => trivial
    exact ⟨rn, node, turns.of_busy⟩
  cases i with
  | receive m => exact moves (stepMessage_busy _ _ node')
  | event e =>
      exact moves (step_busy (steady e rfl) (fun same => other (same ▸ rfl)) node')
  | release =>
      replace node' : h.release.1.node = some rn' := node'
      show ∃ rn, h.node = some rn ∧ Turns False True async _ h rn h.release.1 rn'
      unfold release at node' ⊢
      split at node'
      · rename_i handled
        rw [if_pos handled]
        exact ⟨rn', node', .rest rfl rfl rfl⟩
      · rename_i waiting
        rw [if_neg waiting]
        exact ⟨rn', node', .rest rfl rfl rfl⟩
  | own =>
      replace node' : h.own.1.node = some rn' := node'
      show ∃ rn, h.node = some rn ∧ Turns False True async _ h rn h.own.1 rn'
      rcases h.own_cases with ⟨_, idle⟩ | ⟨rn, m, rest, node, queued, released, _, handled⟩
      · rw [idle] at node' ⊢
        exact ⟨rn', node', .rest rfl rfl rfl⟩
      · have source : Own h m { h with node := some { rn with stepsOnAdvance := rest } } :=
          .mk node queued released
        rcases handled with ⟨p, _, stops⟩ | ⟨r, err, steps, goes⟩
        · rw [stops] at node'
          cases node'
        · rw [goes] at node' ⊢
          exact ⟨rn, node, Handles.turns_own termed separate node (.mk source rfl steps) node'⟩

/-- Nothing is left for `Advance` but by a `Ready`. -/
theorem Moves.stepsOnAdvance {now : Nat} {out : Output}
    (moves : Moves σ id now arrives h out h')
    (waits : h.outstanding = true) (node : h.node = some rn) (node' : h'.node = some rn')
    : rn'.stepsOnAdvance = rn.stepsOnAdvance := by
  cases moves with
  | handle handles =>
      obtain @⟨m, h₁, _, r, err, source, up, steps⟩ := handles
      cases node'
      cases source <;> cases node.symm.trans up <;> rfl
  | refuse source refused => cases source <;> cases node.symm.trans node' <;> rfl
  | fail failure => cases node'
  | start down => exact absurd (down.symm.trans node) nofun
  | crash k =>
      have stopped : (h.crash k).1.node = none := by
        unfold Host.crash
        dsimp only
        split <;> rfl
      exact absurd (stopped.symm.trans node') nofun
  | readySync up free => exact absurd (free.symm.trans waits) nofun
  | readyAsync up free => exact absurd (free.symm.trans waits) nofun
  | @persist _ w rest ms up queued stored =>
      cases node.symm.trans up
      unfold Host.persisted at node'
      obtain ⟨app, confs, same⟩ := Host.installed_eq _ w.snapshot
      rw [same] at node'
      cases node'
      rfl
  | skip => cases node.symm.trans node'; rfl
  | apply => cases node.symm.trans node'; rfl
  | finish => cases node.symm.trans node'; rfl
  | tick up ticks => cases node.symm.trans up; cases node'; rfl
  | applyConfChange up => cases node.symm.trans up; cases node'; rfl
  | createSnapshot up => cases node.symm.trans up; cases node'; rfl
  | compact up => cases node.symm.trans up; cases node'; rfl

/-- A node that does not wait for `Advance` still does not, unless the input is a `Ready`.
-/
theorem input_free {i : Input} (steady : ∀ e, i = .event e → e.steady = true)
    (other : i ≠ .event .ready) (node : h.node = some rn)
    (node' : (h.input σ id i).1.node = some rn') (free : h.outstanding = false)
    (done : rn.stepsOnAdvance = [])
    : (h.input σ id i).1.outstanding = false ∧ rn'.stepsOnAdvance = [] := by
  have moves : (∀ b, ((h.busy b).input σ id i).1 = (h.input σ id i).1.busy b)
      → (∀ h : Host, ∃ out, Once σ id 0 (fun m => i = .receive m) h out (h.input σ id i).1)
      → (h.input σ id i).1.outstanding = false ∧ rn'.stepsOnAdvance = [] := by
    intro same once
    refine ⟨?_, ?_⟩
    · have kept := congrArg Host.outstanding (same h.outstanding)
      rw [busy_self] at kept
      exact kept.trans free
    · obtain ⟨out, once⟩ := once (h.busy true)
      rw [same true] at once
      generalize after : (h.input σ id i).1.busy true = h' at once
      have up : h'.node = some rn' := after ▸ node'
      cases once with
      | idle =>
          cases node.symm.trans up
          exact done
      | one moves => exact (moves.stepsOnAdvance rfl node up).trans done
  cases i with
  | receive m =>
      exact moves (fun _ => stepMessage_busy _ _ node') fun _ => ⟨_, once_receive rfl⟩
  | event e =>
      have steady := steady e rfl
      refine moves (fun _ => step_busy steady (fun same => other (same ▸ rfl)) node')
        fun _ => ⟨_, once ?_⟩
      rintro rfl
      cases steady
  | release =>
      replace node' : h.release.1.node = some rn' := node'
      show h.release.1.outstanding = false ∧ _
      unfold release at node' ⊢
      rw [free] at node' ⊢
      cases node.symm.trans node'
      exact ⟨free, done⟩
  | own =>
      replace node' : h.own.1.node = some rn' := node'
      show h.own.1.outstanding = false ∧ _
      rcases h.own_cases with ⟨_, idle⟩ | ⟨rn₁, m, rest, up, queued, _⟩
      · rw [idle] at node' ⊢
        cases node.symm.trans node'
        exact ⟨free, done⟩
      · cases node.symm.trans up
        exact absurd (done.symm.trans queued) nofun

end Host

end EtcdRaft
