import EtcdRaft.Cluster.NodeLoop
import EtcdRaft.Runs.HasReady

/-! The `Ready` that the loop of `node.run` offers is always the one of the current state.
-/

namespace EtcdRaft

-----------------------------------------------------------------------------------------
-- A Ready and the storage
-----------------------------------------------------------------------------------------

/-- Two logs that end in the same way. -/
theorem LogicalLog.EndOf.drop_eq {g : LogicalLog} {log log' : List Entry} {i : Nat}
    (first : g.EndOf log) (second : g.EndOf log') (above : g.base ≤ i)
    : log.drop i = log'.drop i := by
  have same := first.entries.symm.trans second.entries
  have drops := congrArg (List.drop (i - g.base)) same
  rwa [List.drop_drop, List.drop_drop, Nat.add_sub_cancel' above] at drops

/-- The last entry is read from the unstable ones, if there are any. -/
theorem RaftLog.lastEntryID_withStorage (l : RaftLog) (ms : MemoryStorage)
    (some : l.unstable.entries.length > 0)
    : { l with storage := ms }.lastEntryID = l.lastEntryID := by
  have last : l.unstable.maybeLastIndex
      = .some (l.unstable.offset + l.unstable.entries.length - 1) :=
    if_pos (by omega)
  have lastIndex : ∀ ms, { l with storage := ms }.lastIndex
      = l.unstable.offset + l.unstable.entries.length - 1 := by
    intro ms
    unfold RaftLog.lastIndex
    dsimp only
    rw [last]
    rfl
  obtain ⟨t, read⟩ : ∃ t, l.unstable.maybeTerm (l.unstable.offset + l.unstable.entries.length - 1)
      = .some t := by
    unfold Unstable.maybeTerm
    rw [if_neg (by omega), last]
    dsimp only
    rw [if_neg (by omega), List.getElem?_eq_getElem (by omega)]
    exact ⟨_, rfl⟩
  have term : ∀ ms, { l with storage := ms }.term
      (l.unstable.offset + l.unstable.entries.length - 1) = .ok t := by
    intro ms
    unfold RaftLog.term
    dsimp only
    rw [read]
    rfl
  unfold RaftLog.lastEntryID
  rw [lastIndex ms, show l.lastIndex = _ from lastIndex l.storage, term ms,
    show l.term _ = _ from term l.storage]

theorem storageAppendResp_setStorage (rn : RawNode) (ms : MemoryStorage)
    (snapshot : Option Snapshot)
    : storageAppendResp (Host.setStorage rn ms).raft snapshot
      = storageAppendResp rn.raft snapshot := by
  unfold storageAppendResp newStorageAppendRespMsg
  by_cases some : rn.raft.raftLog.unstable.entries.length > 0
  · have last := rn.raft.raftLog.lastEntryID_withStorage ms some
    unfold Host.setStorage
    dsimp only
    rw [last]
    rfl
  · unfold Host.setStorage
    simp only [some, ↓reduceIte]
    rfl

section

variable [Codec] {L : Nat → List Entry} {async : Bool} {p p' : Pipeline} {l : RaftLog}
  {term : Nat}

/-- Committed entries are the same from every storage of the log. -/
theorem Piped.nextCommittedEnts_withStorage {ms : MemoryStorage}
    (piped : Piped L async p term l)
    (piped' : Piped L async p' term { l with storage := ms }) (allowUnstable : Bool)
    : { l with storage := ms }.nextCommittedEnts allowUnstable
      = l.nextCommittedEnts allowUnstable := by
  have read : l.unstable.snapshot = none → l.applying + 1 < l.maxAppliableIndex allowUnstable + 1
      → ∀ maxSize, { l with storage := ms }.slice (l.applying + 1)
        (l.maxAppliableIndex allowUnstable + 1) maxSize
      = l.slice (l.applying + 1) (l.maxAppliableIndex allowUnstable + 1) maxSize := by
    intro none some maxSize
    have available := piped.firstIndex_le_applying none
    have available' := piped'.firstIndex_le_applying none
    have above := piped.base_lt_firstIndex
    have committed := piped.pipe.index.committed
    have committed' : l.committed ≤ p'.log.length := piped'.pipe.index.committed
    have within : l.maxAppliableIndex allowUnstable ≤ l.committed := by
      unfold RaftLog.maxAppliableIndex
      split <;> omega
    have same : ∀ i, l.applying ≤ i → p'.log.drop i = p.log.drop i := fun i later =>
      LogicalLog.EndOf.drop_eq piped'.logical piped.logical (show l.logical.base ≤ i by omega)
    rw [piped.pipe.shows.slice_parts maxSize available some.le (by omega),
      piped'.pipe.shows.slice_parts maxSize available' some.le (by omega)]
    dsimp only
    by_cases stable : l.applying + 1 < l.unstable.offset
    · rw [if_pos stable, if_pos stable, same _ (by omega), same _ (by omega)]
    · rw [if_neg stable, if_neg stable, same _ (by omega)]
  have same : { l with storage := ms }.hasNextCommittedEnts allowUnstable
      = l.hasNextCommittedEnts allowUnstable := rfl
  rw [RaftLog.nextCommittedEnts_eq, RaftLog.nextCommittedEnts_eq, same]
  by_cases some : l.hasNextCommittedEnts allowUnstable = true
  · rw [if_pos some, if_pos some]
    unfold RaftLog.hasNextCommittedEnts at some
    split at some
    · cases some
    · split at some
      · cases some
      · rename_i settled
        have none : l.unstable.snapshot = none := by
          simpa [RaftLog.hasNextOrInProgressSnapshot] using settled
        have read := read none (of_decide_eq_true some)
        dsimp only
        rw [show RaftLog.maxAppliableIndex { l with storage := ms } allowUnstable
          = l.maxAppliableIndex allowUnstable from rfl, read]
  · rw [if_neg some, if_neg some]

/-- A `Ready` does not depend on how much of the log is stored. -/
theorem Sound.readyWithoutAccept_setStorage {d d' : Version} {h h' : Host} {rn : RawNode}
    {ms : MemoryStorage} (ok : Sound L d async p h rn)
    (ok' : Sound L d' async p' h' (Host.setStorage rn ms))
    : (Host.setStorage rn ms).readyWithoutAccept = rn.readyWithoutAccept := by
  have committed : (Host.setStorage rn ms).raft.raftLog.nextCommittedEnts
      (Host.setStorage rn ms).applyUnstableEntries
      = rn.raft.raftLog.nextCommittedEnts rn.applyUnstableEntries :=
    ok.piped.nextCommittedEnts_withStorage ok'.piped _
  have answers := storageAppendResp_setStorage rn ms
  unfold RawNode.readyWithoutAccept RawNode.collect newStorageAppendMsg
  simp only [committed, answers]
  rfl

-----------------------------------------------------------------------------------------
-- The application on its own
-----------------------------------------------------------------------------------------

/-- While the loop sleeps, the node does not change but for its storage. -/
theorem Host.input_asleep {σ : Setup} {id : Nat} {h : Host} {i : Input} {rn rn' : RawNode}
    (asleep : i.wakes h = false) (node : h.node = some rn)
    (node' : (h.input σ id i).1.node = some rn')
    : ∃ ms, rn' = setStorage rn ms := by
  have same : h.node = some rn' → ∃ ms, rn' = setStorage rn ms := by
    intro up
    cases node.symm.trans up
    exact ⟨rn.raft.raftLog.storage, rfl⟩
  cases i with
  | receive m => cases asleep
  | release => cases asleep
  | own => cases asleep
  | event e =>
      cases e with
      | persist =>
          replace node' : (h.persist σ).1.node = some rn' := node'
          unfold Host.persist at node'
          split at node'
          · rename_i rn₁ w rest up queued
            cases node.symm.trans up
            dsimp only at node'
            cases stored : store rn.raft.raftLog.storage w with
            | error p =>
                rw [stored] at node'
                cases node'
            | ok ms =>
                rw [stored] at node'
                have installed : (Host.installed _ w.snapshot).node = some rn' := node'
                obtain ⟨app, confs, eq⟩ := Host.installed_eq _ w.snapshot
                rw [eq] at installed
                cases installed
                exact ⟨ms, rfl⟩
          · exact same node'
      | createSnapshot k =>
          replace node' : (h.createSnapshot k).1.node = some rn' := node'
          unfold Host.createSnapshot at node'
          rw [node] at node'
          dsimp only at node'
          split at node'
          · exact same node'
          · cases created : rn.raft.raftLog.storage.createSnapshot k (h.confAt k)
              (h.app.take k) with
            | error p =>
                rw [created] at node'
                cases node'
            | ok res =>
                rw [created] at node'
                cases res with
                | error err => exact same node'
                | ok ms =>
                    cases node'
                    exact ⟨ms, rfl⟩
      | compact k =>
          replace node' : (h.compact k).1.node = some rn' := node'
          unfold Host.compact at node'
          rw [node] at node'
          dsimp only at node'
          split at node'
          · exact same node'
          · cases compacted : rn.raft.raftLog.storage.compact k with
            | error p =>
                rw [compacted] at node'
                cases node'
            | ok res =>
                rw [compacted] at node'
                cases res with
                | error err => exact same node'
                | ok ms =>
                    cases node'
                    exact ⟨ms, rfl⟩
      | apply =>
          replace node' : h.apply.1.node = some rn' := node'
          unfold Host.apply at node'
          split at node'
          · rename_i rn₁ e entries response rest up queued
            dsimp only at node'
            by_cases old : e.index ≤ h.app.length
            · rw [if_pos old] at node'
              exact same node'
            · have normal : Raft.confChangeOf e = .ok none := by
                unfold Input.wakes at asleep
                rw [queued] at asleep
                have plain : e.isConfChange = false := by simpa [Nat.not_le.mp old] using asleep
                unfold Entry.isConfChange at plain
                unfold Raft.confChangeOf
                cases type : e.type <;> simp_all
              rw [if_neg old, normal] at node'
              exact same node'
          · exact same node'
          · exact same node'
      | _ => cases asleep

/-- The application receives the `Ready` of the current state. -/
theorem Host.accept_eq {h : Host} {rn : RawNode} {rd : Ready} (node : h.node = some rn)
    (free : h.outstanding = false) (current : rn.readyWithoutAccept = .ok rd)
    : h.accept rd = h.ready := by
  have ready : rn.ready = rn.acceptReady rd >>= fun rn => pure (rn, rd) := by
    unfold RawNode.ready
    rw [current]
    rfl
  unfold Host.accept Host.ready
  rw [node]
  dsimp only
  rw [if_neg (by simp [free]), ready]
  cases rn.acceptReady rd <;> rfl

/-- A host that stops is in order. -/
theorem Host.Fit.stop {d : Version} {limit : Nat} (h : Host) : h.stop.Fit L d async limit where
  termed := .of_idle rfl rfl rfl rfl rfl
  separate := .stop h
  node := fun _ up => absurd up nofun

-----------------------------------------------------------------------------------------
-- The loop
-----------------------------------------------------------------------------------------

namespace NodeLoop

/-- Every input is admitted by `ok` at the host it reaches. -/
def Along (σ : Setup) (id : Nat) (ok : Host → Input → Prop) : NodeLoop → List Input → Prop
  | _, [] => True
  | l, i :: rest => ok l.host i ∧ Along σ id ok (l.step σ id i) rest

instance decidableAlong (σ : Setup) (id : Nat) (ok : Host → Input → Prop)
    [∀ h i, Decidable (ok h i)] : ∀ l inputs, Decidable (Along σ id ok l inputs)
  | _, [] => inferInstanceAs (Decidable True)
  | l, i :: rest =>
      have := decidableAlong σ id ok (l.step σ id i) rest
      inferInstanceAs (Decidable (ok l.host i ∧ Along σ id ok (l.step σ id i) rest))

/-- The loop offers something only if the node has it, and does not wait for `Advance`. -/
def Armed (l : NodeLoop) : Prop :=
  ∀ rd rn, l.rd = some rd → l.host.node = some rn
    → rn.hasReady = true ∧ l.host.outstanding = false ∧ rn.stepsOnAdvance = []

/-- The loop is in order, and what it offers is up to date. -/
structure Current (L : Nat → List Entry) (d : Version) (async : Bool) (limit : Nat)
    (l : NodeLoop)
    : Prop where
  fit : l.host.Fit L d async limit
  armed : l.Armed
  rd : ∀ rd rn, l.rd = some rd → l.host.node = some rn → rn.readyWithoutAccept = .ok rd

variable {d : Version} {limit : Nat} {l : NodeLoop} {σ : Setup} {id : Nat} {i : Input}

/-- At the top of the loop an old `Ready` is replaced. -/
theorem Current.top (fit : l.host.Fit L d async limit) (armed : l.Armed)
    : l.top.Current L d async limit := by
  have stopped : NodeLoop.Current L d async limit { host := l.host.stop } := by
    refine ⟨.stop l.host, ?_, ?_⟩
    all_goals
      intro _ _ offered
      cases offered
  unfold NodeLoop.top
  split
  · rename_i down
    refine ⟨fit, armed, fun rd rn _ up => ?_⟩
    cases down.symm.trans up
  · rename_i rn up
    split
    · rename_i offers
      simp only [Bool.and_eq_true, Bool.not_eq_true', List.isEmpty_iff] at offers
      split
      · rename_i rd current
        refine ⟨⟨fit.termed, fit.separate, fit.node⟩, ?_, ?_⟩
        · rintro _ rn' - up'
          cases up.symm.trans up'
          exact ⟨offers.2, offers.1⟩
        · rintro _ rn' ⟨⟩ up'
          cases up.symm.trans up'
          exact current
      · exact stopped
    · rename_i idle
      refine ⟨fit, armed, fun rd rn' offered up' => absurd ?_ idle⟩
      cases up.symm.trans up'
      obtain ⟨ready, free, done⟩ := armed rd rn offered up
      simp [ready, free, done]

/-- A round of the loop keeps its offer up to date. -/
theorem Current.step (ok : l.Current L d async limit) (logs : ∀ t, Matched L (L t))
    (positive : 0 < limit) (admitted : l.host.Admits L σ id i)
    : (l.step σ id i).Current L d async limit := by
  have fit := ok.fit.input logs positive admitted
  by_cases takes : i = .event .ready
  · subst takes
    unfold NodeLoop.step
    cases offered : l.rd with
    | none => exact ok
    | some rd =>
        refine Current.top ?_ fun _ _ offered => by cases offered
        rcases Option.eq_none_or_eq_some l.host.node with down | ⟨rn, node⟩
        · unfold Host.accept
          rw [down]
          exact ok.fit
        · obtain ⟨_, free, _⟩ := ok.armed rd rn offered node
          rw [Host.accept_eq node free (ok.rd rd rn offered node)]
          exact fit
  · have steady := admitted.1.steady
    have armed : Armed { l with host := (l.host.input σ id i).1 } := by
      intro rd rn' offered node'
      obtain ⟨rn, node, stays⟩ := ok.fit.hasReady admitted.1 takes node'
      obtain ⟨ready, free, done⟩ := ok.armed rd rn offered node
      exact ⟨stays ready, Host.input_free steady takes node node' free done⟩
    have served : l.step σ id i = if i.wakes l.host
        then NodeLoop.top { l with host := (l.host.input σ id i).1 }
        else { l with host := (l.host.input σ id i).1 } := by
      unfold NodeLoop.step
      split
      · contradiction
      · rfl
    rw [served]
    split
    · exact Current.top fit armed
    · rename_i asleep
      refine ⟨fit, armed, fun rd rn' offered node' => ?_⟩
      obtain ⟨rn, node, _⟩ := ok.fit.hasReady admitted.1 takes node'
      obtain ⟨ms, rfl⟩ := Host.input_asleep (Bool.eq_false_iff.mpr asleep) node node'
      obtain ⟨⟨p, sound⟩, _⟩ := ok.fit.node rn node
      obtain ⟨⟨p', sound'⟩, _⟩ := fit.node _ node'
      rw [sound.readyWithoutAccept_setStorage sound']
      exact ok.rd rd rn offered node

theorem Current.run {inputs : List Input} (ok : l.Current L d async limit)
    (logs : ∀ t, Matched L (L t)) (positive : 0 < limit)
    (admitted : Along σ id (Host.Admits L σ id) l inputs)
    : (inputs.foldl (fun l i => l.step σ id i) l).Current L d async limit := by
  induction inputs generalizing l with
  | nil => exact ok
  | cons i rest ih => exact ih (ok.step logs positive admitted.1) admitted.2

end NodeLoop

namespace Launch

variable {x : Launch}

theorem Prepared.exists_fit (prepared : x.Prepared L)
    (limited : x.config.maxCommittedSizePerReady ≠ 0 ∨ x.config.maxSizePerMsg ≠ 0)
    : ∃ d limit, 0 < limit ∧ x.host.Fit L d x.setup.asyncStorageWrites limit := by
  have positive : 0 < x.config.withDefaults.maxCommittedSizePerReady := by
    unfold Config.withDefaults
    dsimp only
    split <;> omega
  obtain ⟨log, stored, matched⟩ := prepared.stored
  exact ⟨_, _, positive, fit_host prepared stored matched positive rfl⟩

omit [Codec] in
theorem along_append [Codec] {ok : Host → Input → Prop} {inputs more : List Input}
    {h : Host} (along : Host.Along x.setup x.id ok h (inputs ++ more))
    : Host.Along x.setup x.id ok h inputs
      ∧ Host.Along x.setup x.id ok (inputs.foldl (fun h i => (h.input x.setup x.id i).1) h)
        more := by
  induction inputs generalizing h with
  | nil => exact ⟨trivial, along⟩
  | cons i rest ih =>
      obtain ⟨first, later⟩ := ih along.2
      exact ⟨⟨along.1, first⟩, later⟩

/-- The host is in order at every point of a lifetime. -/
theorem fit_run {inputs : List Input} {limit : Nat} {d : Version}
    (logs : ∀ t, Matched L (L t))
    (positive : 0 < limit) (start : x.host.Fit L d x.setup.asyncStorageWrites limit)
    (admitted : Host.Along x.setup x.id (Host.Admits L x.setup x.id) x.host inputs)
    : (x.run inputs).Fit L d x.setup.asyncStorageWrites limit :=
  admitted.preserves start fun ok one => ok.input logs positive one

/-- `HasReady` stays true along every number of inputs without a `Ready`. -/
theorem hasReady_along {more : List Input} {limit : Nat} {d : Version} {h : Host}
    {rn' : RawNode} (logs : ∀ t, Matched L (L t)) (positive : 0 < limit)
    (ok : h.Fit L d x.setup.asyncStorageWrites limit)
    (admitted : Host.Along x.setup x.id (Host.Admits L x.setup x.id) h more)
    (other : ∀ i ∈ more, i ≠ .event .ready)
    (ready : ∀ rn, h.node = some rn → rn.hasReady = true)
    (node' : (more.foldl (fun h i => (h.input x.setup x.id i).1) h).node = some rn')
    : rn'.hasReady = true := by
  induction more generalizing h with
  | nil => exact ready rn' node'
  | cons i rest ih =>
      obtain ⟨first, later⟩ := List.forall_mem_cons.mp other
      refine ih (ok.input logs positive admitted.1) admitted.2 later (fun rn₁ up₁ => ?_) node'
      obtain ⟨rn, up, stays⟩ := ok.hasReady admitted.1.1 first up₁
      exact stays (ready rn up)

/-- `Advance` is the end of the `Ready` and the messages that the node steps. -/
theorem run_advance {inputs : List Input} {rn rn' : RawNode}
    (handled : (x.run inputs).outstanding = true ∧ (x.run inputs).writes = []
      ∧ (x.run inputs).batches = [])
    (node : (x.run inputs).node = some rn) (advances : rn.advance = .ok rn')
    : (x.run (inputs ++ .release :: List.replicate rn.stepsOnAdvance.length .own)).node
      = some rn' := by
  unfold RawNode.advance at advances
  split at advances
  · cases advances
  obtain ⟨rn₁, stepped, eq⟩ := except_bind_eq_ok.mp advances
  cases eq
  have released : (x.run inputs).release.1 = { (x.run inputs).released with node := some rn } := by
    unfold Host.release Host.released
    rw [handled.1, handled.2.1, handled.2.2, ← node]
    rfl
  have folded := @Host.foldl_own _ x.setup x.id (x.run inputs).released rn rn₁ rn.raft
    rn.stepsOnAdvance ⟨rfl, handled.2⟩ stepped
  unfold run at folded released ⊢
  rw [List.foldl_append, List.foldl_cons]
  show (List.foldl _ (Host.release _).1 _).node = _
  rw [released]
  exact congrArg Host.node folded

/-- `HasReady` stays true until the `Ready` is accepted, whatever happens: messages and
answers of the local threads, calls, `Advance`, and any change of the configuration. Hence
what the loop of `node.run` offers is at any time the `Ready` of the current state.
-/
theorem hasReady_stable (logs : ∀ t, Matched L (L t)) (prepared : x.Prepared L)
    (limited : x.config.maxCommittedSizePerReady ≠ 0 ∨ x.config.maxSizePerMsg ≠ 0)
    : (∀ inputs more rn rn',
        Host.Along x.setup x.id (Host.Admits L x.setup x.id) x.host (inputs ++ more)
        → (∀ i ∈ more, i ≠ .event .ready)
        → (x.run inputs).node = some rn → rn.hasReady = true
        → (x.run (inputs ++ more)).node = some rn' → rn'.hasReady = true)
      ∧ (∀ inputs rn rn', (x.run inputs).node = some rn → rn.hasReady = true
        → (x.run inputs).outstanding = true → (x.run inputs).writes = []
        → (x.run inputs).batches = []
        → Host.Along x.setup x.id (Host.Admits L x.setup x.id) x.host
          (inputs ++ .release :: List.replicate rn.stepsOnAdvance.length .own)
        → rn.advance = .ok rn' → rn'.hasReady = true)
      ∧ (∀ inputs rn rn' cc cs,
        Host.Along x.setup x.id (Host.Admits L x.setup x.id) x.host inputs
        → (x.run inputs).node = some rn → rn.hasReady = true
        → rn.applyConfChange cc = .ok (rn', cs) → rn'.hasReady = true)
      ∧ ∀ inputs rd rn,
        NodeLoop.Along x.setup x.id (Host.Admits L x.setup x.id) (NodeLoop.top { host := x.host })
          inputs
        → (x.loop inputs).rd = some rd → (x.loop inputs).host.node = some rn
        → rn.readyWithoutAccept = .ok rd := by
  obtain ⟨d, limit, positive, start⟩ := prepared.exists_fit limited
  have stays : ∀ inputs more rn rn',
      Host.Along x.setup x.id (Host.Admits L x.setup x.id) x.host (inputs ++ more)
      → (∀ i ∈ more, i ≠ .event .ready)
      → (x.run inputs).node = some rn → rn.hasReady = true
      → (x.run (inputs ++ more)).node = some rn' → rn'.hasReady = true := by
    intro inputs more rn rn' admitted other node ready node'
    obtain ⟨before, after⟩ := along_append admitted
    refine hasReady_along logs positive (fit_run logs positive start before) after other
      (fun rn₀ up => ?_) (List.foldl_append ▸ node')
    cases node.symm.trans up
    exact ready
  refine ⟨stays, ?_, ?_, ?_⟩
  · intro inputs rn rn' node ready outstanding writes batches admitted advances
    refine stays inputs _ rn rn' admitted ?_ node ready
      (run_advance ⟨outstanding, writes, batches⟩ node advances)
    simp
  · intro inputs rn rn' cc cs admitted node ready applied
    exact (fit_run logs positive start admitted).hasReady_applyConfChange node applied ready
  · intro inputs rd rn admitted
    have top : NodeLoop.Current L d x.setup.asyncStorageWrites limit
        (NodeLoop.top { host := x.host }) :=
      .top start fun _ _ offered => absurd offered nofun
    exact (top.run logs positive admitted).rd rd rn

end Launch

end

attribute [local instance] Codec.wire

/-- The change that makes node 2 a voter. -/
def addSecondVoter : ConfChangeV2 where
  changes := [{ type := .confChangeAddNode, nodeId := 2 }]

/-- A node that has campaigned has a `Ready`, also after a tick and a change of its
configuration, and its loop offers it.
-/
theorem hasReady_stable_loneVoter
    : (∃ rn, (loneVoter.run [.event .campaign, .event .tick]).node = some rn ∧ rn.hasReady = true)
      ∧ (∃ rn rn' cs, (loneVoter.run [.event .campaign]).node = some rn
        ∧ rn.applyConfChange addSecondVoter = .ok (rn', cs) ∧ rn'.hasReady = true)
      ∧ ∃ rd rn, (loneVoter.loop [.event .campaign, .event .tick]).rd = some rd
        ∧ (loneVoter.loop [.event .campaign, .event .tick]).host.node = some rn
        ∧ rn.readyWithoutAccept = .ok rd := by
  have prepared : loneVoter.Prepared firstLog :=
    ⟨⟨[], ⟨Nat.le_refl _, rfl, rfl⟩, .nil⟩, Nat.le_refl _⟩
  have before : (loneVoter.run [.event .campaign]).node.map (fun rn => (rn.hasReady,
      (rn.applyConfChange addSecondVoter).toOption.isSome)) = some (true, true) := by
    decide +kernel
  have after : (loneVoter.run [.event .campaign, .event .tick]).node.isSome := by decide +kernel
  have offers : (loneVoter.loop [.event .campaign, .event .tick]).rd.isSome
      ∧ (loneVoter.loop [.event .campaign, .event .tick]).host.node.isSome := by
    decide +kernel
  obtain ⟨stays, _, changes, current⟩ :=
    Launch.hasReady_stable firstLog_matched prepared (.inr (by decide))
  obtain ⟨rn, node, ready⟩ := Option.map_eq_some_iff.mp before
  obtain ⟨ready, applied⟩ := Prod.mk.inj ready
  refine ⟨?_, ?_, ?_⟩
  · obtain ⟨rn', node'⟩ := Option.isSome_iff_exists.mp after
    refine ⟨rn', node', stays [.event .campaign] [.event .tick] rn rn' (by decide +kernel) ?_ node
      ready node'⟩
    simp
  · obtain ⟨⟨rn', cs⟩, applied⟩ := Option.isSome_iff_exists.mp applied
    have applied : rn.applyConfChange addSecondVoter = .ok (rn', cs) := by
      cases result : rn.applyConfChange addSecondVoter with
      | error p =>
          rw [result] at applied
          cases applied
      | ok res =>
          rw [result] at applied
          cases applied
          rfl
    exact ⟨rn, rn', cs, node, applied,
      changes [.event .campaign] rn rn' _ cs (by decide +kernel) node ready applied⟩
  · obtain ⟨rd, offered⟩ := Option.isSome_iff_exists.mp offers.1
    obtain ⟨rn', node'⟩ := Option.isSome_iff_exists.mp offers.2
    exact ⟨rd, rn', offered, node', current _ rd rn' (by decide +kernel) offered node'⟩

end EtcdRaft
