import EtcdRaft.Runs.FlowControl

/-! A peer that waits for a snapshot. The comments on the fields of `Progress` say that
the next index and the sent commit index are then those of the snapshot. This holds as
long as the leader sends no heartbeat meanwhile, and no late answer of the peer moves the
next index.
-/

namespace EtcdRaft

/-- What the comments on the fields say about a peer in `StateSnapshot`. -/
def Progress.Awaits (pr : Progress) : Prop :=
  pr.state = .stateSnapshot → pr.next = pr.pendingSnapshot + 1 ∧ pr.sentCommit = pr.pendingSnapshot

/-- The answer `m` of a peer that waits for a snapshot does not move the next index: it
neither rejects the index of the snapshot, nor acknowledges a later one that the leader
has compacted.
-/
structure Progress.Unshaken (pr : Progress) (firstIndex : Nat) (m : Message) : Prop where
  rejects : m.reject = true → m.index = pr.pendingSnapshot → pr.match = pr.pendingSnapshot
  accepts : m.reject = false → pr.pendingSnapshot < m.index → firstIndex ≤ m.index + 1

instance (pr : Progress) (firstIndex : Nat) (m : Message) : Decidable (pr.Unshaken firstIndex m) :=
  decidable_of_iff ((m.reject = true → m.index = pr.pendingSnapshot → pr.match = pr.pendingSnapshot)
      ∧ (m.reject = false → pr.pendingSnapshot < m.index → firstIndex ≤ m.index + 1))
    ⟨fun ⟨rejects, accepts⟩ => ⟨rejects, accepts⟩, fun ⟨rejects, accepts⟩ => ⟨rejects, accepts⟩⟩

namespace Progress.Awaits

variable {pr pr' : Progress} {r : Raft} {m : Message}

theorem of_state (state : pr.state ≠ .stateSnapshot) : pr.Awaits := fun waits => absurd waits state

theorem congr (awaits : pr.Awaits) (state : pr'.state = pr.state)
    (next : pr'.next = pr.next) (sentCommit : pr'.sentCommit = pr.sentCommit)
    (pendingSnapshot : pr'.pendingSnapshot = pr.pendingSnapshot)
    : pr'.Awaits := by
  unfold Awaits
  rw [state, next, sentCommit, pendingSnapshot]
  exact awaits

theorem sentEntries {n bytes : Nat} (awake : pr.isPaused = false)
    (sent : pr.sentEntries n bytes = .ok pr')
    : pr'.state ≠ .stateSnapshot := by
  have state : pr.state ≠ .stateSnapshot := by
    intro waits
    unfold isPaused at awake
    rw [waits] at awake
    cases awake
  have same : pr'.state = pr.state := by
    unfold Progress.sentEntries at sent
    split at sent
    · split at sent
      · obtain ⟨inflights, _, eq⟩ := except_bind_eq_ok.mp sent
        cases eq
        rfl
      · cases sent
        rfl
    · cases sent
      split <;> rfl
    · cases sent
  rwa [same]

/-- An acknowledgement ends the wait, or it is not later than the snapshot. -/
theorem afterAck (awaits : pr.Awaits)
    (unshaken : pr.state = .stateSnapshot → pr.Unshaken r.raftLog.firstIndex m)
    (accepts : m.reject = false)
    (news : pr.match < m.index ∨ (pr.match = m.index ∧ pr.state = .stateProbe))
    (after : r.progressAfterAck m (pr.maybeUpdate m.index).1 = .ok pr')
    : pr'.Awaits := by
  have state := pr.maybeUpdate_state m.index
  by_cases waits : pr.state = .stateSnapshot
  · have news : pr.match < m.index := news.resolve_right fun old =>
      absurd (waits.symm.trans old.2) nofun
    have updated : (pr.maybeUpdate m.index).1
        = { pr with
            «match» := m.index
            next := max pr.next (m.index + 1)
            msgAppFlowPaused := false } := by
      unfold Progress.maybeUpdate
      rw [if_neg (Nat.not_le.mpr news)]
    rw [updated] at after
    unfold Raft.progressAfterAck at after
    dsimp only at after
    rw [if_neg (by simp [waits])] at after
    split at after
    · cases after
      exact of_state nofun
    · rename_i behind
      rw [if_neg (by simp [waits])] at after
      cases after
      intro _
      obtain ⟨next, sentCommit⟩ := awaits waits
      have known : m.index ≤ pr.pendingSnapshot := by
        by_contra later
        exact behind ⟨waits, (unshaken waits).accepts accepts (Nat.not_le.mp later)⟩
      refine ⟨?_, sentCommit⟩
      show max pr.next (m.index + 1) = pr.pendingSnapshot + 1
      omega
  · refine of_state ?_
    rcases Raft.progressAfterAck_state after with same | streams
    · rwa [same, state]
    · rw [streams]
      nofun

/-- A rejection is stale, or the peer is known to have the snapshot. -/
theorem maybeDecrTo {hint : Nat} (awaits : pr.Awaits)
    (unshaken : pr.state = .stateSnapshot → m.index = pr.pendingSnapshot
      → pr.match = pr.pendingSnapshot)
    (decreased : pr.maybeDecrTo m.index hint = (pr', true))
    : (if pr'.state = .stateReplicate then pr'.becomeProbe else pr').Awaits := by
  by_cases waits : pr.state = .stateSnapshot
  · obtain ⟨next, sentCommit⟩ := awaits waits
    unfold Progress.maybeDecrTo at decreased
    rw [if_neg (by simp [waits])] at decreased
    split at decreased
    · cases decreased
    · rename_i current
      cases decreased
      rw [if_neg (by simp [waits])]
      intro _
      have index : m.index = pr.pendingSnapshot := by omega
      have known := unshaken waits index
      constructor
      · show max (min m.index (add64 hint 1)) (pr.match + 1) = pr.pendingSnapshot + 1
        omega
      · show min pr.sentCommit (max (min m.index (add64 hint 1)) (pr.match + 1) - 1)
            = pr.pendingSnapshot
        omega
  · have same : pr'.state = pr.state := by
      unfold Progress.maybeDecrTo at decreased
      split at decreased <;> split at decreased <;> cases decreased <;> rfl
    refine of_state ?_
    split
    · nofun
    · rwa [same]

end Progress.Awaits

-----------------------------------------------------------------------------------------
-- Duties
-----------------------------------------------------------------------------------------

namespace Books

variable [Codec] {heard : Message → Prop} {beats : ProgressState → Prop} {changes : Prop}
  {b b' : Books} {id : Nat} {pr pr' : Progress}

theorem Tends.awaits (tends : b.Tends heard beats id pr pr')
    (calm : ¬beats .stateSnapshot)
    (unshaken : pr.state = .stateSnapshot → ∀ m, heard m → m.type = .msgAppResp → m.fromId = id
      → pr.Unshaken b.raftLog.firstIndex m)
    (awaits : pr.Awaits)
    : pr'.Awaits := by
  cases tends with
  | active => exact awaits.congr rfl rfl rfl rfl
  | resume => exact awaits.congr rfl rfl rfl rfl
  | @send prevTerm ents pr' awake prev read sent =>
      have state : pr'.state ≠ .stateSnapshot := Progress.Awaits.sentEntries awake sent
      exact .of_state state
  | snapshot awake active missing => exact fun _ => ⟨rfl, rfl⟩
  | heartbeat may => exact .of_state fun waits => calm (waits ▸ may)
  | ack hears type sender accepts news log after =>
      refine awaits.afterAck (fun waits => ?_) accepts news after
      rw [log]
      exact unshaken waits _ hears type sender
  | reject hears type sender rejects decreased =>
      exact awaits.maybeDecrTo
        (fun waits => (unshaken waits _ hears type sender).rejects rejects) decreased
  | snapStatus hears type sender waits =>
      refine .of_state ?_
      show (if _ then { pr with pendingSnapshot := 0 }.becomeProbe else pr.becomeProbe).state ≠ _
      split <;> nofun
  | unreachable hears type sender replicates => exact .of_state nofun

/-- Every peer that waits for a snapshot. -/
def Awaits (b : Books) : Prop := ∀ id pr, b.progress.get? id = some pr → pr.Awaits

omit [Codec] in
theorem Awaits.setProgress (awaits : b.Awaits) (peer : pr.Awaits)
    : (b.setProgress id pr).Awaits := by
  intro key pr' found
  have found : (b.progress.insert id pr).get? key = some pr' := found
  rw [IdMap.get?_insert] at found
  split at found
  · cases found
    exact peer
  · exact awaits key pr' found

/-- A duty without an answer of a peer. -/
theorem Duty.awaits (duty : Duty heard beats changes b b')
    (leads : b'.state = .stateLeader)
    (calm : ¬beats .stateSnapshot) (deaf : ∀ m, heard m → m.type ≠ .msgAppResp)
    (awaits : b.Awaits)
    : b'.Awaits := by
  cases duty with
  | tend found tends =>
      refine awaits.setProgress (tends.awaits calm (fun _ m hears type => ?_) (awaits _ _ found))
      exact absurd type (deaf m hears)
  | inactive =>
      intro id pr found
      rw [IdMap.get?_mapValues] at found
      obtain ⟨pr₀, known, rfl⟩ := Option.map_eq_some_iff.mp found
      split
      · exact (awaits id pr₀ known).congr rfl rfl rfl rfl
      · exact awaits id pr₀ known
  | stepDown follows => exact absurd leads follows
  | _ => exact awaits

theorem Awaits.duties (awaits : b.Awaits)
    (duties : Relation.ReflTransGen (Duty heard beats changes) b b')
    (leads : b'.state = .stateLeader) (calm : ¬beats .stateSnapshot)
    (deaf : ∀ m, heard m → m.type ≠ .msgAppResp)
    : b'.Awaits := by
  induction duties with
  | refl => exact awaits
  | tail _ duty ih => exact duty.awaits leads calm deaf (ih (duty.modest leads))

omit [Codec] in
/-- Nobody waits for a snapshot of a new leader. -/
theorem awaits_takenOver (b : Books) (own : Progress) : (b.takenOver own).Awaits := by
  intro id pr found
  have found : ((b.progress.mapValues b.blankProgress).insert b.id
    { (b.blankProgress b.id own).becomeReplicate with recentActive := true }).get? id
    = some pr := found
  rw [IdMap.get?_insert, IdMap.get?_mapValues] at found
  split at found
  · cases found
    exact .of_state nofun
  · obtain ⟨pr₀, _, rfl⟩ := Option.map_eq_some_iff.mp found
    exact .of_state nofun

omit [Codec] in
/-- Peers that join are probed. -/
theorem Awaits.configure {r : Raft} {cc : ConfChangeV2} {config : TrackerConfig}
    {progress : ProgressMap} (awaits : r.books.Awaits)
    (changed : r.changedConfig cc = .ok (config, progress))
    : { r.books with config := config, progress := progress }.Awaits := by
  intro id pr found
  rcases Raft.changedConfig_source changed found with ⟨pr₀, found₀, _, rfl⟩ | ⟨_, rfl⟩
  · exact (awaits id pr₀ found₀).congr rfl rfl rfl rfl
  · exact .of_state nofun

end Books

section

variable [Codec] {L : Nat → List Entry} {d : Version} {async : Bool} {p p' : Pipeline}
  {m : Message}
  {h h' : Host} {r r' : Raft} {rn rn' : RawNode} {pr : Progress}

-----------------------------------------------------------------------------------------
-- Answers of peers
-----------------------------------------------------------------------------------------

/-- A leader handles the answer of a peer. -/
theorem Raft.awaits_stepLeaderAppResp (tracked : r.trk.progress.get? m.fromId = some pr)
    (type : m.type = .msgAppResp)
    (quiet : r.pendingReadIndexMessages ≠ []
      → ∀ id pr, r.trk.progress.get? id = some pr → pr.state ≠ .stateSnapshot)
    (unshaken : pr.state = .stateSnapshot → pr.Unshaken r.raftLog.firstIndex m)
    (handled : r.stepLeaderAppResp m pr = .ok r') (leads : r'.state = .stateLeader)
    (awaits : r.books.Awaits)
    : r'.books.Awaits := by
  have active : { pr with recentActive := true }.Awaits :=
    (awaits _ _ tracked).congr rfl rfl rfl rfl
  have awaits₁ : (r.setProgress m.fromId { pr with recentActive := true }).books.Awaits :=
    awaits.setProgress active
  have calm : ¬(fun state => state ≠ ProgressState.stateSnapshot) .stateSnapshot :=
    fun no => no rfl
  have answered := (@answered_stepLeaderAppResp _ (fun _ => False) (· ≠ .stateSnapshot) False _ _ _
    tracked type fun reads => ⟨quiet reads, nofun⟩).result handled
  rcases answered with duties | ⟨pr', tends, duties⟩
  · exact awaits₁.duties duties leads calm nofun
  · have peer : pr'.Awaits := by
      refine tends.awaits not_false (fun waits m' same _ _ => ?_) active
      subst same
      obtain ⟨rejects, accepts⟩ := unshaken waits
      exact ⟨rejects, accepts⟩
    exact (awaits₁.setProgress peer).duties duties leads calm nofun

theorem Raft.awaits_stepLeader {err : Option StepError} (type : m.type = .msgAppResp)
    (quiet : r.pendingReadIndexMessages ≠ []
      → ∀ id pr, r.trk.progress.get? id = some pr → pr.state ≠ .stateSnapshot)
    (unshaken : ∀ pr, r.trk.progress.get? m.fromId = some pr → pr.state = .stateSnapshot
      → pr.Unshaken r.raftLog.firstIndex m)
    (handled : r.stepLeader m = .ok (r', err)) (leads : r'.state = .stateLeader)
    (awaits : r.books.Awaits)
    : r'.books.Awaits := by
  unfold stepLeader at handled
  simp only [type] at handled
  cases tracked : r.trk.progress.get? m.fromId with
  | none =>
      rw [tracked] at handled
      cases handled
      exact awaits
  | some pr =>
      rw [tracked] at handled
      obtain ⟨r₁, handled, eq⟩ := except_bind_eq_ok.mp handled
      cases eq
      obtain ⟨r₁, handled, eq⟩ := except_bind_eq_ok.mp handled
      cases eq
      unfold stepLeaderPeer at handled
      simp only [type] at handled
      exact awaits_stepLeaderAppResp tracked type quiet (unshaken pr tracked) handled leads awaits

namespace Host

/-- While a peer waits for a snapshot, no heartbeat is sent and no answer of it moves the
next index.
-/
def Undisturbed (h : Host) (s : Service) : Prop :=
  ∀ rn ∈ h.node, rn.raft.state = .stateLeader → ∀ peer ∈ rn.raft.trk.progress.entries,
    peer.2.state = .stateSnapshot → ¬h.Beats rn s
      ∧ ∀ m ∈ h.handled rn s, m.type = .msgAppResp → m.fromId = peer.1
        → peer.2.Unshaken rn.raft.raftLog.firstIndex m

instance (h : Host) (rn : RawNode) (s : Service) : Decidable (h.Beats rn s) :=
  inferInstanceAs (Decidable (
    (s.ticks = true ∧ rn.raft.heartbeatTimeout ≤ rn.raft.heartbeatElapsed + 1)
      ∨ ∃ m ∈ h.handled rn s, m.type = .msgBeat ∨ m.type = .msgReadIndex
        ∨ (m.type = .msgAppResp ∧ rn.raft.pendingReadIndexMessages ≠ [])))

instance (h : Host) (s : Service) : Decidable (h.Undisturbed s) :=
  inferInstanceAs (Decidable (∀ rn ∈ h.node, rn.raft.state = .stateLeader
    → ∀ peer ∈ rn.raft.trk.progress.entries, peer.2.state = .stateSnapshot → ¬h.Beats rn s
      ∧ ∀ m ∈ h.handled rn s, m.type = .msgAppResp → m.fromId = peer.1
        → peer.2.Unshaken rn.raft.raftLog.firstIndex m))

omit [Codec] in
theorem Undisturbed.peer {s : Service} {id : Nat} (undisturbed : h.Undisturbed s)
    (node : h.node = some rn) (leads : rn.raft.state = .stateLeader)
    (found : rn.raft.trk.progress.get? id = some pr) (waits : pr.state = .stateSnapshot)
    : ¬h.Beats rn s ∧ ∀ m, h.handled rn s = some m → m.type = .msgAppResp → m.fromId = id
      → pr.Unshaken rn.raft.raftLog.firstIndex m :=
  undisturbed rn node leads (id, pr) (IdMap.mem_of_get? found) waits

omit [Codec] in
theorem Undisturbed.calm {s : Service} (undisturbed : h.Undisturbed s)
    (node : h.node = some rn) (leads : rn.raft.state = .stateLeader)
    : ¬h.Beaten rn s .stateSnapshot := by
  rintro ⟨beats, streams | ⟨id, pr, found, waits⟩⟩
  · cases streams
  · exact (undisturbed.peer node leads found waits).1 beats

/-- A service of a running node. -/
theorem Driven.awaits {s : Service} (driven : Driven async h s h' rn rn')
    (sound : EtcdRaft.Sound L d async p h rn) (undisturbed : h.Undisturbed s)
    (node : h.node = some rn) (leads' : rn'.raft.state = .stateLeader)
    (ok : rn.raft.state = .stateLeader → rn.raft.books.Awaits)
    : rn'.raft.books.Awaits := by
  have conducted {heard : Message → Prop} (deaf : ∀ m, heard m → m.type ≠ .msgAppResp)
      (conducts : rn.raft.Conducts heard (h.Beaten rn s) False rn'.raft)
      : rn'.raft.books.Awaits := by
    cases conducts with
    | leads leads duties =>
        exact (ok leads).duties duties leads' (undisturbed.calm node leads) deaf
    | risen candidate found duties =>
        exact (rn.raft.books.awaits_takenOver _).duties duties leads' not_false nofun
    | other state => exact absurd leads' state
  cases driven with
  | quiet books reads advances =>
      have state : rn'.raft.state = rn.raft.state := congrArg Books.state books
      rw [books]
      exact ok (state.symm.trans leads')
  | @step m err handled remote termed steps =>
      have may (beats : rn.raft.Beats m) : rn.raft.books.Within (h.Beaten rn s) :=
        Beats.within (.inr ⟨m, handled, beats⟩)
      by_cases type : m.type = .msgAppResp
      · have conducts := @Raft.conducts_step _ (· = m) _ False _ rn.raft remote rfl may
        cases conducts.result steps with
        | leads leads duties =>
            rcases Raft.step_leads remote steps leads leads' with same | handles
            · rw [same]
              exact ok leads
            refine Raft.awaits_stepLeader type (fun reads id pr found waits => ?_)
              (fun pr found waits => ?_) handles leads' (ok leads)
            · exact (undisturbed.peer node leads found waits).1
                (.inr ⟨m, handled, .inr (.inr ⟨type, reads⟩)⟩)
            · exact (undisturbed.peer node leads found waits).2 m handled type rfl
        | risen candidate found duties =>
            exact (rn.raft.books.awaits_takenOver _).duties duties leads' not_false nofun
        | other state => exact absurd leads' state
      · have conducts := @Raft.conducts_step _ (· = m) _ False _ rn.raft remote rfl may
        refine conducted ?_ (conducts.result steps)
        rintro _ rfl
        exact type
  | tick clock ticks =>
      have conducts := @Raft.conducts_tick _ (fun _ => False) _ False rn.raft
        fun due => Beats.within (h := h) (.inl ⟨clock, due⟩)
      exact conducted nofun (conducts.result ticks)
  | change calls applied =>
      obtain ⟨leads, _, _, changed, duties⟩ := (@Raft.duties_applyConfChange _ (fun _ => False)
        (fun _ => False) rn.raft _).result applied leads'
      exact ((ok leads).configure changed).duties duties leads' not_false nofun
  | answerAppend answer popped handled =>
      obtain ⟨rest, done, _⟩ := sound.done_of_pops answer popped
      obtain ⟨l, stores, piped, duties⟩ := @Sound.duties_stored _ _ _ _ _ _ _ _ (fun _ => False)
        (fun _ => False) False _ _ _ sound done handled
      have awaits : { rn.raft.books with raftLog := l }.Awaits :=
        ok (Books.leads_of_duties duties leads')
      exact awaits.duties duties leads' not_false nofun
  | answerApply answer queued idle handled =>
      rcases @Sound.duties_applied _ _ _ _ _ _ _ _ (fun _ => False) (fun _ => False) False _ _ sound
        answer (sound.applyResps _ queued) idle handled with
        ⟨_, same⟩ | ⟨e, l, r', floor, last, applies, piped, duties, reduced⟩
      · rw [same] at leads' ⊢
        exact ok leads'
      · rw [reduced] at leads' ⊢
        have awaits : { rn.raft.books with raftLog := l }.Awaits :=
          ok (Books.leads_of_duties duties leads')
        suffices r'.books.Awaits from this
        exact awaits.duties duties leads' not_false nofun

end Host

namespace Launch

variable {x : Launch} {services : List Service}

/-- As long as a node leads and is not disturbed, every peer that waits for a snapshot is
as the comments on the fields say.
-/
theorem awaits_snapshot (logs : ∀ t, Matched L (L t)) (prepared : x.Prepared L)
    (served : Host.Served x.setup x.id
      (fun h s => h.Accepts L x.setup x.id s ∧ h.Undisturbed s) x.host services)
    (node : (x.serve services).node = some rn) (leads : rn.raft.state = .stateLeader)
    : ∀ id pr, rn.raft.trk.progress.get? id = some pr → pr.state = .stateSnapshot
      → pr.next = pr.pendingSnapshot + 1 ∧ pr.sentCommit = pr.pendingSnapshot := by
  obtain ⟨d, _, start⟩ := host_ordered prepared
  have begins (rn : RawNode) (up : x.Up rn x.host) (leads : rn.raft.state = .stateLeader)
      : rn.raft.books.Awaits := by
    cases up.started.state.symm.trans leads
  obtain ⟨_, awaits⟩ := serve_invariant
    (p := fun _ rn => rn.raft.state = .stateLeader → rn.raft.books.Awaits) logs start served
    (fun _ _ => And.left) begins <| by
      rintro h s rn rn' ordered ⟨accepts, undisturbed⟩ node node' awaits leads'
      obtain ⟨p, sound⟩ := ordered.sound rn node
      exact (accepts.driven ordered node node').awaits sound undisturbed node leads' awaits
  exact awaits rn node leads

end Launch

end

attribute [local instance] Codec.wire

/-- One of two voters, with the first entry in a snapshot. -/
def archivist : Launch :=
  { pair with
    disk := {
      hardState := { term := 1, commit := 1 }
      snapshot := {
        data := [{ term := 1, index := 1 }]
        metadata := { index := 1, term := 1, confState := { voters := [1, 2] } } }
      dummy := { term := 1, index := 1 } }
    app := [{ term := 1, index := 1 }]
    confs := [(1, { voters := [1, 2] })] }

/-- The logs of two leaders. -/
def archived : Nat → List Entry
  | 1 => [{ term := 1, index := 1 }]
  | 2 => [{ term := 1, index := 1 }, { term := 2, index := 2 }]
  | _ => []

theorem archived_matched (t : Nat) : Matched archived (archived t) :=
  match t with
  | 0 => .nil
  | 1 => .of_fin (by decide)
  | 2 => .of_fin (by decide)
  | _ + 3 => .nil

/-- The other voter has no entries. -/
def lacksEntries : Service := .input (.receive {
  type := .msgAppResp, toId := 1, fromId := 2, term := 2, index := 1, reject := true })

/-- The node is elected, and the other voter is sent the snapshot. -/
def sendsSnapshot : List Service := [
  .input (.event .campaign), .input (.event .ready), .input (.event .persist),
  .input (.receive { type := .msgVoteResp, toId := 1, fromId := 1, term := 2 }),
  .input (.receive { type := .msgVoteResp, toId := 1, fromId := 2, term := 2 }), lacksEntries]

/-- A late rejection of another index arrives while the peer waits for the snapshot. -/
def rejectsLate : Service := .input (.receive {
  type := .msgAppResp, toId := 1, fromId := 2, term := 2, index := 2, reject := true })

theorem awaits_snapshot_archivist
    : ∃ rn pr, (archivist.serve (sendsSnapshot ++ [rejectsLate])).node = some rn
      ∧ rn.raft.trk.progress.get? 2 = some pr ∧ pr.state = .stateSnapshot
      ∧ pr.pendingSnapshot = 1 ∧ pr.next = pr.pendingSnapshot + 1
      ∧ pr.sentCommit = pr.pendingSnapshot := by
  have reached : (archivist.serve (sendsSnapshot ++ [rejectsLate])).node.map (fun rn =>
      (rn.raft.state, (rn.raft.trk.progress.get? 2).map fun pr => (pr.state, pr.pendingSnapshot)))
        = some (.stateLeader, some (.stateSnapshot, 1)) := by
    decide +kernel
  obtain ⟨rn, node, reached⟩ := Option.map_eq_some_iff.mp reached
  simp only [Prod.mk.injEq] at reached
  obtain ⟨pr, found, waits⟩ := Option.map_eq_some_iff.mp reached.2
  simp only [Prod.mk.injEq] at waits
  have prepared : archivist.Prepared archived :=
    ⟨⟨archived 1, ⟨Nat.le_refl _, rfl, rfl⟩, archived_matched 1⟩, Nat.le_refl _⟩
  have served : Host.Served archivist.setup archivist.id (fun h s =>
      h.Accepts archived archivist.setup archivist.id s ∧ h.Undisturbed s) archivist.host
      (sendsSnapshot ++ [rejectsLate]) := by
    decide +kernel
  have awaits := Launch.awaits_snapshot archived_matched prepared served node reached.1 2 pr found
    waits.1
  exact ⟨rn, pr, node, found, waits.1, waits.2, awaits⟩

/-- A heartbeat that is sent meanwhile lowers the sent commit index, and another copy of
the same rejection lowers the next index.
-/
theorem awaits_snapshot_disturbed
    : Host.Served archivist.setup archivist.id (Host.Accepts archived archivist.setup archivist.id)
        archivist.host (sendsSnapshot ++ [.input (.event .tick)])
      ∧ (archivist.serve (sendsSnapshot ++ [.input (.event .tick)])).node.map (fun rn =>
          (rn.raft.state, (rn.raft.trk.progress.get? 2).map fun pr =>
            (pr.state, pr.pendingSnapshot, pr.next, pr.sentCommit)))
        = some (.stateLeader, some (.stateSnapshot, 1, 2, 0))
      ∧ Host.Served archivist.setup archivist.id
        (Host.Accepts archived archivist.setup archivist.id)
        archivist.host (sendsSnapshot ++ [lacksEntries])
      ∧ (archivist.serve (sendsSnapshot ++ [lacksEntries])).node.map (fun rn =>
          (rn.raft.state, (rn.raft.trk.progress.get? 2).map fun pr =>
            (pr.state, pr.pendingSnapshot, pr.next, pr.sentCommit)))
        = some (.stateLeader, some (.stateSnapshot, 1, 1, 0)) := by
  refine ⟨?_, ?_, ?_, ?_⟩ <;> decide +kernel

end EtcdRaft
