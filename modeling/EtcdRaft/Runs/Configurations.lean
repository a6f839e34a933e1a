import EtcdRaft.Membership.Reachable
import EtcdRaft.Runs.SoftState
import EtcdRaft.Runs.Turns

/-! The configuration of a node and the peers it tracks fit at every point of a lifetime:
each of them is a voter of one half at least, or a learner.
-/

namespace EtcdRaft

/-- The configuration stands for places that agree with the learner flags of the progress
map.
-/
def Placed (cfg : TrackerConfig) (progress : Nat → Option (Nat × Bool)) : Prop :=
  ∃ trk places, (∀ id, (progress id).map Prod.snd = (trk.get? id).map Progress.isLearner)
    ∧ Configured cfg trk places

theorem progressOf_snd (progress : ProgressMap) (id : Nat)
    : (progressOf progress id).map Prod.snd
      = (progress.get? id).map Progress.isLearner := by
  simp [progressOf, Option.map_map, Function.comp_def]

theorem Configured.placed {cfg : TrackerConfig} {trk : ProgressMap} {places : Places}
    (ok : Configured cfg trk places)
    : Placed cfg (progressOf trk) :=
  ⟨trk, places, progressOf_snd trk, ok⟩

namespace Placed

variable {cfg : TrackerConfig} {progress progress' : Nat → Option (Nat × Bool)}

theorem congr (ok : Placed cfg progress)
    (same : ∀ id, (progress' id).map Prod.snd = (progress id).map Prod.snd)
    : Placed cfg progress' := by
  obtain ⟨trk, places, flags, configured⟩ := ok
  exact ⟨trk, places, fun id => (same id).trans (flags id), configured⟩

/-- The places of the tracked peers themselves. -/
theorem configured {trk : ProgressMap} (ok : Placed cfg (progressOf trk))
    : ∃ places, Configured cfg trk places := by
  obtain ⟨trk', places, flags, configured⟩ := ok
  refine ⟨places, { configured with progress := fun id => ?_ }⟩
  rw [← progressOf_snd, flags]
  exact configured.progress id

/-- A peer that is no learner is a voter. -/
theorem mem_ids (ok : Placed cfg progress) {id acked : Nat}
    (found : progress id = some (acked, false))
    : id ∈ cfg.voters.ids.keys := by
  obtain ⟨trk, places, flags, configured⟩ := ok
  have flag : (places id).flag = some false := by
    rw [← configured.progress, ← flags, found]
    rfl
  rw [← IdMap.contains_iff, JointConfig.contains_ids, configured.incoming, configured.outgoing]
  cases place : places id <;> rw [place] at flag <;> first | rfl | cases flag

end Placed

/-- A chain of successful calls. -/
theorem chain_configured {chg chg' : Changer} {places : Places}
    (ok : Configured chg.tracker.config chg.tracker.progress places)
    {ops : List Operation} (done : chain chg (ops.map Operation.run) = .ok chg')
    : ∃ places', Configured chg'.tracker.config chg'.tracker.progress places' := by
  induction ops generalizing chg places with
  | nil =>
      cases done
      exact ⟨places, ok⟩
  | cons op rest ih =>
      unfold EtcdRaft.chain at done ih
      rw [List.map_cons, List.foldlM_cons] at done
      obtain ⟨next, first, done⟩ := except_bind_eq_ok.mp done
      obtain ⟨⟨cfg, trk⟩, changed, same⟩ := except_bind_eq_ok.mp first
      cases same
      obtain ⟨places', ok'⟩ := op.configured ok changed
      exact ih ok' done

/-- What a `ConfState` describes. -/
theorem restoreConf_placed {chg : Changer} {cs : ConfState} {cfg : TrackerConfig}
    {progress : ProgressMap}
    (blank : chg.tracker.config = {} ∧ chg.tracker.progress = .empty)
    (restored : restoreConf chg cs = .ok (cfg, progress))
    : Placed cfg (progressOf progress) := by
  have empty : Configured chg.tracker.config chg.tracker.progress fun _ => .absent := by
    rw [blank.1, blank.2]
    exact .empty
  have simples (ccs : List ConfChangeSingle)
      : ccs.map (fun cc chg => Changer.simple chg [cc])
        = (ccs.map fun cc => Operation.simple [cc]).map Operation.run := by
    rw [List.map_map]
    rfl
  have exists_ops : ∃ (ops : List Operation) (chg' : Changer),
      chain chg (ops.map Operation.run) = .ok chg'
        ∧ cfg = chg'.tracker.config ∧ progress = chg'.tracker.progress := by
    unfold restoreConf at restored
    dsimp only at restored
    split at restored
    · obtain ⟨chg', chained, same⟩ := except_bind_eq_ok.mp restored
      cases same
      rw [simples] at chained
      exact ⟨_, chg', chained, rfl, rfl⟩
    · obtain ⟨chg', chained, same⟩ := except_bind_eq_ok.mp restored
      cases same
      rw [simples] at chained
      refine ⟨((toConfChangeSingle cs).1.map fun cc => Operation.simple [cc])
        ++ [.enterJoint cs.autoLeave (toConfChangeSingle cs).2], chg', ?_, rfl, rfl⟩
      rw [List.map_append]
      exact chained
  obtain ⟨ops, chg', chained, rfl, rfl⟩ := exists_ops
  obtain ⟨places, ok⟩ := chain_configured empty chained
  exact ok.placed

section

variable [Codec] {now : Nat} {m : Message} {c c' : Core}

-----------------------------------------------------------------------------------------
-- Steps
-----------------------------------------------------------------------------------------

omit [Codec] in
theorem acknowledge_snd (progress : Nat → Option (Nat × Bool)) (peer index id : Nat)
    : (acknowledge progress peer index id).map Prod.snd = (progress id).map Prod.snd := by
  unfold acknowledge
  split
  · rename_i same
    rw [same, Option.map_map]
    rfl
  · rfl

omit [Codec] in
theorem Core.reset_snd (c : Core) (term id : Nat)
    : ((c.reset term).progress id).map Prod.snd = (c.progress id).map Prod.snd := by
  unfold Core.reset
  dsimp only
  rw [Option.map_map]
  rfl

theorem Act.placed (act : Act now m c c') (ok : Placed c.config c.progress)
    : Placed c'.config c'.progress := by
  cases act with
  | becomeFollower term => exact ok.congr (c.reset_snd term)
  | becomeCandidate => exact ok.congr (c.reset_snd (c.term + 1))
  | win => exact ok.congr (c.reset_snd c.term)
  | acknowledged => exact ok.congr (acknowledge_snd _ _ _)
  | restore type follower term newer lacks chg blank cfg progress config =>
      exact restoreConf_placed blank config
  | _ => exact ok

theorem Steps.placed (steps : Steps now m c c') (ok : Placed c.config c.progress)
    : Placed c'.config c'.progress := by
  obtain ⟨c₁, acts, rest⟩ := steps
  have acted : Placed c₁.config c₁.progress := by
    clear rest
    induction acts with
    | refl => exact ok
    | tail _ act ih => exact act.placed ih
  rcases rest with rfl | ⟨c₂, appends, new, rfl, _⟩
  · exact acted
  · obtain ⟨leads, es, nonempty, index, proposal, source, raftLog, appends⟩ := appends
    exact acted

omit [Codec] in
/-- A change of the configuration is one of the operations on it. -/
theorem Raft.changedConfig_run {r : Raft} {cc : ConfChangeV2} {cfg : TrackerConfig}
    {progress : ProgressMap} (changed : r.changedConfig cc = .ok (cfg, progress))
    : ∃ op : Operation,
      op.run { tracker := r.trk, lastIndex := r.raftLog.lastIndex } = .ok (cfg, progress) := by
  have run (op : Operation)
      (changed : orPanic (op.run { tracker := r.trk, lastIndex := r.raftLog.lastIndex })
        = .ok (cfg, progress))
      : op.run { tracker := r.trk, lastIndex := r.raftLog.lastIndex } = .ok (cfg, progress) := by
    cases result : op.run { tracker := r.trk, lastIndex := r.raftLog.lastIndex } with
    | error err =>
        rw [result] at changed
        cases changed
    | ok res =>
        rw [result] at changed
        cases changed
        rfl
  unfold Raft.changedConfig at changed
  dsimp only at changed
  split at changed
  · exact ⟨.leaveJoint, run .leaveJoint changed⟩
  · split at changed
    · cases changed
    · exact ⟨_, run (.enterJoint _ _) changed⟩
    · exact ⟨_, run (.simple _) changed⟩

omit [Codec] in
/-- What a configuration change leads to. -/
theorem Raft.changedConfig_placed {r : Raft} {cc : ConfChangeV2} {cfg : TrackerConfig}
    {progress : ProgressMap} (ok : Placed r.trk.config (progressOf r.trk.progress))
    (changed : r.changedConfig cc = .ok (cfg, progress))
    : Placed cfg (progressOf progress) := by
  obtain ⟨places, configured⟩ := ok.configured
  obtain ⟨op, run⟩ := r.changedConfig_run changed
  obtain ⟨places', configured'⟩ := op.configured configured run
  exact configured'.placed

/-- The configuration of the node and the peers it tracks fit. -/
def Raft.Placed (r : Raft) : Prop := EtcdRaft.Placed r.trk.config (progressOf r.trk.progress)

theorem Raft.Called.placed {r r' : Raft} {changes : Prop} (called : r.Called changes m r')
    (termed : m.type.termed = true → m.term ≠ 0) (ok : r.Placed)
    : r'.Placed := by
  cases called with
  | step steps =>
      obtain ⟨now, steps⟩ := Raft.exists_steps termed steps
      exact steps.placed ok
  | tick ticks => exact (Steps.of_acts (Raft.acts_tick ticks)).placed ok
  | applyConfChange applied =>
      obtain ⟨cfg, progress, changed, acts⟩ := Raft.acts_applyConfChange applied
      exact (Steps.of_acts acts).placed (Raft.changedConfig_placed ok changed)

-----------------------------------------------------------------------------------------
-- Lifetimes
-----------------------------------------------------------------------------------------

theorem Host.Turns.placed {takes changes : Prop} {async : Bool} {arrives : Message → Prop}
    {h h' : Host} {rn rn' : RawNode}
    (turns : Turns takes changes async arrives h rn h' rn') (ok : rn.raft.Placed)
    : rn'.raft.Placed := by
  cases turns with
  | rest => exact ok
  | call called remote termed => exact called.placed termed ok
  | answerAppend answer handled =>
      exact (Raft.called_step handled).placed (fun _ => answer.term) ok
  | answerApply answer handled =>
      refine (Raft.called_step handled).placed ?_ ok
      rw [answer.type]
      nofun
  | ready taken => cases taken <;> exact ok
  | persist => exact ok
  | createSnapshot => exact ok
  | compact => exact ok

omit [Codec] in
/-- A node that is no learner and tracks itself has voters to turn to. -/
theorem Raft.Placed.hasVoters {r : Raft} (ok : r.Placed) : r.HasVoters := by
  intro promotable none
  rw [Raft.promotable_eq, Bool.and_eq_true] at promotable
  have voter := promotable.1
  cases found : r.core.progress r.id with
  | none =>
      rw [found] at voter
      cases voter
  | some pr =>
      obtain ⟨acked, isLearner⟩ := pr
      rw [found] at voter
      cases isLearner with
      | true => cases voter
      | false =>
          have member := ok.mem_ids found
          rw [none] at member
          cases member

omit [Codec] in
theorem Started.placed {c : Config} {r : Raft} (started : Started c r) : r.Placed := by
  obtain ⟨chg, progress, config, empty, restored, flags⟩ := started.config
  refine (restoreConf_placed ⟨config, empty⟩ restored).congr fun id => ?_
  rw [progressOf_snd, progressOf_snd]
  exact flags id

namespace Launch

omit [Codec] in
theorem Up.placed {x : Launch} {rn : RawNode} {h : Host} (up : x.Up rn h) : rn.raft.Placed :=
  up.started.placed

end Launch

end

end EtcdRaft
