import EtcdRaft.Reads.Confirmations
import EtcdRaft.Runs.ApplyBudget
import EtcdRaft.Runs.Configurations
import EtcdRaft.Runs.Services

/-! Reads that a quorum has confirmed do not wait at a leader, as long as its
configuration changes only while no read is unconfirmed, and no read is registered where
the leader alone is a quorum: only an answer to a heartbeat makes the leader look for
reads that are confirmed.
-/

namespace EtcdRaft

-----------------------------------------------------------------------------------------
-- Acknowledged positions
-----------------------------------------------------------------------------------------

/-- No more is committed than some member has acknowledged. -/
theorem JointConfig.committedIndex_le_of_acks {c : JointConfig} {l : AckedIndexer}
    {k : Nat} (voters : c.incoming.size ≠ 0) (bound : ∀ id n, l id = some n → n ≤ k)
    : c.committedIndex l ≤ k := by
  rcases Nat.eq_zero_or_pos (c.committedIndex l) with zero | positive
  · exact zero ▸ Nat.zero_le k
  · obtain ⟨id, n, found, reached⟩ := exists_of_committedIndex voters positive
    exact reached.trans (bound id n found)

/-- Once a member has acknowledged as much as any other, it commits nothing by
acknowledging more, unless it alone is a quorum.
-/
theorem JointConfig.committedIndex_le_of_raise {c : JointConfig} {l l' : AckedIndexer}
    {own : Nat} (voters : c.incoming.size ≠ 0) (several : ¬c.Agrees (· == own))
    (same : ∀ id, id ≠ own → l' id = l id)
    (most : ∀ id n, l id = some n → n ≤ (l own).getD 0)
    (fits : ∀ id n, l' id = some n → n ≤ maxUint64)
    : c.committedIndex l' ≤ c.committedIndex l := by
  by_contra above
  have above : c.committedIndex l < c.committedIndex l' := Nat.lt_of_not_le above
  obtain ⟨id, n, found, reached⟩ :=
    exists_of_committedIndex voters (Nat.zero_lt_of_lt above)
  have fits : c.committedIndex l' ≤ maxUint64 := reached.trans (fits id n found)
  have agrees :=
    (le_committedIndex_iff_agrees l' (Nat.zero_lt_of_lt above) fits).mp (Nat.le_refl _)
  generalize c.committedIndex l' = k at above agrees fits
  rcases Nat.lt_or_ge ((l own).getD 0) k with lower | higher
  · -- only the member itself has acknowledged so much
    refine several (agrees.mono fun id _ acked => ?_)
    by_contra other
    have other : id ≠ own := by simpa using other
    obtain ⟨n, found, reached⟩ := (Option.any_eq_true _ _).mp acked
    have bound := most id n (same id other ▸ found)
    have reached := of_decide_eq_true reached
    omega
  · refine absurd ((le_committedIndex_iff_agrees l (Nat.zero_lt_of_lt above) fits).mpr ?_)
      (Nat.not_le.mpr above)
    refine agrees.mono fun id _ acked => ?_
    by_cases self : id = own
    · subst self
      cases found : l id with
      | none =>
          rw [found] at higher
          simp only [Option.getD_none] at higher
          omega
      | some n =>
          rw [found] at higher
          exact (Option.any_eq_true _ _).mpr ⟨n, found, decide_eq_true higher⟩
    · unfold AckedIndexer.acks at acked ⊢
      rw [← same id self]
      exact acked

namespace ReadOnly

/-- The number of reads that have been registered. -/
def taken (ro : ReadOnly) : Nat := ro.confirmedReads + ro.unconfirmedReads.length

/-- Every acknowledged position is that of a read that has been registered, and the node
`id` has acknowledged all of them.
-/
structure Tallied (ro : ReadOnly) (id : Nat) : Prop where
  acks : ∀ peer n, ro.acks.get? peer = some n → ∃ t ≤ ro.taken, n = t % 2 ^ 64
  own : ∀ t ≤ ro.taken, t % 2 ^ 64 ≤ (ro.acks.get? id).getD 0

variable {ro ro' : ReadOnly} {id : Nat}

theorem tallied_new (option : ReadOnlyOption) (id : Nat) : (newReadOnly option).Tallied id where
  acks peer n found := by simp [newReadOnly] at found
  own t none := by
    have none : t = 0 := Nat.le_zero.mp none
    rw [none]
    exact Nat.zero_le _

theorem Tallied.le_taken (ok : ro.Tallied id) {peer n : Nat}
    (found : ro.acks.get? peer = some n)
    : n ≤ ro.taken := by
  obtain ⟨t, taken, rfl⟩ := ok.acks peer n found
  exact (Nat.mod_le _ _).trans taken

theorem Tallied.le_own (ok : ro.Tallied id) {peer n : Nat}
    (found : ro.acks.get? peer = some n)
    : n ≤ (ro.acks.get? id).getD 0 := by
  obtain ⟨t, taken, rfl⟩ := ok.acks peer n found
  exact ok.own t taken

/-- The position that a context stands for. -/
theorem recvAck_putUint64 (ro : ReadOnly) (peer t : Nat)
    : ro.recvAck peer (putUint64 t) = .ok { ro with
        acks := ro.acks.insert peer (max ((ro.acks.get? peer).getD 0) (t % 2 ^ 64)) } := by
  have some_ : (putUint64 t).length ≠ 0 := by simp [putUint64]
  unfold recvAck
  rw [if_pos some_, uint64_putUint64]
  rfl

/-- An acknowledged position is one of those that were there, or the new one. -/
theorem acks_insert {acks : IdMap Nat} {most peer t : Nat} (taken : t ≤ most)
    (ok : ∀ peer n, acks.get? peer = some n → ∃ t ≤ most, n = t % 2 ^ 64) {peer' n : Nat}
    (found : (acks.insert peer (max ((acks.get? peer).getD 0) (t % 2 ^ 64))).get? peer' = some n)
    : ∃ t ≤ most, n = t % 2 ^ 64 := by
  rw [IdMap.get?_insert] at found
  split at found
  · cases found
    rcases Nat.le_total (t % 2 ^ 64) ((acks.get? peer).getD 0) with stale | news
    · rw [Nat.max_eq_left stale]
      cases known : acks.get? peer with
      | none => exact ⟨0, Nat.zero_le _, rfl⟩
      | some n => exact ok peer n known
    · rw [Nat.max_eq_right news]
      exact ⟨t, taken, rfl⟩
  · exact ok peer' n found

/-- An acknowledgement of a read that has been registered. -/
theorem Tallied.recvAck (ok : ro.Tallied id) {peer : Nat} {ctx : List UInt8}
    (issued : ctx = [] ∨ ∃ t ≤ ro.taken, ctx = putUint64 t)
    (acked : ro.recvAck peer ctx = .ok ro')
    : ro'.Tallied id ∧ ro'.taken = ro.taken := by
  rcases issued with none | ⟨t, taken, rfl⟩
  · subst none
    cases acked
    exact ⟨ok, rfl⟩
  rw [recvAck_putUint64] at acked
  cases acked
  refine ⟨⟨fun _ _ found => acks_insert taken ok.acks found, fun t' earlier => ?_⟩, rfl⟩
  have bound := ok.own t' earlier
  rw [IdMap.get?_insert]
  split
  · rename_i same
    subst same
    exact bound.trans (Nat.le_max_left _ _)
  · exact bound

/-- A read is registered, and acknowledged by the node itself. -/
theorem Tallied.register (ok : ro.Tallied id) {commitIndex : Nat} {req : Message}
    (acked : (ro.addRequest commitIndex req).recvAck id
      (ro.addRequest commitIndex req).heartbeatCtx = .ok ro')
    : ro'.Tallied id ∧ ro'.confirmedReads = ro.confirmedReads
      ∧ ∀ peer, peer ≠ id → ro'.acks.get? peer = ro.acks.get? peer := by
  have ctx : (ro.addRequest commitIndex req).heartbeatCtx = putUint64 (ro.taken + 1) := by
    simp [addRequest, heartbeatCtx, taken, Nat.add_assoc]
  rw [ctx, recvAck_putUint64] at acked
  cases acked
  have count : (ro.addRequest commitIndex req).taken = ro.taken + 1 := by
    simp [addRequest, taken, Nat.add_assoc]
  refine ⟨⟨fun peer n found => ?_, fun t earlier => ?_⟩, rfl, fun peer other => ?_⟩
  · show ∃ t ≤ (ro.addRequest commitIndex req).taken, n = t % 2 ^ 64
    rw [count]
    refine acks_insert (Nat.le_refl _) (fun peer n found => ?_) found
    obtain ⟨t, earlier, same⟩ := ok.acks peer n found
    exact ⟨t, earlier.trans (Nat.le_succ _), same⟩
  · have earlier : t ≤ (ro.addRequest commitIndex req).taken := earlier
    rw [count] at earlier
    show t % 2 ^ 64 ≤ ((ro.acks.insert id _).get? id).getD 0
    rw [IdMap.get?_insert, if_pos rfl, Option.getD_some]
    rcases Nat.le_succ_iff.mp earlier with old | new
    · exact (ok.own t old).trans (Nat.le_max_left _ _)
    · exact new ▸ Nat.le_max_right _ _
  · show (ro.acks.insert id _).get? peer = _
    rw [IdMap.get?_insert, if_neg other]

/-- All reads that are confirmed leave the queue. -/
theorem Tallied.maybeAdvance (ok : ro.Tallied id) {voters : JointConfig}
    {reads : List ReadIndexRequest} (advanced : ro.maybeAdvance voters = .ok (ro', reads))
    : ro'.Tallied id ∧ ro'.taken = ro.taken
      ∧ voters.committedIndex ro'.acks.get? ≤ ro'.confirmedReads := by
  unfold ReadOnly.maybeAdvance at advanced
  dsimp only at advanced
  split at advanced
  · rename_i none
    cases advanced
    exact ⟨ok, rfl, none⟩
  · split at advanced
    · cases advanced
    · rename_i more inside
      cases advanced
      have count : ReadOnly.taken { ro with
          unconfirmedReads := ro.unconfirmedReads.drop
            (voters.committedIndex ro.acks.get? - ro.confirmedReads)
          confirmedReads := voters.committedIndex ro.acks.get? } = ro.taken := by
        simp only [taken, List.length_drop]
        omega
      refine ⟨⟨fun peer n found => ?_, fun t earlier => ?_⟩, count, Nat.le_refl _⟩
      · rw [count]
        exact ok.acks peer n found
      · rw [count] at earlier
        exact ok.own t earlier

end ReadOnly

-----------------------------------------------------------------------------------------
-- Leaders
-----------------------------------------------------------------------------------------

/-- The node alone is a quorum. -/
def Core.alone (c : Core) : Bool :=
  c.config.voters.voteResult (IdMap.ofList [(c.id, true)]) == .voteWon

/-- What keeps reads from being left behind while the leader handles `m`: it is not a
quorum by itself, or answers the read at once, and an answer to a heartbeat has a context
that the leader has issued.
-/
structure Core.Heeds (m : Message) (c : Core) : Prop where
  read : m.type = .msgReadIndex → c.alone = true → c.isSingleton = true
  release : m.type = .msgAppResp → c.alone = true → c.pendingReads = []
  echo : m.type = .msgHeartbeatResp → m.term = c.term
    → m.context = [] ∨ ∃ t ≤ c.readOnly.taken, m.context = putUint64 t

/-- No read that waits is confirmed. -/
structure Core.Prompt (c : Core) : Prop where
  tallied : c.readOnly.Tallied c.id
  confirmed : c.config.voters.committedIndex c.readOnly.acks.get? ≤ c.readOnly.confirmedReads

/-- Who campaigns or leads has voters, and a leader leaves no read behind. -/
structure Core.Orderly (c : Core) : Prop where
  placed : EtcdRaft.Placed c.config c.progress
  voters : c.state ≠ .stateFollower → c.config.voters.incoming.size ≠ 0
  prompt : c.state = .stateLeader → c.Prompt

/-- What holds while a node handles `m`. -/
structure Core.Attends (m : Message) (c : Core) : Prop extends c.Orderly where
  heeds : c.state = .stateLeader → c.Heeds m

theorem Core.agrees_alone {c : Core} (several : c.alone = false)
    : ¬c.config.voters.Agrees (· == c.id) := by
  intro agrees
  refine absurd (several.symm.trans (beq_iff_eq.mpr (JointConfig.voteResult_eq_voteWon.mpr ?_)))
    nofun
  refine agrees.mono fun id _ self => ?_
  have self : id = c.id := beq_iff_eq.mp self
  subst self
  simp [IdMap.ofList]

theorem Core.Heeds.of_type {m : Message} (c : Core)
    (other : m.type ≠ .msgReadIndex ∧ m.type ≠ .msgAppResp ∧ m.type ≠ .msgHeartbeatResp)
    : c.Heeds m :=
  ⟨fun type => absurd type other.1, fun type => absurd type other.2.1,
    fun type => absurd type other.2.2⟩

/-- Registering a read confirms none. -/
theorem Core.Prompt.register {c : Core} {readOnly : ReadOnly} {request : Message}
    (ok : c.Prompt)
    (voters : c.config.voters.incoming.size ≠ 0) (several : c.alone = false)
    (own : (c.readOnly.addRequest c.raftLog.committed request).recvAck c.id
      (c.readOnly.addRequest c.raftLog.committed request).heartbeatCtx = .ok readOnly)
    : { c with readOnly := readOnly }.Prompt := by
  obtain ⟨tallied, confirmed, same⟩ := ok.tallied.register own
  refine ⟨tallied, ?_⟩
  show c.config.voters.committedIndex readOnly.acks.get? ≤ readOnly.confirmedReads
  rw [confirmed]
  refine Nat.le_trans ?_ ok.confirmed
  refine JointConfig.committedIndex_le_of_raise voters (c.agrees_alone several) same
    (fun _ _ found => ok.tallied.le_own found) fun id n found => ?_
  obtain ⟨t, _, rfl⟩ := tallied.acks id n found
  unfold maxUint64
  omega

theorem Core.prompt_new {c : Core} (voters : c.config.voters.incoming.size ≠ 0)
    (none : c.readOnly = newReadOnly c.readOnly.option)
    : c.Prompt := by
  refine ⟨by rw [none]; exact ReadOnly.tallied_new _ _, ?_⟩
  refine JointConfig.committedIndex_le_of_acks voters fun id n found => ?_
  rw [none] at found
  simp [newReadOnly] at found

section

variable [Codec] {now : Nat} {m : Message} {c c' : Core}

/-- Who may campaign has voters. -/
theorem Core.MayCampaign.voters (may : c.MayCampaign)
    (placed : EtcdRaft.Placed c.config c.progress)
    : c.config.voters.incoming.size ≠ 0 := by
  obtain ⟨⟨acked, found⟩, _⟩ := may
  obtain ⟨trk, places, flags, configured⟩ := placed
  rw [configured.size_ne_zero]
  refine configured.voted.resolve_right fun none => ?_
  have flag : (places c.id).flag = some false := by
    rw [← configured.progress, ← flags, found]
    rfl
  rw [none] at flag
  cases flag

theorem Act.attends (act : Act now m c c') (ok : c.Attends m) : c'.Attends m := by
  have placed := act.placed ok.placed
  cases act with
  | becomeFollower term newer later =>
      exact ⟨⟨placed, fun state => absurd rfl state, nofun⟩, nofun⟩
  | becomePreCandidate type enabled notLeader may =>
      exact ⟨⟨placed, fun _ => may.voters ok.placed, nofun⟩, nofun⟩
  | becomeCandidate notLeader may =>
      refine ⟨⟨placed, fun _ => ?_, nofun⟩, nofun⟩
      rcases may with ⟨may, _⟩ | ⟨preCandidate, _⟩
      · exact may.voters ok.placed
      · exact ok.voters (preCandidate ▸ nofun)
  | win candidate won type =>
      have voters := ok.voters (candidate ▸ nofun)
      exact ⟨⟨placed, fun _ => voters, fun _ => Core.prompt_new voters rfl⟩,
        fun _ => .of_type _ (by rw [type]; exact ⟨nofun, nofun, nofun⟩)⟩
  | park type leads =>
      refine ⟨⟨placed, ok.voters, fun _ => { ok.prompt leads with }⟩, fun _ => ?_⟩
      refine { ok.heeds leads with release := ?_ }
      rw [type]
      nofun
  | unpark =>
      exact ⟨⟨placed, ok.voters, fun leads => { ok.prompt leads with }⟩,
        fun leads => { ok.heeds leads with release := fun _ _ => rfl }⟩
  | register leads current safe request received readOnly own source =>
      have heeds := ok.heeds leads
      have voters := ok.voters (leads ▸ nofun)
      have several : c.alone = false := by
        refine Bool.eq_false_of_not_eq_true fun alone => ?_
        rcases source with ⟨type, several⟩ | ⟨type, waits⟩
        · exact absurd (several.symm.trans (heeds.read type alone)) nofun
        · rw [heeds.release type alone] at waits
          cases waits
      refine ⟨⟨placed, ok.voters, fun _ => (ok.prompt leads).register voters several own⟩,
        fun _ => ⟨heeds.read, heeds.release, fun type => ?_⟩⟩
      rcases source with ⟨other, _⟩ | ⟨other, _⟩ <;>
      · rw [other] at type
        cases type
  | confirm type leads term safe acked acks readOnly reads advances states msgs answers =>
      have heeds := ok.heeds leads
      have issued := heeds.echo type term
      obtain ⟨tallied, same⟩ := (ok.prompt leads).tallied.recvAck issued acks
      obtain ⟨tallied, same', confirmed⟩ := tallied.maybeAdvance advances
      refine ⟨⟨placed, ok.voters, fun _ => ⟨tallied, confirmed⟩⟩,
        fun _ => ⟨heeds.read, heeds.release, fun _ _ => ?_⟩⟩
      show m.context = [] ∨ ∃ t ≤ readOnly.taken, m.context = putUint64 t
      rw [same', same]
      exact issued
  | restore type follower =>
      exact ⟨⟨placed, fun state => absurd follower state,
        fun leads => absurd (follower.symm.trans leads) nofun⟩,
        fun leads => absurd (follower.symm.trans leads) nofun⟩
  | _ => exact ⟨⟨placed, ok.voters, fun leads => { ok.prompt leads with }⟩,
      fun leads => { ok.heeds leads with }⟩

theorem Acts.attends (acts : Acts now m c c') (ok : c.Attends m) : c'.Attends m := by
  induction acts with
  | refl => exact ok
  | tail _ act ih => exact act.attends ih

theorem Steps.orderly (steps : Steps now m c c') (ok : c.Attends m) : c'.Orderly := by
  obtain ⟨c₁, acts, rfl | ⟨c₂, appends, new, rfl, _⟩⟩ := steps
  · exact (Acts.attends acts ok).toOrderly
  · obtain ⟨leads, es, nonempty, index, proposal, source, raftLog, appends⟩ := appends
    have ok := (Acts.attends acts ok).toOrderly
    exact ⟨ok.placed, ok.voters, fun leads => { ok.prompt leads with }⟩

-----------------------------------------------------------------------------------------
-- Services
-----------------------------------------------------------------------------------------

variable {L : Nat → List Entry} {d : Version} {σ : Setup} {id : Nat} {async : Bool}
  {h h' : Host}
  {rn rn' : RawNode}

omit [Codec] in
/-- With no read that waits, the configuration may change. -/
theorem Core.Orderly.configure {r : Raft} {cc : ConfChangeV2} {cfg : TrackerConfig}
    {progress : ProgressMap} (ok : r.core.Orderly)
    (settled : r.state = .stateLeader → r.readOnly.unconfirmedReads = [])
    (changed : r.changedConfig cc = .ok (cfg, progress))
    : { r.core with config := cfg, progress := progressOf progress }.Orderly := by
  obtain ⟨op, run⟩ := r.changedConfig_run changed
  have voters (state : r.state ≠ .stateFollower) : cfg.voters.incoming.size ≠ 0 :=
    Operation.voters (ok.voters state) run
  refine ⟨r.changedConfig_placed ok.placed changed, voters, fun leads => ?_⟩
  have leads : r.state = .stateLeader := leads
  have tallied := (ok.prompt leads).tallied
  have all : r.readOnly.taken = r.readOnly.confirmedReads := by
    unfold ReadOnly.taken
    rw [settled leads]
    rfl
  refine ⟨tallied, JointConfig.committedIndex_le_of_acks (voters (leads ▸ nofun))
    fun id n found => ?_⟩
  exact all ▸ tallied.le_taken found

namespace Host

/-- No service leaves a read behind: the leader heeds the message that it handles, and the
application does not change the configuration while a read is unconfirmed.
-/
def Heeds (h : Host) (s : Service) : Prop :=
  ∀ rn ∈ h.node, rn.raft.state = .stateLeader →
    (∀ m ∈ h.handled rn s, rn.raft.core.Heeds m)
    ∧ (s.calls = true → ∀ e ∈ h.nextEntry, e.isConfChange = true
      → rn.raft.readOnly.unconfirmedReads = [])

theorem Driven.orderly {s : Service} (driven : Driven async h s h' rn rn')
    (node : h.node = some rn) (heeds : h.Heeds s) (ok : rn.raft.core.Orderly)
    : rn'.raft.core.Orderly := by
  have heeds := heeds rn node
  cases driven with
  | quiet books reads advances =>
      have config : rn'.raft.trk.config = rn.raft.trk.config :=
        congrArg Books.config books
      have progress : rn'.raft.trk.progress = rn.raft.trk.progress :=
        congrArg Books.progress books
      have state : rn'.raft.state = rn.raft.state := congrArg Books.state books
      have own : rn'.raft.id = rn.raft.id := congrArg Books.id books
      refine ⟨?_, ?_, ?_⟩
      · show EtcdRaft.Placed rn'.raft.trk.config (progressOf rn'.raft.trk.progress)
        rw [config, progress]
        exact ok.placed
      · show rn'.raft.state ≠ _ → rn'.raft.trk.config.voters.incoming.size ≠ 0
        rw [state, config]
        exact ok.voters
      · intro leads
        obtain ⟨tallied, confirmed⟩ := ok.prompt (state.symm.trans leads)
        refine ⟨?_, ?_⟩
        · show rn'.raft.readOnly.Tallied rn'.raft.id
          rw [reads, own]
          exact tallied
        · show rn'.raft.trk.config.voters.committedIndex rn'.raft.readOnly.acks.get?
            ≤ rn'.raft.readOnly.confirmedReads
          rw [reads, config]
          exact confirmed
  | step handled remote termed steps =>
      obtain ⟨now, steps⟩ := Raft.exists_steps termed steps
      exact steps.orderly ⟨ok, fun leads => (heeds leads).1 _ handled⟩
  | tick clock ticks =>
      exact (Acts.attends (Raft.acts_tick ticks)
        ⟨ok, fun _ => .of_type _ ⟨nofun, nofun, nofun⟩⟩).toOrderly
  | change calls applied =>
      obtain ⟨cfg, progress, changed, acts⟩ := Raft.acts_applyConfChange applied
      obtain ⟨e, _, next, isChange⟩ := calls.2.exists_next
      have ok :=
        ok.configure (fun leads => (heeds leads).2 calls.1 e next isChange) changed
      exact (Acts.attends acts ⟨ok, fun _ => .of_type _ ⟨nofun, nofun, nofun⟩⟩).toOrderly
  | answerAppend answer popped handled =>
      obtain ⟨now, steps⟩ := Raft.exists_steps (fun _ => answer.term) handled
      exact steps.orderly
        ⟨ok, fun _ => .of_type _ (by rw [answer.type]; exact ⟨nofun, nofun, nofun⟩)⟩
  | answerApply answer queued idle handled =>
      obtain ⟨now, steps⟩ := Raft.exists_steps (by rw [answer.type]; nofun) handled
      exact steps.orderly
        ⟨ok, fun _ => .of_type _ (by rw [answer.type]; exact ⟨nofun, nofun, nofun⟩)⟩

end Host

namespace Launch

variable {x : Launch} {services : List Service}

omit [Codec] in
theorem Up.orderly (up : x.Up rn h) : rn.raft.core.Orderly := by
  have state := up.started.state
  exact ⟨up.placed, fun other => absurd state other,
    fun leads => absurd (state.symm.trans leads) nofun⟩

/-- No read that a quorum has confirmed waits at a leader. -/
theorem confirmed_reads_answered (logs : ∀ t, Matched L (L t)) (prepared : x.Prepared L)
    (served : Host.Served x.setup x.id
      (fun h s => h.Accepts L x.setup x.id s ∧ h.Heeds s) x.host services)
    (node : (x.serve services).node = some rn) (leads : rn.raft.state = .stateLeader)
    : rn.raft.trk.config.voters.committedIndex rn.raft.readOnly.acks.get?
      ≤ rn.raft.readOnly.confirmedReads := by
  obtain ⟨d, _, start⟩ := host_ordered prepared
  obtain ⟨_, orderly⟩ := serve_invariant (p := fun _ rn => rn.raft.core.Orderly) logs start served
    (fun _ _ => And.left) (fun _ up => up.orderly) <| by
      rintro h s rn rn' ordered ⟨accepts, heeds⟩ node node' orderly
      exact (accepts.driven ordered node node').orderly node heeds orderly
  exact ((orderly rn node).prompt leads).confirmed

end Launch

instance (m : Message) (c : Core) : Decidable (c.Heeds m) :=
  decidable_of_iff
    ((m.type = .msgReadIndex → c.alone = true → c.isSingleton = true)
      ∧ (m.type = .msgAppResp → c.alone = true → c.pendingReads = [])
      ∧ (m.type = .msgHeartbeatResp → m.term = c.term
        → m.context = [] ∨ ∃ t ≤ c.readOnly.taken, m.context = putUint64 t))
    ⟨fun ⟨read, release, echo⟩ => ⟨read, release, echo⟩,
      fun heeds => ⟨heeds.read, heeds.release, heeds.echo⟩⟩

instance (h : Host) (s : Service) : Decidable (h.Heeds s) :=
  inferInstanceAs (Decidable (∀ rn ∈ h.node, rn.raft.state = .stateLeader →
    (∀ m ∈ h.handled rn s, rn.raft.core.Heeds m)
    ∧ (s.calls = true → ∀ e ∈ h.nextEntry, e.isConfChange = true
      → rn.raft.readOnly.unconfirmedReads = [])))

end

attribute [local instance] Codec.wire

/-- A leader of three voters commits its first entry and is asked for a read; a follower
answers the heartbeat that it sends then.
-/
def confirmedRead : List Service := [
  .input (.event .campaign), .input (.event .ready), .input (.event .persist),
  .input (.receive { type := .msgVoteResp, toId := 1, fromId := 2, term := 1 }),
  .input (.receive { type := .msgVoteResp, toId := 1, fromId := 3, term := 1 }),
  .input (.receive { type := .msgAppResp, toId := 1, fromId := 2, term := 1, index := 1 }),
  .input (.receive { type := .msgAppResp, toId := 1, fromId := 3, term := 1, index := 1 }),
  .input (.event (.readIndex [9])),
  .input (.receive {
    type := .msgHeartbeatResp, toId := 1, fromId := 2, term := 1, context := putUint64 1 })]

theorem confirmed_reads_answered_confirmedRead
    : ∃ rn, (replica.serve confirmedRead).node = some rn ∧ rn.raft.readOnly.confirmedReads = 1
      ∧ rn.raft.trk.config.voters.committedIndex rn.raft.readOnly.acks.get? ≤ 1 := by
  have state : (replica.serve confirmedRead).node.map (fun rn =>
      (rn.raft.state, rn.raft.readOnly.confirmedReads)) = some (.stateLeader, 1) := by
    decide +kernel
  obtain ⟨rn, node, state⟩ := Option.map_eq_some_iff.mp state
  simp only [Prod.mk.injEq] at state
  have prepared : replica.Prepared firstLog :=
    ⟨⟨[], ⟨Nat.le_refl _, rfl, rfl⟩, .nil⟩, Nat.le_refl _⟩
  have served : Host.Served replica.setup replica.id (fun h s =>
      h.Accepts firstLog replica.setup replica.id s ∧ h.Heeds s) replica.host confirmedRead := by
    decide +kernel
  have bound :=
    Launch.confirmed_reads_answered firstLog_matched prepared served node state.1
  exact ⟨rn, node, state.2, state.2 ▸ bound⟩

/-- The leader of the first term removes node 2. -/
def departing : Nat → List Entry
  | 1 => [
      { term := 1, index := 1 },
      { term := 1, index := 2, type := .entryConfChange, data := [0x10, 1, 0x18, 2] }]
  | _ => []

/-- The leader of two voters commits the removal of the other one. It is asked for a read
before the application handles the change, after which the leader alone is a quorum.
-/
def unnoticed : List Service := [
  .input (.event .campaign), .input (.event .ready), .input (.event .persist),
  .input (.receive { type := .msgVoteResp, toId := 1, fromId := 1, term := 1 }),
  .input (.receive { type := .msgVoteResp, toId := 1, fromId := 2, term := 1 }),
  .input (.receive {
    type := .msgProp, toId := 1, fromId := 2
    entries := [{ type := .entryConfChange, data := [0x10, 1, 0x18, 2] }] }),
  .input (.event .ready), .input (.event .persist),
  .input (.receive { type := .msgAppResp, toId := 1, fromId := 1, term := 1, index := 2 }),
  .input (.receive { type := .msgAppResp, toId := 1, fromId := 2, term := 1, index := 2 }),
  .input (.event .appendResp), .input (.event .ready), .input (.event (.readIndex [9])),
  .process true, .process true]

/-- The read is confirmed, and waits nevertheless. -/
theorem unnoticed_read
    : Host.Served pair.setup pair.id (Host.Accepts departing pair.setup pair.id) pair.host unnoticed
      ∧ ∃ rn, (pair.serve unnoticed).node = some rn ∧ rn.raft.state = .stateLeader
        ∧ rn.raft.readOnly.option = .readOnlySafe ∧ rn.raft.readOnly.unconfirmedReads.length = 1
        ∧ ¬rn.raft.trk.config.voters.committedIndex rn.raft.readOnly.acks.get?
          ≤ rn.raft.readOnly.confirmedReads := by
  refine ⟨by decide +kernel, ?_⟩
  have state : (pair.serve unnoticed).node.map (fun rn => (rn.raft.state, rn.raft.readOnly.option,
      rn.raft.readOnly.unconfirmedReads.length,
      decide (rn.raft.trk.config.voters.committedIndex rn.raft.readOnly.acks.get?
        ≤ rn.raft.readOnly.confirmedReads))) = some (.stateLeader, .readOnlySafe, 1, false) := by
    decide +kernel
  obtain ⟨rn, node, state⟩ := Option.map_eq_some_iff.mp state
  simp only [Prod.mk.injEq] at state
  exact ⟨rn, node, state.1, state.2.1, state.2.2.1, of_decide_eq_false state.2.2.2⟩

end EtcdRaft
