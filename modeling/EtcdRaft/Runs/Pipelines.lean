import EtcdRaft.Refinement.Answers
import EtcdRaft.Runs.Turns

/-! The pipeline of a node in one lifetime. The messages that arrive are those of a
cluster in which `L t` is the log of the leader of term `t`, as far as it ever grows.
-/

namespace EtcdRaft

variable {L : Nat → List Entry} {d : Version} {async : Bool} {p : Pipeline} {h h' : Host}
  {rn : RawNode}

-----------------------------------------------------------------------------------------
-- The invariant
-----------------------------------------------------------------------------------------

/-- The write that a slot of the pipeline stands for. -/
structure Write.Fills (w : Write) (s : Slot) : Prop where
  entries : w.entries = s.entries
  snapshot : w.snapshot = s.snapshot

/-- The writes of the host and the answers of the append thread are those of the pipeline.
The log is still the stored one, `d`, or that of some leader.
-/
structure Sound (L : Nat → List Entry) (d : Version) (async : Bool) (p : Pipeline)
    (h : Host)
    (rn : RawNode) : Prop where
  piped : Piped L async p rn.raft.term rn.raft.raftLog
  origin : (p.log = d.log ∧ d.term ≤ rn.raft.term) ∨ ∃ t ≤ rn.raft.term, p.log <+: L t
  writes : List.Forall₂ Write.Fills h.writes p.slots
  appended : async = true
    → p.done = h.appended ∧ p.slots.map Slot.resps = h.writes.map Write.response
  own : async = false
    → p.resps = rn.stepsOnAdvance.filter fun m => m.type == .msgStorageAppendResp
  applyResps : ∀ m ∈ h.applyResps rn, ∀ e, m.entries.getLast? = some e
    → e.index ≤ rn.raft.raftLog.applying

/-- The node of the host, if it runs, is sound. -/
def Host.Sound (L : Nat → List Entry) (d : Version) (async : Bool) (h : Host) : Prop :=
  ∀ rn, h.node = some rn → ∃ p, EtcdRaft.Sound L d async p h rn

/-- As long as the node leads, its log is a part of the log of its term. -/
def Host.Leads (L : Nat → List Entry) (h : Host) : Prop :=
  ∀ rn, h.node = some rn → rn.raft.state = .stateLeader
    → rn.raft.raftLog.logical.Within (L rn.raft.term)

/-- What arrives is right about the logs of the leaders. -/
def Input.OfLeader (L : Nat → List Entry) : Input → Prop
  | .receive m => m.Public ∧ m.OfLeader L
  | .event e => e.steady = true
  | _ => True

theorem Input.OfLeader.steady {i : Input} (source : i.OfLeader L)
    : ∀ e, i = .event e → e.steady = true := by
  rintro e rfl
  exact source

theorem Input.OfLeader.network {i : Input} (source : i.OfLeader L)
    : ∀ m, i = .receive m → m.Public ∧ m.OfLeader L := by
  rintro m rfl
  exact source

theorem Message.OfLeader.of_source {arrives : Message → Prop} {m : Message}
    (network : ∀ m, arrives m → m.OfLeader L)
    (source : m.type = .msgApp ∨ m.type = .msgSnap
      → ∃ m₀ stamp, arrives m₀ ∧ m = { m₀ with stamp := stamp })
    : m.OfLeader L := by
  refine ⟨fun app => ?_, fun snap => ?_⟩
  · obtain ⟨m₀, stamp, arrived, rfl⟩ := source (.inl app)
    exact (network m₀ arrived).app app
  · obtain ⟨m₀, stamp, arrived, rfl⟩ := source (.inr snap)
    exact (network m₀ arrived).snap snap

/-- An input in a cluster with the logs `L`. -/
def Host.Admits [Codec] (L : Nat → List Entry) (σ : Setup) (id : Nat) (h : Host) (i : Input)
    : Prop :=
  i.OfLeader L ∧ (h.input σ id i).1.Leads L

instance (m : Message) : Decidable m.Public :=
  decidable_of_iff (isLocalMsg m.type = false ∧ (m.type.termed = true → m.term ≠ 0))
    ⟨fun ⟨remote, termed⟩ => ⟨remote, termed⟩, fun ⟨remote, termed⟩ => ⟨remote, termed⟩⟩

instance (c : List Entry) (s : Snapshot) : Decidable (SnapshotOf c s) :=
  decidable_of_iff (s.metadata.index ≤ c.length ∧ s.data = c.take s.metadata.index
      ∧ s.metadata.term = termAt c s.metadata.index)
    ⟨fun ⟨within, data, term⟩ => ⟨within, data, term⟩,
      fun ⟨within, data, term⟩ => ⟨within, data, term⟩⟩

instance (L : Nat → List Entry) (m : Message) : Decidable (m.OfLeader L) :=
  decidable_of_iff ((m.type = .msgApp → m.index ≤ (L m.term).length
      ∧ m.logTerm = termAt (L m.term) m.index ∧ m.entries <+: (L m.term).drop m.index)
      ∧ (m.type = .msgSnap → SnapshotOf (L m.term) m.snap))
    ⟨fun ⟨app, snap⟩ => ⟨app, snap⟩, fun ⟨app, snap⟩ => ⟨app, snap⟩⟩

instance (L : Nat → List Entry) (i : Input) : Decidable (i.OfLeader L) :=
  match i with
  | .receive m => inferInstanceAs (Decidable (m.Public ∧ m.OfLeader L))
  | .event e => inferInstanceAs (Decidable (e.steady = true))
  | .release => inferInstanceAs (Decidable True)
  | .own => inferInstanceAs (Decidable True)

instance (L : Nat → List Entry) (h : Host) : Decidable (h.Leads L) :=
  match node : h.node with
  | none => .isTrue fun _ up => absurd (node.symm.trans up) nofun
  | some rn =>
      decidable_of_iff (rn.raft.state = .stateLeader
          → rn.raft.raftLog.logical.Within (L rn.raft.term))
        ⟨fun within _ up => Option.some.inj (node.symm.trans up) ▸ within,
          fun leads => leads rn node⟩

instance [Codec] (L : Nat → List Entry) (σ : Setup) (id : Nat) (h : Host) (i : Input)
    : Decidable (h.Admits L σ id i) :=
  inferInstanceAs (Decidable (i.OfLeader L ∧ (h.input σ id i).1.Leads L))

namespace Sound

/-- The node moves on to the log `log`. -/
theorem withLog {r : Raft} {log : List Entry} (ok : Sound L d async p h rn)
    (piped : Piped L async { p with term := r.term, log := log } r.term r.raftLog)
    (term : rn.raft.term ≤ r.term) (origin : log = p.log ∨ ∃ t ≤ r.term, log <+: L t)
    (keeps : Keeps rn.raft.raftLog r.raftLog)
    : Sound L d async { p with term := r.term, log := log } h { rn with raft := r } := by
  refine ⟨piped, ?_, ok.writes, ok.appended, ok.own, ?_⟩
  · rcases origin with same | leader
    · rw [same]
      exact ok.origin.imp (fun ⟨stored, later⟩ => ⟨stored, later.trans term⟩)
        fun ⟨t, earlier, part⟩ => ⟨t, earlier.trans term, part⟩
    · exact .inr leader
  · show ∀ m ∈ h.applyResps rn, ∀ e : Entry, _ → e.index ≤ r.raftLog.applying
    rw [keeps.applying]
    exact ok.applyResps

/-- The node moves on. -/
theorem moved {r : Raft} (ok : Sound L d async p h rn)
    (moved : Moved L async p rn.raft.core r.core)
    (keeps : Keeps rn.raft.raftLog r.raftLog)
    : ∃ p', Sound L d async p' h { rn with raft := r } := by
  obtain ⟨log, piped, origin⟩ := moved.piped
  exact ⟨_, ok.withLog piped moved.term origin keeps⟩

/-- Another host with the same writes and the same answers to come. -/
theorem requeue {steps : List Message} (ok : Sound L d async p h rn)
    (writes : h'.writes = h.writes)
    (appended : h'.appended = h.appended)
    (own : steps.filter (fun m => m.type == .msgStorageAppendResp)
      = rn.stepsOnAdvance.filter fun m => m.type == .msgStorageAppendResp)
    (applied : ∀ m ∈ h'.applyResps { rn with stepsOnAdvance := steps }, m ∈ h.applyResps rn)
    : Sound L d async p h' { rn with stepsOnAdvance := steps } :=
  { ok with
    writes := writes ▸ ok.writes
    appended := by
      rw [writes, appended]
      exact ok.appended
    own := fun isSync => (ok.own isSync).trans own.symm
    applyResps := fun m member => ok.applyResps m (applied m member) }

/-- The storage changes, and keeps what can be read. -/
theorem withStorage {ms : MemoryStorage} (ok : Sound L d async p h rn)
    (storage : StorageOk ms p.floor p.durable.log)
    (later : rn.raft.raftLog.storage.dummy.index ≤ ms.dummy.index)
    (below : ms.dummy.index ≤ max rn.raft.raftLog.storage.dummy.index rn.raft.raftLog.applied)
    : Sound L d async p h (Host.setStorage rn ms) :=
  { ok with piped := ok.piped.withStorage storage later below }

variable [Codec]

-----------------------------------------------------------------------------------------
-- Messages
-----------------------------------------------------------------------------------------

/-- A call of the node that is no answer of the local threads. -/
theorem call {changes : Prop} {m : Message} {r : Raft} (ok : Sound L d async p h rn)
    (logs : ∀ t, Matched L (L t)) (source : m.OfLeader L)
    (remote : m.type.isStored = false) (sound : m.type.termed = true → m.term ≠ 0)
    (leads : r.state = .stateLeader → r.raftLog.logical.Within (L r.term))
    (called : rn.raft.Called changes m r)
    : ∃ p', Sound L d async p' h { rn with raft := r } := by
  obtain ⟨now, cfg, progress, steps⟩ := called.exists_steps sound
  obtain ⟨term, piped⟩ := Steps.moved steps logs source remote ok.piped leads
  exact ok.moved ⟨term, piped⟩ (Steps.keeps steps remote)

/-- The first answer of the append thread changes the log, and may then leave a joint
configuration.
-/
theorem step_stored {m : Message} {rest : List Message} {r : Raft}
    {err : Option StepError} (ok : Sound L d async p h rn) (first : p.done = m :: rest)
    (handled : rn.raft.step m = .ok (r, err))
    : ∃ l, Stores m rn.raft.raftLog l ∧ Piped L async (p.answered rest) rn.raft.term l
      ∧ Steps 0 Raft.leaveJointMsg { rn.raft.core with raftLog := l } r.core := by
  have answer := ok.piped.pipe.resps.done m (first ▸ List.mem_cons_self)
  have older := answer.term.1
  rw [ok.piped.term] at older
  obtain ⟨current, l, now, stores, acts⟩ :=
    Raft.step_stored answer.type answer.term.2 older handled
  exact ⟨l, RaftLog.stored_ok stores, ok.piped.stored first now stores, acts⟩

omit [Codec] in
/-- The first answer of the append thread has changed the log. -/
theorem answered {m : Message} {rest steps : List Message} {l : RaftLog}
    (ok : Sound L d async p h rn) (stores : Stores m rn.raft.raftLog l)
    (piped : Piped L async (p.answered rest) rn.raft.term l)
    (appended : async = true → h'.appended = rest) (writes : h'.writes = h.writes)
    (own : async = false → rest ++ p.slots.flatMap Slot.resps
      = steps.filter fun m => m.type == .msgStorageAppendResp)
    (applied : ∀ m ∈ h'.applyResps { rn with stepsOnAdvance := steps }, m ∈ h.applyResps rn)
    : Sound L d async (p.answered rest) h'
        { rn with raft := { rn.raft with raftLog := l }, stepsOnAdvance := steps } := by
  have grows : rn.raft.raftLog.applying ≤ l.applying := by
    rw [stores.applying]
    split
    · exact Nat.le_refl _
    · exact Nat.le_max_left _ _
  exact {
    piped := piped
    origin := ok.origin
    writes := writes ▸ ok.writes
    appended := by
      intro isAsync
      rw [appended isAsync, writes]
      exact ⟨rfl, (ok.appended isAsync).2⟩
    own := own
    applyResps := fun m member e last => (ok.applyResps m (applied m member) e last).trans grows }

/-- The first answer of the append thread is handled. -/
theorem stored {m : Message} {rest steps : List Message} {r : Raft}
    {err : Option StepError} (ok : Sound L d async p h rn) (logs : ∀ t, Matched L (L t))
    (first : p.done = m :: rest)
    (appended : async = true → h'.appended = rest) (writes : h'.writes = h.writes)
    (own : async = false → rest ++ p.slots.flatMap Slot.resps
      = steps.filter fun m => m.type == .msgStorageAppendResp)
    (applied : ∀ m ∈ h'.applyResps { rn with stepsOnAdvance := steps }, m ∈ h.applyResps rn)
    (leads : r.state = .stateLeader → r.raftLog.logical.Within (L r.term))
    (handled : rn.raft.step m = .ok (r, err))
    : ∃ p', Sound L d async p' h' { rn with raft := r, stepsOnAdvance := steps } := by
  obtain ⟨l, stores, piped, acts⟩ := ok.step_stored first handled
  have ok' := ok.answered stores piped appended writes own applied
  exact ok'.moved (Steps.moved acts logs ⟨nofun, nofun⟩ rfl piped leads) (Steps.keeps acts rfl)

omit [Codec] in
theorem slots_eq (ok : Sound L d async p h rn) (none : h.writes = []) : p.slots = [] := by
  have fills := ok.writes
  rw [none] at fills
  exact List.forall₂_nil_left_iff.mp fills

omit [Codec] in
/-- The first answer of the append thread in the queues is the first one of the pipeline.
-/
theorem done_of_pops {m : Message} {queue steps : List Message}
    (ok : Sound L d async p h rn)
    (answer : m.IsAppendResp)
    (popped : Host.Pops async h h.appended queue rn.stepsOnAdvance steps m)
    : ∃ rest, p.done = m :: rest ∧ (async = true → queue = rest)
      ∧ (async = false → rest ++ p.slots.flatMap Slot.resps
        = steps.filter fun m => m.type == .msgStorageAppendResp) := by
  cases async with
  | true =>
      obtain ⟨queued, rfl⟩ := popped
      exact ⟨queue, (ok.appended rfl).1.trans queued, fun _ => rfl,
        fun isSync => absurd isSync.symm Bool.false_ne_true⟩
  | false =>
      obtain ⟨_, queued, none, _⟩ := popped
      have slots := ok.slots_eq none
      have done := ok.own rfl
      rw [Pipeline.resps, slots, List.flatMap_nil, List.append_nil, queued,
        List.filter_cons_of_pos (by simp [answer.type])] at done
      refine ⟨_, done, fun isAsync => absurd isAsync Bool.false_ne_true, fun _ => ?_⟩
      rw [slots, List.flatMap_nil, List.append_nil]

/-- The first answer of the append thread is taken from its queue and handled. -/
theorem answerAppend {m : Message} {steps : List Message} {r : Raft}
    {err : Option StepError}
    (ok : Sound L d async p h rn) (logs : ∀ t, Matched L (L t)) (answer : m.IsAppendResp)
    (popped : Host.Pops async h h.appended h'.appended rn.stepsOnAdvance steps m)
    (writes : h'.writes = h.writes)
    (applied : h'.applyResps { rn with stepsOnAdvance := steps } = h.applyResps rn)
    (leads : r.state = .stateLeader → r.raftLog.logical.Within (L r.term))
    (handled : rn.raft.step m = .ok (r, err))
    : ∃ p', Sound L d async p' h' { rn with raft := r, stepsOnAdvance := steps } := by
  have among : ∀ m ∈ h'.applyResps { rn with stepsOnAdvance := steps }, m ∈ h.applyResps rn :=
    fun m member => applied ▸ member
  obtain ⟨rest, done, queue, own⟩ := ok.done_of_pops answer popped
  exact ok.stored logs done queue writes own among leads handled

/-- An answer of the apply thread changes the log, and may then leave a joint
configuration.
-/
theorem step_applied {m : Message} {r : Raft} {err : Option StepError}
    (ok : Sound L d async p h rn) (answer : m.IsApplyResp)
    (handedOut : ∀ e, m.entries.getLast? = some e → e.index ≤ rn.raft.raftLog.applying)
    (idle : async = false → h.writes = []) (handled : rn.raft.step m = .ok (r, err))
    : r.core = rn.raft.core ∨ ∃ i size l floor, i ≤ rn.raft.raftLog.applying
      ∧ rn.raft.raftLog.appliedTo i size = .ok l
      ∧ Piped L async { p with floor := floor } rn.raft.term l
      ∧ Steps 0 Raft.leaveJointMsg { rn.raft.core with raftLog := l } r.core := by
  rcases Raft.step_applied answer.type answer.term handled with
    ⟨same, _⟩ | ⟨e, l, last, applies, acts⟩
  · exact .inl same
  · have inside := Nat.max_le.mpr ⟨handedOut e last, ok.piped.pipe.index.applied⟩
    have piped :=
      ok.piped.applied inside (fun isSync => ok.slots_eq (idle isSync)) applies
    exact .inr ⟨_, _, l, _, inside, applies, piped, acts⟩

omit [Codec] in
/-- An answer of the apply thread has changed the log. -/
theorem withApplied {i size floor : Nat} {l : RaftLog} (ok : Sound L d async p h rn)
    (inside : i ≤ rn.raft.raftLog.applying)
    (applies : rn.raft.raftLog.appliedTo i size = .ok l)
    (piped : Piped L async { p with floor := floor } rn.raft.term l)
    : Sound L d async { p with floor := floor } h
        { rn with raft := { rn.raft with raftLog := l } } := by
  obtain ⟨_, _, _, _, _, applying, _⟩ := appliedTo_ok applies
  rw [Nat.max_eq_left inside] at applying
  exact { ok with
    piped := piped
    applyResps := applying ▸ ok.applyResps }

/-- An answer of the apply thread is handled. -/
theorem answerApply {m : Message} {r : Raft} {err : Option StepError}
    (ok : Sound L d async p h rn) (logs : ∀ t, Matched L (L t)) (answer : m.IsApplyResp)
    (handedOut : ∀ e, m.entries.getLast? = some e → e.index ≤ rn.raft.raftLog.applying)
    (idle : async = false → h.writes = [])
    (leads : r.state = .stateLeader → r.raftLog.logical.Within (L r.term))
    (handled : rn.raft.step m = .ok (r, err))
    : ∃ p', Sound L d async p' h { rn with raft := r } := by
  rcases ok.step_applied answer handedOut idle handled with
    same | ⟨i, size, l, floor, inside, applies, piped, acts⟩
  · have log : r.raftLog = rn.raft.raftLog := congrArg Core.raftLog same
    exact ok.moved (.still ok.piped log (congrArg Core.term same)) (log ▸ .refl _)
  · have ok' := ok.withApplied inside applies piped
    exact ok'.moved (Steps.moved acts logs ⟨nofun, nofun⟩ rfl piped leads) (Steps.keeps acts rfl)

-----------------------------------------------------------------------------------------
-- Ready
-----------------------------------------------------------------------------------------

omit [Codec] in
/-- A snapshot that is handed out is not empty. -/
theorem isEmptySnap_nextSnapshot (ok : Sound L d async p h rn)
    : (if isEmptySnap rn.raft.raftLog.unstable.nextSnapshot then none
        else rn.raft.raftLog.unstable.nextSnapshot) = rn.raft.raftLog.unstable.nextSnapshot := by
  cases next : rn.raft.raftLog.unstable.nextSnapshot with
  | none => rfl
  | some s =>
      obtain ⟨pending, _⟩ := Unstable.nextSnapshot_eq_some.mp next
      obtain ⟨_, _, _, nonzero⟩ := ok.piped.pipe.unstable.snapshot s pending
      rw [if_neg (by simpa [isEmptySnap] using nonzero)]

omit [Codec] in
/-- The answer to a `Ready` tells how far the log is written. -/
theorem newResps {resps : List Message} (ok : Sound L d async p h rn)
    (termed : rn.raft.core.Termed)
    (answers : storageAppendResp rn.raft rn.raft.raftLog.unstable.nextSnapshot = .ok resps)
    : NewResps p rn.raft.raftLog.unstable resps := by
  have snapshot := ok.isEmptySnap_nextSnapshot
  rcases RawNode.storageAppendResp_ok answers with ⟨rfl, entries, empty⟩ | ⟨m, rfl, answer⟩
  · rw [if_pos empty] at snapshot
    exact .none entries snapshot.symm
  · have isResp := RawNode.appendResps termed answers m List.mem_cons_self
    have term := answer.term.trans ok.piped.term.symm
    refine .one m answer.type term (term ▸ isResp.term) (answer.snapshot.trans snapshot) ?_
    split
    · rename_i none
      exact (answer.nothing none).1
    · rename_i some
      have last := (answer.last some).symm.trans ok.piped.pipe.shows.lastEntryID
      simp only [Except.ok.injEq, EntryID.mk.injEq] at last
      exact ⟨last.2, last.1⟩

omit [Codec] in
theorem exists_storageAppendResp (ok : Sound L d async p h rn)
    (snapshot : Option Snapshot)
    : ∃ resps, storageAppendResp rn.raft snapshot = .ok resps :=
  RawNode.storageAppendResp_of_last ok.piped.pipe.shows.lastEntryID snapshot

/-- What is read to be handed out is committed. -/
theorem exists_handedOutLog {committed : List Entry} (ok : Sound L d async p h rn)
    (appliable : rn.raft.raftLog.nextCommittedEnts rn.applyUnstableEntries = .ok committed)
    : ∃ raftLog, rn.handedOutLog committed = .ok raftLog := by
  unfold RawNode.handedOutLog
  cases last : committed.getLast? with
  | none => exact ⟨_, rfl⟩
  | some e =>
      rcases ok.piped.pipe.shows.nextCommittedEnts appliable with rfl | ⟨_, part⟩
      · cases last
      obtain ⟨index, count⟩ := index_of_page ok.piped.pipe.line.current.indexed part last
      have applying := ok.piped.pipe.index.applying
      have within : ¬rn.raft.raftLog.acceptUnstable.committed < e.index := by
        show ¬rn.raft.raftLog.committed < e.index
        unfold RaftLog.maxAppliableIndex at count
        split at count <;> omega
      dsimp only
      unfold RaftLog.acceptApplying
      rw [if_neg within]
      exact ⟨_, rfl⟩

/-- The committed entries are handed out. -/
theorem accept {committed : List Entry} {raftLog : RaftLog} {p' : Pipeline}
    (ok : Sound L d async p h rn) (mode : rn.asyncStorageWrites = async)
    (piped : Piped L async p' rn.raft.term rn.raft.raftLog.acceptUnstable)
    (handedOut : rn.raft.raftLog.unstable.snapshot = none
      → Pipe.HandedOut p' rn.raft.raftLog.acceptUnstable)
    (appliable : rn.raft.raftLog.nextCommittedEnts rn.applyUnstableEntries = .ok committed)
    (accepts : rn.handedOutLog committed = .ok raftLog)
    : rn.raft.raftLog.applying ≤ raftLog.applying
      ∧ (∀ e, committed.getLast? = some e → e.index ≤ raftLog.applying)
      ∧ ∃ floor, Piped L async { p' with floor := floor } rn.raft.term raftLog := by
  have applying := (RawNode.handedOutLog_ok accepts).2.2.2.2.2
  unfold RawNode.handedOutLog at accepts
  cases last : committed.getLast? with
  | none =>
      rw [last] at accepts applying
      cases accepts
      exact ⟨Nat.le_refl _, nofun, p'.floor, piped⟩
  | some e =>
      rw [last] at accepts applying
      have applying : raftLog.applying = e.index := applying
      have shows := ok.piped.pipe.shows
      rcases shows.nextCommittedEnts appliable with rfl | ⟨none, part⟩
      · cases last
      have some : 0 < committed.length :=
        List.length_pos_iff.mpr fun none => by simp [none] at last
      obtain ⟨index, count⟩ := index_of_page ok.piped.pipe.line.current.indexed part last
      have reach : async = true → e.index < rn.raft.raftLog.unstable.offset := by
        intro isAsync
        have positive := ok.piped.pipe.unstable.positive
        simp only [RaftLog.maxAppliableIndex, RawNode.applyUnstableEntries, mode, isAsync,
          Bool.not_true, Bool.false_eq_true, ↓reduceIte] at count
        omega
      refine ⟨by omega, fun e' same => ?_, _, piped.acceptApplying (handedOut none) none ?_ reach
        accepts⟩
      · cases same
        exact applying.ge
      · show rn.raft.raftLog.applying ≤ e.index
        omega

omit [Codec] in
/-- The answers of the apply thread that are to come after a `Ready`. -/
theorem applyResps_ready {committed : List Entry} {raftLog : RaftLog}
    (ok : Sound L d async p h rn)
    (grows : rn.raft.raftLog.applying ≤ raftLog.applying)
    (last : ∀ e, committed.getLast? = some e → e.index ≤ raftLog.applying)
    : ∀ m ∈ h.applyResps rn ++ rn.applyAnswers committed, ∀ e, m.entries.getLast? = some e
      → e.index ≤ raftLog.applying := by
  refine List.forall_mem_append.mpr ⟨fun m old e isLast => ?_, fun m new e isLast => ?_⟩
  · exact (ok.applyResps m old e isLast).trans grows
  · exact last e (RawNode.mem_applyAnswers new ▸ isLast)

/-- What a `Ready` hands out. There is no slot for it if nothing has to be written. -/
theorem ready {rn' : RawNode} {rd : Ready} (ok : Sound L d async p h rn)
    (core : rn.raft.core.Termed) (mode : rn.asyncStorageWrites = async)
    (writes : h'.writes = h.writes
      ++ if async then Host.asyncWrites rd else [Host.writeOf rd rd.messages []])
    (appended : h'.appended = h.appended)
    (applied : h'.applyResps rn' = h.applyResps rn ++ rn.applyAnswers rd.committedEntries)
    (taken : rn.Taken rn' rd)
    : ∃ floor slots, Sound L d async { p with floor := floor, slots := p.slots ++ slots } h' rn'
      ∧ ∀ s ∈ slots, s.version = { term := p.term, log := p.log } := by
  cases taken with
  | @sync committed resps raftLog isSync fresh appliable answers accepts =>
      have isSync : async = false := mode.symm.trans isSync
      rw [if_neg (by simp [isSync])] at writes
      obtain ⟨appendResps, _⟩ := @RawNode.filter_ownSteps rn committed resps core answers
      obtain ⟨grows, last, floor, piped⟩ :=
        ok.accept mode (ok.piped.handOut (ok.newResps core answers))
        (fun _ => ok.piped.pipe.handedOut) appliable accepts
      refine ⟨floor, [p.slot rn.raft.raftLog.unstable resps], ⟨piped, ok.origin, ?_, ?_, ?_,
        applied ▸ ok.applyResps_ready grows last⟩, List.forall_mem_singleton.mpr rfl⟩
      · rw [writes]
        exact List.rel_append ok.writes (.cons ⟨rfl, ok.isEmptySnap_nextSnapshot⟩ .nil)
      · exact fun isAsync => absurd (isSync.symm.trans isAsync) Bool.false_ne_true
      · intro _
        have none := ok.own isSync
        rw [fresh, List.filter_nil] at none
        show Pipeline.resps _ = (rn.ownSteps committed resps).filter _
        rw [appendResps]
        refine (resps_append p (p.slot rn.raft.raftLog.unstable resps)).trans ?_
        rw [none]
        rfl
  | @async committed resps append raftLog isAsync appliable request accepts =>
      have inMode : async = true := mode.symm.trans isAsync
      rw [if_pos inMode] at writes
      obtain ⟨done, answers⟩ := ok.appended inMode
      have responses :=
        @Host.Termed.flatMap_asyncWrites rn committed resps append core request
      -- Without a write nothing is left to hand out, and the pipeline stays as it is.
      obtain ⟨slots, piped, handedOut, writes', answers', versions⟩ : ∃ slots,
          Piped L async { p with slots := p.slots ++ slots } rn.raft.term
            rn.raft.raftLog.acceptUnstable
          ∧ (rn.raft.raftLog.unstable.snapshot = none
            → Pipe.HandedOut { p with slots := p.slots ++ slots } rn.raft.raftLog.acceptUnstable)
          ∧ List.Forall₂ Write.Fills (h.writes ++ Host.asyncWrites (rn.readyOf committed append))
            (p.slots ++ slots)
          ∧ (p.slots ++ slots).map Slot.resps
            = (h.writes ++ Host.asyncWrites (rn.readyOf committed append)).map Write.response
          ∧ ∀ s ∈ slots, s.version = { term := p.term, log := p.log } := by
        cases request with
        | none needless =>
            have nothing : rn.raft.raftLog.unstable.nextEntries = []
                ∧ isEmptySnap rn.raft.raftLog.unstable.nextSnapshot = true := by
              simp only [needStorageAppendMsg, RawNode.readyOf, Bool.or_eq_false_iff,
                Bool.not_eq_false'] at needless
              exact ⟨by simpa using needless.1.1.1, needless.1.2⟩
            have snapshot := ok.isEmptySnap_nextSnapshot
            rw [if_pos nothing.2] at snapshot
            have same : rn.raft.raftLog.acceptUnstable = rn.raft.raftLog := by
              unfold RaftLog.acceptUnstable
              rw [ok.piped.pipe.unstable.acceptInProgress_eq ok.piped.pipe.line.current.indexed
                nothing.1 snapshot.symm]
            rw [same]
            have none : Host.asyncWrites (rn.readyOf committed none) = [] := rfl
            refine ⟨[], ?_⟩
            rw [none, List.append_nil, List.append_nil]
            exact ⟨ok.piped, ok.piped.pipe.handedOut_of_nothing nothing.1, ok.writes, answers,
              List.forall_mem_nil _⟩
        | some new =>
            refine ⟨[p.slot rn.raft.raftLog.unstable resps],
              ok.piped.handOut (ok.newResps core new), fun _ => ok.piped.pipe.handedOut, ?_, ?_,
              List.forall_mem_singleton.mpr rfl⟩
            · exact List.rel_append ok.writes (.cons ⟨rfl, ok.isEmptySnap_nextSnapshot⟩ .nil)
            · rw [List.map_append, List.map_append, answers]
              have one : Write.response (Host.writeOf _ _ _) ++ [] = resps := responses
              rw [List.append_nil] at one
              exact congrArg _ (congrArg (fun x => [x]) one.symm)
      obtain ⟨grows, last, floor, piped⟩ :=
        ok.accept mode piped handedOut appliable accepts
      refine ⟨floor, slots, ⟨piped, ok.origin, writes ▸ writes', ?_, ?_,
        applied ▸ ok.applyResps_ready grows last⟩, versions⟩
      · rw [writes, appended]
        exact fun _ => ⟨done, answers'⟩
      · exact fun isSync => absurd (isSync.symm.trans inMode) Bool.false_ne_true

omit [Codec] in
/-- The oldest write leads from the durable version to the next one. -/
theorem oldest {w : Write} {rest : List Write} (ok : Sound L d async p h rn)
    (queued : h.writes = w :: rest)
    : ∃ s slots, w.Fills s ∧ List.Forall₂ Write.Fills rest slots ∧ p.slots = s :: slots
      ∧ s.Follows p.floor p.durable.log ∧ Indexed s.version.log := by
  have fills := ok.writes
  rw [queued] at fills
  obtain ⟨s, slots, first, later, split⟩ := List.forall₂_cons_left_iff.mp fills
  have chain := ok.piped.pipe.line.chain
  have matched := ok.piped.pipe.line.matched s.version
    (by rw [Pipeline.versions, split]; exact List.mem_cons_of_mem _ List.mem_cons_self)
  rw [split] at chain
  exact ⟨s, slots, first, later, split, chain.1, matched.indexed⟩

omit [Codec] in
/-- The oldest write becomes durable. -/
theorem persist {w : Write} {ms : MemoryStorage} (ok : Sound L d async p h rn)
    (queued : h.writes = w :: h'.writes)
    (stored : Host.store rn.raft.raftLog.storage w = .ok ms)
    (appended : h'.appended = h.appended ++ w.response)
    (applied : h'.applyResps rn = h.applyResps rn)
    : ∃ s slots, p.slots = s :: slots
      ∧ Sound L d async (p.persisted s slots) h' (Host.setStorage rn ms) := by
  obtain ⟨s, slots, first, later, split, follows, indexed⟩ := ok.oldest queued
  obtain ⟨ms', stored', storage, _, dummy⟩ :=
    ok.piped.pipe.storage.store follows indexed first.entries first.snapshot
  cases stored.symm.trans stored'
  refine ⟨s, slots, split, ok.piped.persist split storage dummy, ok.origin, later, ?_, ?_, ?_⟩
  · intro isAsync
    obtain ⟨done, answers⟩ := ok.appended isAsync
    rw [queued, split, List.map_cons, List.map_cons, List.cons.injEq] at answers
    refine ⟨?_, answers.2⟩
    show p.done ++ s.resps = h'.appended
    rw [appended, done, answers.1]
  · intro isSync
    have own := ok.own isSync
    rw [Pipeline.resps, split, List.flatMap_cons, ← List.append_assoc] at own
    exact own
  · intro m member
    exact ok.applyResps m (applied ▸ member)

-----------------------------------------------------------------------------------------
-- Transitions
-----------------------------------------------------------------------------------------

/-- A running node stays sound, as long as its log is that of its term while it leads. -/
theorem turns {rn' : RawNode} {takes changes : Prop} {arrives : Message → Prop}
    (ok : Sound L d async p h rn)
    (logs : ∀ t, Matched L (L t)) (core : rn.raft.core.Termed)
    (mode : rn.asyncStorageWrites = async) (network : ∀ m, arrives m → m.OfLeader L)
    (leads : rn'.raft.state = .stateLeader → rn'.raft.raftLog.logical.Within (L rn'.raft.term))
    (turns : Host.Turns takes changes async arrives h rn h' rn')
    : ∃ p', Sound L d async p' h' rn' := by
  cases turns with
  | rest writes appended applied =>
      exact ⟨p, ok.requeue writes appended rfl fun m member => applied ▸ member⟩
  | @call m r steps called remote termed source writes appended applied own =>
      have ofLeader := Message.OfLeader.of_source network source
      have ok' := @requeue _ _ _ _ _ h' _ steps ok writes appended own
        fun m member => applied ▸ member
      exact ok'.call logs ofLeader remote termed leads called
  | answerAppend answer handled popped writes applied =>
      exact ok.answerAppend logs answer popped writes applied leads handled
  | @answerApply m r err steps answer handled popped writes appended applied =>
      have idle : async = false → h.writes = [] := by
        rintro rfl
        exact popped.2.2.1
      have own : steps.filter (fun m => m.type == .msgStorageAppendResp)
          = rn.stepsOnAdvance.filter fun m => m.type == .msgStorageAppendResp := by
        cases async with
        | true => rw [popped.2]
        | false => rw [popped.2.1, List.filter_cons_of_neg (by simp [answer.type])]
      have ok' := @requeue _ _ _ _ _ h' _ steps ok writes appended own
        fun m member => applied ▸ List.mem_cons_of_mem _ member
      have handedOut := ok.applyResps m (applied ▸ List.mem_cons_self)
      exact ok'.answerApply logs answer handedOut (writes ▸ idle) leads handled
  | ready taken writes appended applied =>
      obtain ⟨floor, slots, ok', _⟩ := ok.ready core mode writes appended applied taken
      exact ⟨_, ok'⟩
  | persist queued stored appended applied =>
      obtain ⟨s, slots, _, ok'⟩ := ok.persist queued stored appended applied
      exact ⟨_, ok'⟩
  | createSnapshot below created writes appended applied =>
      obtain ⟨storage, later, bound⟩ := ok.piped.pipe.storage.createSnapshot
        (below.trans ok.piped.pipe.index.appliedFloor) created
      exact ⟨p, (ok.requeue writes appended rfl fun m member => applied ▸ member).withStorage
        storage later (bound.trans
          (Nat.max_le.mpr ⟨Nat.le_max_left _ _, below.trans (Nat.le_max_right _ _)⟩))⟩
  | compact below compacted writes appended applied =>
      obtain ⟨storage, later, bound⟩ := ok.piped.pipe.storage.compact
        (ok.piped.pipe.line.matched p.durable List.mem_cons_self).indexed
        (below.trans ok.piped.pipe.index.appliedFloor) compacted
      exact ⟨p, (ok.requeue writes appended rfl fun m member => applied ▸ member).withStorage
        storage later (bound.trans
          (Nat.max_le.mpr ⟨Nat.le_max_left _ _, below.trans (Nat.le_max_right _ _)⟩))⟩

end Sound

/-- Every input of a lifetime. -/
theorem Host.Sound.goes [Codec] {σ : Setup} {id : Nat} {arrives : Message → Prop}
    {out : Output}
    (ok : h.Sound L d async) (logs : ∀ t, Matched L (L t)) (termed : h.Termed)
    (separate : h.Separate async) (network : ∀ m, arrives m → m.Public ∧ m.OfLeader L)
    (leads : h'.Leads L) (goes : Goes σ id arrives h out h')
    : h'.Sound L d async := by
  intro rn' node'
  obtain ⟨rn, node, turns⟩ :=
    goes.turns termed separate (fun m arrived => (network m arrived).1) node'
      (fun _ => trivial) fun _ => trivial
  obtain ⟨p, ok⟩ := ok rn node
  exact ok.turns logs (termed.core rn node) (separate.mode rn node)
    (fun m arrived => (network m arrived).2) (leads rn' node') turns

/-- The host in order. -/
structure Host.Ordered (L : Nat → List Entry) (d : Version) (async : Bool)
    (h : Host) : Prop where
  sound : h.Sound L d async
  termed : h.Termed
  separate : h.Separate async

/-- Every admitted input keeps the order. -/
theorem Host.Ordered.input [Codec] {σ : Setup} {id : Nat} {i : Input}
    (ok : h.Ordered L d async) (logs : ∀ t, Matched L (L t)) (admits : h.Admits L σ id i)
    : (h.input σ id i).1.Ordered L d async := by
  obtain ⟨source, leads⟩ := admits
  have network := source.network
  have goes := @Host.goes _ σ id h i source.steady
  exact ⟨ok.sound.goes logs ok.termed ok.separate network leads goes,
    ok.termed.goes (fun m arrived => (network m arrived).1) goes, ok.separate.goes goes⟩

-----------------------------------------------------------------------------------------
-- Whole lifetimes
-----------------------------------------------------------------------------------------

/-- The pipeline of a node that starts from a storage with the log `d`. -/
theorem Started.piped {c : Config} {r : Raft} {d : List Entry} (started : Started c r)
    (stored : Stored c.storage d) (matched : Matched L d)
    (snapshot : c.storage.snapshot.metadata.index ≤ r.raftLog.committed)
    : Piped L async
        (.started r.term (max c.storage.snapshot.metadata.index r.raftLog.applied) d) r.term
        r.raftLog := by
  have log := started.log
  have storage : r.raftLog.storage = c.storage := log.storage
  have last : c.storage.lastIndex = d.length := stored.lastIndex
  have committed : r.raftLog.committed ≤ d.length := last ▸ log.within
  have available : c.storage.dummy.index ≤ r.raftLog.applied := log.available
  have applied := log.appliedCommitted
  have floor : max c.storage.snapshot.metadata.index r.raftLog.applied ≤ r.raftLog.committed :=
    Nat.max_le.mpr ⟨snapshot, applied⟩
  exact {
    pipe := by
      refine .start matched ?_ ?_ committed ?_ log.applying.symm ?_
      · rw [storage]
        exact ⟨stored, available.trans (Nat.le_max_right _ _), Nat.le_max_left _ _,
          floor.trans committed⟩
      · rw [log.unstable, ← last]
      · rw [log.applying]
        exact applied
      · rw [log.applying]
        exact Nat.le_max_right _ _
    term := rfl
    floor := floor
    logical := by
      rw [log.logical]
      exact ⟨stored.within, stored.dummyTerm, stored.ents⟩
    basePending := by
      rw [log.unstable]
      nofun
    baseStored := by
      intro _
      rw [log.logical, storage]
    doneStored := List.forall_mem_nil _
    compacted := by
      rw [storage, log.applying]
      exact .inl available }

namespace Launch

variable [Codec] {x : Launch} {inputs : List Input}

/-- The storage that the node starts from holds a log of the cluster, and its snapshot is
of a part that is committed.
-/
structure Prepared (L : Nat → List Entry) (x : Launch) : Prop where
  stored : ∃ d, Stored x.disk d ∧ Matched L d
  snapshot : x.disk.snapshot.metadata.index
    ≤ if isEmptyHardState x.disk.hardState then x.disk.dummy.index else x.disk.hardState.commit

omit [Codec] in
theorem Up.sound {d : List Entry} (up : x.Up rn h) (prepared : x.Prepared L)
    (stored : Stored x.disk d) (matched : Matched L d)
    : ∃ p, Sound L ⟨x.disk.hardState.term, d⟩ async p h rn := by
  have snapshot : x.disk.snapshot.metadata.index ≤ rn.raft.raftLog.committed := by
    rw [up.started.log.committed]
    exact prepared.snapshot
  refine ⟨_, up.started.piped stored matched snapshot, .inl ⟨rfl, up.started.term.ge⟩, ?_, ?_,
    ?_, ?_⟩
  · rw [up.writes]
    exact .nil
  · rw [up.appended, up.writes]
    exact fun _ => ⟨rfl, rfl⟩
  · rw [up.steps]
    exact fun _ => rfl
  · unfold Host.applyResps
    rw [up.applied, up.batches, up.steps]
    exact List.forall_mem_nil _

theorem ordered_of_stored {d : List Entry} (prepared : x.Prepared L)
    (stored : Stored x.disk d) (matched : Matched L d)
    : x.host.Ordered L ⟨x.disk.hardState.term, d⟩ x.setup.asyncStorageWrites := by
  refine ⟨fun rn node => ?_, x.host_ok.1, x.host_ok.2⟩
  exact (up_of_node node).sound prepared stored matched

/-- The host is in order at the start. -/
theorem host_ordered (prepared : x.Prepared L)
    : ∃ d, Stored x.disk d
      ∧ x.host.Ordered L ⟨x.disk.hardState.term, d⟩ x.setup.asyncStorageWrites := by
  obtain ⟨d, stored, matched⟩ := prepared.stored
  exact ⟨d, stored, ordered_of_stored prepared stored matched⟩

/-- The node is sound at every point of a lifetime. -/
theorem sound_run (logs : ∀ t, Matched L (L t)) (prepared : x.Prepared L)
    (admitted : Host.Along x.setup x.id (Host.Admits L x.setup x.id) x.host inputs)
    : (∃ d, Stored x.disk d
        ∧ (x.run inputs).Sound L ⟨x.disk.hardState.term, d⟩ x.setup.asyncStorageWrites)
      ∧ (x.run inputs).Termed ∧ (x.run inputs).Separate x.setup.asyncStorageWrites := by
  obtain ⟨d, stored, start⟩ := host_ordered prepared
  obtain ⟨sound, termed, separate⟩ :=
    admitted.preserves start fun ok admits => ok.input logs admits
  exact ⟨⟨d, stored, sound⟩, termed, separate⟩

end Launch

end EtcdRaft
