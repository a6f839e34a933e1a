import EtcdRaft.Refinement.Representation
import EtcdRaft.Runs.Services

/-! The quota of uncommitted entries. A leader counts no more than the payload of the
entries that are still to be applied: what is applied has been handed out before, and is
taken off again when the application acknowledges it.
-/

namespace EtcdRaft

-----------------------------------------------------------------------------------------
-- Outstanding answers
-----------------------------------------------------------------------------------------

/-- The index up to which entries are applied after the answer `m`. -/
def Message.reach (a : Nat) (m : Message) : Nat :=
  max a ((m.entries.getLast?.map Entry.index).getD 0)

/-- The answers of the apply thread follow each other, from the applied index `a` on: none
is about entries beyond the next ones.
-/
def Relays (a : Nat) : List Message → Prop
  | [] => True
  | m :: rest => (∃ first ≤ a + 1, Consecutive first m.entries) ∧ Relays (m.reach a) rest

/-- The index up to which entries are applied after all the answers. -/
def reachAll (a : Nat) (answers : List Message) : Nat := answers.foldl Message.reach a

theorem Message.reach_mono {a a' : Nat} (m : Message) (later : a ≤ a')
    : m.reach a ≤ m.reach a' := by
  unfold reach
  omega

theorem reachAll_mono {a a' : Nat} (answers : List Message) (later : a ≤ a')
    : reachAll a answers ≤ reachAll a' answers := by
  induction answers generalizing a a' with
  | nil => exact later
  | cons m rest ih => exact ih (m.reach_mono later)

theorem le_reachAll (a : Nat) (answers : List Message) : a ≤ reachAll a answers := by
  induction answers generalizing a with
  | nil => exact Nat.le_refl a
  | cons m rest ih => exact (Nat.le_max_left _ _).trans (ih (m.reach a))

theorem Relays.mono {a a' : Nat} {answers : List Message} (ok : Relays a answers)
    (later : a ≤ a')
    : Relays a' answers := by
  induction answers generalizing a a' with
  | nil => trivial
  | cons m rest ih =>
      obtain ⟨⟨first, next, consecutive⟩, ok⟩ := ok
      exact ⟨⟨first, by omega, consecutive⟩, ih ok (m.reach_mono later)⟩

/-- One more answer. -/
theorem Relays.append {a : Nat} {answers : List Message} {m : Message}
    (ok : Relays a answers) {first : Nat} (next : first ≤ reachAll a answers + 1)
    (consecutive : Consecutive first m.entries)
    : Relays a (answers ++ [m]) := by
  induction answers generalizing a with
  | nil => exact ⟨⟨first, next, consecutive⟩, trivial⟩
  | cons m' rest ih => exact ⟨ok.1, ih ok.2 next⟩

theorem reachAll_append (a : Nat) (answers : List Message) (m : Message)
    : reachAll a (answers ++ [m]) = m.reach (reachAll a answers) := by
  unfold reachAll
  rw [List.foldl_append]
  rfl

/-- The entries that an answer makes applied are among those it is about. -/
theorem Consecutive.drop_eq {c es : List Entry} {first a : Nat}
    (ok : Consecutive first es)
    (next : first ≤ a + 1) (found : ∀ e ∈ es, a < e.index → (c)[e.index - 1]? = some e)
    : (c.drop a).take (first + es.length - 1 - a) = es.drop (a + 1 - first) := by
  refine List.ext_getElem? fun k => ?_
  rw [List.getElem?_drop]
  by_cases inside : k < first + es.length - 1 - a
  · rw [List.getElem?_take_of_lt inside, List.getElem?_drop]
    obtain ⟨e, here⟩ : ∃ e, es[a + 1 - first + k]? = some e :=
      ⟨_, List.getElem?_eq_getElem (by omega)⟩
    have index := ok _ e here
    have same := found e (List.mem_of_getElem? here) (by omega)
    rw [here, ← same]
    congr 1
    omega
  · rw [List.getElem?_eq_none (by rw [List.length_take]; omega), List.getElem?_eq_none (by omega)]

theorem payloadsSize_drop_le (es : List Entry) (n : Nat)
    : payloadsSize (es.drop n) ≤ payloadsSize es := by
  have split := payloadsSize_append (es.take n) (es.drop n)
  rw [List.take_append_drop] at split
  omega

-----------------------------------------------------------------------------------------
-- What is compacted is applied
-----------------------------------------------------------------------------------------

/-- Unless a snapshot is pending, only applied entries are compacted. -/
def RaftLog.Uncompacted (l : RaftLog) : Prop :=
  l.unstable.snapshot = none → l.storage.dummy.index ≤ l.applied

section

variable [Codec] {L : Nat → List Entry} {d : Version} {async : Bool} {p p' : Pipeline}
  {now : Nat}
  {m : Message} {c c' : Core} {h h' : Host} {rn rn' : RawNode} {takes changes : Prop}
  {arrives : Message → Prop}

/-- A pending snapshot stays pending until it is stored. -/
theorem Act.snapshot_none (act : Act now m c c') (remote : m.type.isStored = false)
    (gone : c'.raftLog.unstable.snapshot = none)
    : c.raftLog.unstable.snapshot = none := by
  cases act with
  | commit leads raftLog commits =>
      exact (RaftLog.maybeCommit_snapshot commits).symm.trans gone
  | accept type follower term above raftLog last appended =>
      exact (RaftLog.maybeAppend_snapshot appended).symm.trans gone
  | heartbeat type follower term raftLog committed =>
      exact (RaftLog.commitTo_snapshot committed).symm.trans gone
  | fastForward type follower term newer holds raftLog committed =>
      exact (RaftLog.commitTo_snapshot committed).symm.trans gone
  | restore type follower term newer lacks chg blank cfg progress config same =>
      cases gone
  | stored type current term raftLog stores =>
      rw [type] at remote
      cases remote
  | applied type e last size raftLog applies =>
      rw [type] at remote
      cases remote
  | _ => exact gone

theorem Steps.snapshot_none (steps : Steps now m c c') (remote : m.type.isStored = false)
    (gone : c'.raftLog.unstable.snapshot = none)
    : c.raftLog.unstable.snapshot = none := by
  have along {c₁ : Core} (acts : Acts now m c c₁) (gone : c₁.raftLog.unstable.snapshot = none)
      : c.raftLog.unstable.snapshot = none := by
    induction acts with
    | refl => exact gone
    | tail _ act ih => exact ih (act.snapshot_none remote gone)
  obtain ⟨c₁, acts, rfl | ⟨c₂, appends, new, rfl, sends⟩⟩ := steps
  · exact along acts gone
  · obtain ⟨leads, es, nonempty, index, proposal, _, raftLog, appends⟩ := appends
    exact along acts ((RaftLog.append_snapshot appends).symm.trans gone)

theorem RaftLog.Uncompacted.steps {now : Nat} {m : Message} {c c' : Core}
    (ok : c.raftLog.Uncompacted) (steps : Steps now m c c')
    (remote : m.type.isStored = false)
    : c'.raftLog.Uncompacted := by
  intro gone
  have keeps := Steps.keeps steps remote
  rw [keeps.storage, keeps.applied]
  exact ok (Steps.snapshot_none steps remote gone)

omit [Codec] in
/-- A snapshot that is stored is applied, and with it what was compacted for it. -/
theorem Sound.uncompacted_stored {l : RaftLog} (sound : Sound L d async p h rn)
    (stores : Stores m rn.raft.raftLog l) (ok : rn.raft.raftLog.Uncompacted)
    : l.Uncompacted := by
  intro none
  rw [stores.storage, stores.applied]
  rcases stores.snapshot with ⟨same, _⟩ | ⟨_, s, sn, carries, pending, same⟩
  · have below := ok (same.symm.trans none)
    split
    · exact below
    · exact below.trans (Nat.le_max_right _ _)
  · rw [carries]
    refine Nat.le_trans ?_ (Nat.le_max_left _ _)
    rw [← same]
    rcases sound.piped.compacted with below | ⟨m', done, s', carries', below⟩
    · exact below.trans (sound.piped.pipe.index.pending sn pending).1.le
    · obtain ⟨sn', pending', order⟩ :=
        sound.piped.pipe.resps.pending m' (List.mem_append_left _ done) s' carries'
      cases pending.symm.trans pending'
      omega

omit [Codec] in
/-- A write without a snapshot compacts nothing. -/
theorem Sound.dummy_persist {w : Write} {rest : List Write} {ms : MemoryStorage}
    (sound : Sound L d async p h rn) (queued : h.writes = w :: rest)
    (stored : Host.store rn.raft.raftLog.storage w = .ok ms)
    (none : rn.raft.raftLog.unstable.snapshot = none)
    : ms.dummy.index = rn.raft.raftLog.storage.dummy.index := by
  obtain ⟨s, slots, first, later, split, follows, indexed⟩ := sound.oldest queued
  obtain ⟨ms', stored', storage, _, dummy⟩ :=
    sound.piped.pipe.storage.store follows indexed first.entries first.snapshot
  cases stored.symm.trans stored'
  have resps := sound.piped.pipe.resps
  have here : s ∈ p.slots := split ▸ List.mem_cons_self
  cases carries : s.snapshot with
  | none => rwa [Slot.floorAfter, carries] at dummy
  | some sn =>
      obtain ⟨m, member, carried⟩ := resps.slotSnap s here sn carries
      have inResps : m ∈ p.resps :=
        List.mem_append_right _ (List.mem_flatMap.mpr ⟨s, here, member⟩)
      obtain ⟨_, pending, _⟩ := resps.pending m inResps sn carried
      cases none.symm.trans pending

theorem Host.Turns.uncompacted (turns : Turns takes changes async arrives h rn h' rn')
    (sound : EtcdRaft.Sound L d async p h rn) (ok : rn.raft.raftLog.Uncompacted)
    : rn'.raft.raftLog.Uncompacted := by
  cases turns with
  | rest writes appended applied => exact ok
  | call called remote termed source writes appended applied own =>
      obtain ⟨now, cfg, progress, steps⟩ := called.exists_steps termed
      exact RaftLog.Uncompacted.steps
        (c := { rn.raft.core with config := cfg, progress := progress })
        ok steps remote
  | answerAppend answer handled popped writes applied =>
      obtain ⟨rest, done, _⟩ := sound.done_of_pops answer popped
      obtain ⟨l, stores, piped, steps⟩ := sound.step_stored done handled
      exact (sound.uncompacted_stored stores ok).steps
        (c := { rn.raft.core with raftLog := l }) steps rfl
  | @answerApply m r err _ answer handled popped writes appended applied =>
      rcases Raft.step_applied answer.type answer.term handled with
        ⟨same, _⟩ | ⟨e, l, last, applies, steps⟩
      · have log : r.raftLog = rn.raft.raftLog := congrArg Core.raftLog same
        exact log ▸ ok
      · obtain ⟨_, grows, unstable, storage, _, _, applied, _⟩ := appliedTo_ok applies
        have ok' : l.Uncompacted := by
          unfold RaftLog.Uncompacted
          rw [unstable, storage, applied]
          exact fun none => (ok none).trans grows
        exact ok'.steps (c := { rn.raft.core with raftLog := l }) steps rfl
  | ready taken writes appended applied =>
      obtain ⟨l, same, snapshot, storage, _, applied, _⟩ := taken.handsOut
      rw [show rn'.raft.raftLog = l from congrArg Core.raftLog same]
      unfold RaftLog.Uncompacted
      rw [snapshot, storage, applied]
      exact ok
  | persist queued stored appended applied =>
      intro none
      exact (sound.dummy_persist queued stored none).le.trans (ok none)
  | createSnapshot below created writes appended applied =>
      obtain ⟨_, _, bound⟩ := sound.piped.pipe.storage.createSnapshot
        (below.trans sound.piped.pipe.index.appliedFloor) created
      exact fun none => bound.trans (Nat.max_le.mpr ⟨ok none, below⟩)
  | compact below compacted writes appended applied =>
      obtain ⟨_, _, bound⟩ := sound.piped.pipe.storage.compact
        (sound.piped.pipe.line.matched p.durable List.mem_cons_self).indexed
        (below.trans sound.piped.pipe.index.appliedFloor) compacted
      exact fun none => bound.trans (Nat.max_le.mpr ⟨ok none, below⟩)

-----------------------------------------------------------------------------------------
-- Answers of the apply thread
-----------------------------------------------------------------------------------------

/-- What a `Ready` hands out follows what has been handed out before. -/
theorem RawNode.Taken.relays {rd : Ready} (taken : rn.Taken rn' rd)
    (sound : Sound L d async p h rn)
    : Consecutive (rn.raft.raftLog.applying + 1) rd.committedEntries
      ∧ rn'.raft.raftLog.applying
        = (rd.committedEntries.getLast?.map Entry.index).getD rn.raft.raftLog.applying := by
  refine ⟨?_, ?_⟩
  · rcases sound.piped.pipe.shows.nextCommittedEnts taken.appliable with none | ⟨_, part⟩
    · rw [none]
      exact .nil
    · have whole : Consecutive 1 p.log := fun k e found =>
        (sound.piped.pipe.line.current.indexed k e found).trans (Nat.add_comm _ _)
      have rest := (whole.drop rn.raft.raftLog.applying).take
        (n := rn.raft.raftLog.maxAppliableIndex
        rn.applyUnstableEntries - rn.raft.raftLog.applying)
      rw [Nat.add_comm] at rest
      exact rest.of_isPrefix part
  · cases taken with
    | sync mode fresh appliable answers accepts =>
        obtain ⟨_, _, _, _, _, applying⟩ := RawNode.handedOutLog_ok accepts
        exact applying
    | async mode appliable request accepts =>
        obtain ⟨_, _, _, _, _, applying⟩ := RawNode.handedOutLog_ok accepts
        exact applying

/-- The answers to come follow each other, up to what is handed out. -/
structure Host.Relayed (h : Host) (rn : RawNode) : Prop where
  relays : Relays rn.raft.raftLog.applied (h.applyResps rn)
  reach : rn.raft.raftLog.applying ≤ reachAll rn.raft.raftLog.applied (h.applyResps rn)

omit [Codec] in
/-- More is applied, by an answer of the append thread or not at all. -/
theorem Host.Relayed.later (ok : h.Relayed rn)
    (answers : h'.applyResps rn' = h.applyResps rn)
    (applied : rn.raft.raftLog.applied ≤ rn'.raft.raftLog.applied)
    (applying : rn'.raft.raftLog.applying
      ≤ max rn.raft.raftLog.applying rn'.raft.raftLog.applied)
    : h'.Relayed rn' := by
  obtain ⟨relays, reach⟩ := ok
  rw [← answers] at relays reach
  refine ⟨relays.mono applied, applying.trans (Nat.max_le.mpr ⟨?_, le_reachAll _ _⟩)⟩
  exact reach.trans (reachAll_mono _ applied)

/-- Every input of a running node. -/
theorem Host.Turns.relayed (turns : Turns takes changes async arrives h rn h' rn')
    (sound : EtcdRaft.Sound L d async p h rn) (ok : h.Relayed rn)
    : h'.Relayed rn' := by
  cases turns with
  | rest writes appended applied =>
      exact ok.later applied (Nat.le_refl _) (Nat.le_max_left _ _)
  | @call m r steps called remote termed source writes appended applied own =>
      obtain ⟨now, cfg, progress, acts⟩ := called.exists_steps termed
      have keeps := Steps.keeps acts remote
      exact @Host.Relayed.later _ _ _ { rn with raft := r, stepsOnAdvance := steps } ok applied
        keeps.applied.ge (keeps.applying.le.trans (Nat.le_max_left _ _))
  | @answerAppend m r err steps answer handled popped writes applied =>
      obtain ⟨rest, done, _⟩ := sound.done_of_pops answer popped
      obtain ⟨l, stores, piped, acts⟩ := sound.step_stored done handled
      have keeps : Keeps l r.raftLog := Steps.keeps acts rfl
      have grows : rn.raft.raftLog.applied ≤ l.applied
          ∧ l.applying ≤ max rn.raft.raftLog.applying l.applied := by
        rw [stores.applied, stores.applying]
        cases m.snapshot with
        | none => exact ⟨Nat.le_refl _, Nat.le_max_left _ _⟩
        | some s => exact ⟨Nat.le_max_right _ _, Nat.le_refl _⟩
      rw [← keeps.applied, ← keeps.applying] at grows
      exact @Host.Relayed.later _ _ _ { rn with raft := r, stepsOnAdvance := steps } ok applied
        grows.1 grows.2
  | @answerApply m r err steps answer handled popped writes appended applied =>
      obtain ⟨relays, reach⟩ := ok
      rw [applied] at relays reach
      rcases Raft.step_applied answer.type answer.term handled with
        ⟨same, empty⟩ | ⟨e, l, last, applies, acts⟩
      · have log : r.raftLog = rn.raft.raftLog := congrArg Core.raftLog same
        have stays : m.reach rn.raft.raftLog.applied = rn.raft.raftLog.applied := by
          unfold Message.reach
          rw [empty]
          exact Nat.max_zero _
        rw [← log] at stays relays reach
        exact ⟨stays ▸ relays.2, (show _ = _ from stays) ▸ reach⟩
      · obtain ⟨_, _, _, _, _, applying, applied', _⟩ := appliedTo_ok applies
        have keeps : Keeps l r.raftLog := Steps.keeps acts rfl
        have moves : r.raftLog.applied = m.reach rn.raft.raftLog.applied := by
          unfold Message.reach
          rw [keeps.applied, applied', last]
          exact Nat.max_comm _ _
        refine ⟨moves ▸ relays.2, ?_⟩
        show r.raftLog.applying ≤ reachAll r.raftLog.applied _
        rw [keeps.applying, applying, ← applied', ← keeps.applied]
        refine Nat.max_le.mpr ⟨?_, le_reachAll _ _⟩
        rw [moves]
        exact reach
  | @ready rn' rd taken writes appended applied may =>
      obtain ⟨l, same, _, _, _, kept, _⟩ := taken.handsOut
      have kept : rn'.raft.raftLog.applied = rn.raft.raftLog.applied :=
        (congrArg (fun c => c.raftLog.applied) same).trans kept
      obtain ⟨consecutive, applying⟩ := taken.relays sound
      unfold RawNode.applyAnswers at applied
      split at applied
      · refine ⟨?_, ?_⟩
        · rw [kept, applied]
          exact ok.relays.append (Nat.succ_le_succ ok.reach) consecutive
        · rw [kept, applied, reachAll_append, applying]
          unfold Message.reach
          show _ ≤ max _ ((rd.committedEntries.getLast?.map Entry.index).getD 0)
          cases rd.committedEntries.getLast? with
          | none => exact ok.reach.trans (Nat.le_max_left _ _)
          | some e => exact Nat.le_max_right _ _
      · rename_i none
        have none : rd.committedEntries = [] := List.length_eq_zero_iff.mp (by omega)
        rw [none] at applying
        rw [List.append_nil] at applied
        exact ok.later applied kept.ge (applying.le.trans (Nat.le_max_left _ _))
  | persist queued stored appended applied =>
      exact ⟨applied ▸ ok.relays, applied ▸ ok.reach⟩
  | createSnapshot below created writes appended applied =>
      exact ⟨applied ▸ ok.relays, applied ▸ ok.reach⟩
  | compact below compacted writes appended applied =>
      exact ⟨applied ▸ ok.relays, applied ▸ ok.reach⟩

-----------------------------------------------------------------------------------------
-- The quota
-----------------------------------------------------------------------------------------

/-- The entries of the log that are not applied yet. -/
def RaftLog.unapplied (l : RaftLog) : List Entry :=
  l.logical.entries.drop (l.applied - l.logical.base)

omit [Codec] in
theorem RaftLog.unapplied_eq {l : RaftLog} {log : List Entry}
    (endOf : l.logical.EndOf log) (below : l.logical.base ≤ l.applied)
    : l.unapplied = log.drop l.applied := by
  unfold unapplied
  rw [endOf.entries, List.drop_drop, Nat.add_sub_cancel' below]

/-- The quota counts the entries that are not applied, and no more than `more` beyond. -/
def Books.Bounded (more : Nat) (b : Books) : Prop :=
  b.uncommittedSize ≤ more + payloadsSize b.raftLog.unapplied

/-- The duties of a leader keep the bound: what is appended is not applied. -/
theorem Books.Grounded.bounded {b b' : Books} {log : List Entry} {heard : Message → Prop}
    {beats : ProgressState → Prop} {changes : Prop} {more : Nat} (ok : b.Grounded log)
    (below : b.raftLog.logical.base ≤ b.raftLog.applied)
    (within : b.raftLog.applied ≤ log.length) (bounded : b.Bounded more)
    (duties : Relation.ReflTransGen (Duty heard beats changes) b b')
    (leads : b'.state = .stateLeader)
    : b'.Bounded more := by
  obtain ⟨es, ok', grown⟩ := ok.duties duties leads
  unfold Bounded at bounded ⊢
  rw [RaftLog.unapplied_eq ok.logical below] at bounded
  rw [RaftLog.unapplied_eq ok'.logical (by rw [grown.base, grown.applied]; exact below),
    grown.applied, grown.quota, List.drop_append_of_le_length within, payloadsSize_append]
  omega

/-- A leader counts no more than what is not applied. -/
def Raft.InQuota (r : Raft) : Prop := r.state = .stateLeader → r.books.Bounded 0

omit [Codec] in
/-- What is not in the logical log is applied. -/
theorem Sound.base_le_applied (sound : Sound L d async p h rn)
    (ok : rn.raft.raftLog.Uncompacted) (free : rn.raft.raftLog.unstable.snapshot = none)
    : rn.raft.raftLog.logical.base ≤ rn.raft.raftLog.applied :=
  (sound.piped.baseStored free).trans (ok free)

/-- An answer of the append thread leaves the quota of a leader as it is. -/
theorem Sound.inQuota_stored {r : Raft} {err : Option StepError} {rest : List Message}
    (sound : Sound L d async p h rn) (first : p.done = m :: rest)
    (uncompacted : rn.raft.raftLog.Uncompacted)
    (free : rn.raft.state = .stateLeader → rn.raft.raftLog.unstable.snapshot = none)
    (handled : rn.raft.step m = .ok (r, err)) (ok : rn.raft.InQuota)
    : r.InQuota := by
  intro leads
  obtain ⟨l, kept, piped, duties⟩ :=
    @Sound.duties_stored _ _ _ _ _ _ _ _ (fun _ => False) (fun _ => False) False _ _ _ sound
      first handled
  have leads₀ := Books.leads_of_duties duties leads
  have free := free leads₀
  -- a leader has no snapshot to store, so the answer carries none
  have plain : m.snapshot = none := by
    cases carries : m.snapshot with
    | none => rfl
    | some s =>
        have member : m ∈ p.resps := List.mem_append_left _ (first ▸ List.mem_cons_self)
        obtain ⟨_, pending, _⟩ := sound.piped.pipe.resps.pending m member s carries
        exact absurd (free.symm.trans pending) nofun
  have applied : l.applied = rn.raft.raftLog.applied := by
    rw [kept.applied, plain]
  have below := sound.base_le_applied uncompacted free
  have bounded := ok leads₀
  have grounded : { rn.raft.books with raftLog := l }.Grounded (p.answered rest).log :=
    piped.grounded (kept.advances.snapshot free)
  refine grounded.bounded ?_ ?_ ?_ duties leads
  · show l.logical.base ≤ l.applied
    rw [applied, kept.logical]
    exact below
  · show l.applied ≤ p.log.length
    exact piped.pipe.index.applied.trans
      (piped.pipe.index.applying.trans piped.pipe.index.committed)
  · show rn.raft.uncommittedSize ≤ 0 + payloadsSize l.unapplied
    unfold RaftLog.unapplied
    rw [kept.logical, applied]
    exact bounded

omit [Codec] in
/-- The entries that an answer of the apply thread is about, as far as they are not
applied yet, are the next ones of the log.
-/
theorem Sound.unapplied_split {e : Entry} {rest : List Message}
    (sound : Sound L d async p h rn) (uncompacted : rn.raft.raftLog.Uncompacted)
    (free : rn.raft.raftLog.unstable.snapshot = none)
    (handed : ∀ e ∈ m.entries, rn.raft.raftLog.Handed e)
    (relays : Relays rn.raft.raftLog.applied (m :: rest))
    (last : m.entries.getLast? = some e)
    : payloadsSize (p.log.drop rn.raft.raftLog.applied)
      ≤ payloadsSize m.entries
        + payloadsSize (p.log.drop (max e.index rn.raft.raftLog.applied)) := by
  obtain ⟨⟨first, next, consecutive⟩, _⟩ := relays
  have below := sound.base_le_applied uncompacted free
  have found : ∀ e ∈ m.entries, rn.raft.raftLog.applied < e.index
      → p.log[e.index - 1]? = some e := by
    intro e member new
    obtain ⟨_, old | ⟨s, pending, _⟩ | found⟩ := handed e member
    · omega
    · exact absurd (free.symm.trans pending) nofun
    · rwa [sound.piped.logical.entry? (by omega)] at found
  have part := consecutive.drop_eq next found
  have index : e.index = first + m.entries.length - 1 := by
    rw [List.getLast?_eq_getElem?] at last
    have inside := (List.getElem?_eq_some_iff.mp last).1
    have index := consecutive _ e last
    omega
  have split := payloadsSize_append ((p.log.drop rn.raft.raftLog.applied).take
    (first + m.entries.length - 1 - rn.raft.raftLog.applied))
    ((p.log.drop rn.raft.raftLog.applied).drop
      (first + m.entries.length - 1 - rn.raft.raftLog.applied))
  rw [List.take_append_drop, part, List.drop_drop, ← index] at split
  rw [split, show rn.raft.raftLog.applied + (e.index - rn.raft.raftLog.applied)
    = max e.index rn.raft.raftLog.applied by omega]
  exact Nat.add_le_add_right (payloadsSize_drop_le _ _) _

/-- An answer of the apply thread takes off what has been applied now. -/
theorem Sound.inQuota_applied {r : Raft} {err : Option StepError} {rest : List Message}
    (sound : Sound L d async p h rn) (answer : m.IsApplyResp)
    (uncompacted : rn.raft.raftLog.Uncompacted)
    (settled : rn.raft.core.Settled m.entries)
    (relays : Relays rn.raft.raftLog.applied (m :: rest))
    (handedOut : ∀ e, m.entries.getLast? = some e → e.index ≤ rn.raft.raftLog.applying)
    (idle : async = false → h.writes = [])
    (handled : rn.raft.step m = .ok (r, err)) (ok : rn.raft.InQuota)
    : r.InQuota := by
  intro leads
  rcases @Sound.duties_applied _ _ _ _ _ _ _ _ (fun _ => False) (fun _ => False) False _ _ sound
    answer
    handedOut idle handled with ⟨_, same⟩ | ⟨e, l, r', floor, last, applies, piped, duties, reduced⟩
  · cases same
    exact ok leads
  cases reduced
  have leads₀ := Books.leads_of_duties duties leads
  have free := settled.snapshot (.inr leads₀)
  have below := sound.base_le_applied uncompacted free
  have bounded : rn.raft.uncommittedSize ≤ 0 + payloadsSize rn.raft.raftLog.unapplied :=
    ok leads₀
  rw [RaftLog.unapplied_eq sound.piped.logical below] at bounded
  have split := sound.unapplied_split uncompacted free settled.handed relays last
  obtain ⟨inside, grows, unstable, storage, _, _, applied, logical⟩ :=
    appliedTo_ok applies
  have endOf : l.logical.EndOf p.log := piped.logical
  have below' : l.logical.base ≤ l.applied := by
    rw [logical, applied]
    exact below.trans grows
  have grounded : { rn.raft.books with raftLog := l }.Grounded { p with floor := floor }.log :=
    piped.grounded (show l.unstable.snapshot = none from unstable ▸ free)
  have bounded' : { rn.raft.books with raftLog := l }.Bounded (payloadsSize m.entries) := by
    show rn.raft.uncommittedSize ≤ payloadsSize m.entries + payloadsSize l.unapplied
    rw [RaftLog.unapplied_eq endOf below', applied]
    omega
  have within : l.applied ≤ p.log.length :=
    applied ▸ inside.trans sound.piped.pipe.index.committed
  have after := grounded.bounded below' within bounded' duties leads
  have after : r'.uncommittedSize ≤ payloadsSize m.entries + payloadsSize r'.raftLog.unapplied :=
    after
  show (if payloadsSize m.entries > r'.uncommittedSize then 0
    else r'.uncommittedSize - payloadsSize m.entries) ≤ 0 + payloadsSize r'.raftLog.unapplied
  split <;> omega

/-- Every input of a running node. -/
theorem Host.Turns.inQuota (turns : Turns takes changes async arrives h rn h' rn')
    (sound : EtcdRaft.Sound L d async p h rn) (uncompacted : rn.raft.raftLog.Uncompacted)
    (settled : rn.raft.core.Settled ((h.applyResps rn).flatMap Message.entries))
    (relayed : h.Relayed rn) (ok : rn.raft.InQuota)
    : rn'.raft.InQuota := by
  have within : rn.raft.raftLog.applied ≤ p.log.length :=
    sound.piped.pipe.index.applied.trans
      (sound.piped.pipe.index.applying.trans sound.piped.pipe.index.committed)
  have leading {r : Raft} {may : Prop} (config : TrackerConfig) (progress : ProgressMap)
      (leads₀ : rn.raft.state = .stateLeader)
      (duties : Relation.ReflTransGen (Books.Duty (fun _ => True) (fun _ => True) may)
        { rn.raft.books with config := config, progress := progress } r.books)
      : r.InQuota := by
    have free := settled.snapshot (.inr leads₀)
    have grounded : { rn.raft.books with config := config, progress := progress }.Grounded p.log :=
      sound.piped.grounded free
    exact grounded.bounded (sound.base_le_applied uncompacted free) within (ok leads₀) duties
  have conducted {r : Raft} (conducts : rn.raft.Conducts (fun _ => True) (fun _ => True) False r)
      : r.InQuota := by
    intro leads
    cases conducts with
    | leads leads₀ duties => exact leading _ _ leads₀ duties leads
    | @risen own candidate found duties =>
        have free := settled.snapshot (.inl (.inr candidate))
        have grounded : (rn.raft.books.takenOver own).Grounded p.log :=
          sound.piped.grounded free
        exact grounded.bounded (sound.base_le_applied uncompacted free) within (Nat.zero_le _)
          duties leads
    | other state => exact absurd leads state
  cases turns with
  | rest writes appended applied => exact ok
  | call called remote termed source writes appended applied own =>
      cases called with
      | step steps =>
          exact conducted
            ((rn.raft.conducts_step remote trivial fun _ => Books.within_all _).result steps)
      | tick ticks =>
          exact conducted ((rn.raft.conducts_tick fun _ => Books.within_all _).result ticks)
      | applyConfChange applied may =>
          intro leads
          obtain ⟨leads₀, config, progress, _, duties⟩ :=
            (rn.raft.duties_applyConfChange _).result applied leads
          exact leading config progress leads₀ duties leads
  | answerAppend answer handled popped writes applied =>
      obtain ⟨rest, done, _⟩ := sound.done_of_pops answer popped
      exact sound.inQuota_stored done uncompacted (fun leads => settled.snapshot (.inr leads))
        handled ok
  | @answerApply m r err _ answer handled popped writes appended applied =>
      have relays := relayed.relays
      have handedOut := sound.applyResps m (applied ▸ List.mem_cons_self)
      have idle : async = false → h.writes = [] := by
        rintro rfl
        exact popped.2.2.1
      rw [applied] at relays settled
      refine sound.inQuota_applied answer uncompacted (settled.requeue fun e member => ?_) relays
        handedOut idle handled ok
      exact .inl (List.mem_append_left _ member)
  | ready taken writes appended applied =>
      obtain ⟨l, same, _, _, _, applied, logical⟩ := taken.handsOut
      have log : rn'.raft.raftLog = l := congrArg Core.raftLog same
      have state : rn'.raft.state = rn.raft.state := congrArg Books.state taken.books
      unfold Raft.InQuota
      rw [taken.books, log, state]
      intro leads
      show rn.raft.uncommittedSize ≤ 0 + payloadsSize l.unapplied
      unfold RaftLog.unapplied
      rw [applied, logical]
      exact ok leads
  | persist queued stored appended applied => exact ok
  | createSnapshot below created writes appended applied => exact ok
  | compact below compacted writes appended applied => exact ok

-----------------------------------------------------------------------------------------
-- Whole lifetimes
-----------------------------------------------------------------------------------------

/-- The node, if it runs, counts its uncommitted entries as it should. -/
structure Host.Metered (h : Host) (rn : RawNode) : Prop where
  settled : rn.raft.core.Settled ((h.applyResps rn).flatMap Message.entries)
  uncompacted : rn.raft.raftLog.Uncompacted
  relayed : h.Relayed rn
  quota : rn.raft.InQuota

/-- Only a `Ready` brings new answers. -/
theorem Host.Turns.answers (turns : Turns takes changes async arrives h rn h' rn')
    (new : m ∈ h'.applyResps rn')
    : m ∈ h.applyResps rn ∨ ∃ rd, rn.Taken rn' rd ∧ m.entries = rd.committedEntries := by
  cases turns with
  | rest writes appended applied => exact .inl (applied ▸ new)
  | @call _ r steps called remote termed source writes appended applied own =>
      have same : h'.applyResps { rn with raft := r, stepsOnAdvance := steps } = h.applyResps rn :=
        applied
      exact .inl (same ▸ new)
  | @answerAppend _ r err steps answer handled popped writes applied =>
      have same : h'.applyResps { rn with raft := r, stepsOnAdvance := steps } = h.applyResps rn :=
        applied
      exact .inl (same ▸ new)
  | answerApply answer handled popped writes appended applied =>
      rw [applied]
      exact .inl (List.mem_cons_of_mem _ new)
  | ready taken writes appended applied =>
      rw [applied] at new
      exact (List.mem_append.mp new).imp_right
        fun new => ⟨_, taken, RawNode.mem_applyAnswers new⟩
  | persist queued stored appended applied => exact .inl (applied ▸ new)
  | createSnapshot below created writes appended applied => exact .inl (applied ▸ new)
  | compact below compacted writes appended applied => exact .inl (applied ▸ new)

theorem Host.Metered.turns (ok : h.Metered rn) (logs : ∀ t, Matched L (L t))
    (network : ∀ m, arrives m → m.OfLeader L) (sound : EtcdRaft.Sound L d async p h rn)
    (turns : Turns takes changes async arrives h rn h' rn')
    : h'.Metered rn' where
  settled := by
    refine (turns.settled logs network sound ok.settled).requeue fun e member => ?_
    obtain ⟨m, queued, member⟩ := List.mem_flatMap.mp member
    rcases turns.answers queued with old | ⟨rd, taken, same⟩
    · exact .inl (List.mem_flatMap.mpr ⟨m, old, member⟩)
    · exact .inr (taken.handed sound e (same ▸ member))
  uncompacted := turns.uncompacted sound ok.uncompacted
  relayed := turns.relayed sound ok.relayed
  quota := turns.inQuota sound ok.uncompacted ok.settled ok.relayed ok.quota

omit [Codec] in
/-- Entries can always be appended behind the log. -/
theorem Shows.exists_append {l : RaftLog} {log es : List Entry} (shows : Shows l log)
    (committed : l.committed ≤ log.length) (new : Consecutive (log.length + 1) es)
    : ∃ l', l.append es = .ok l' := by
  unfold RaftLog.append
  cases es with
  | nil => exact ⟨l, rfl⟩
  | cons e rest =>
      have count := shows.length_entries
      have index : e.index = log.length + 1 := new.head
      have after : sub64 e.index 1 = log.length := by
        rw [sub64_of_le (by omega)]
        omega
      dsimp only
      rw [after, if_neg (Nat.not_lt.mpr committed)]
      unfold Unstable.truncateAndAppend
      dsimp only
      rw [if_pos (by omega)]
      exact ⟨_, rfl⟩

omit [Codec] in
theorem Raft.increaseUncommittedSize_free {r : Raft} (free : r.uncommittedSize = 0)
    (es : List Entry)
    : r.increaseUncommittedSize es
      = ({ r with uncommittedSize := 0 + payloadsSize es }, true) := by
  unfold increaseUncommittedSize
  dsimp only
  rw [free, if_neg (fun above => Nat.lt_irrefl 0 above.1)]

omit [Codec] in
/-- A leader with no uncommitted size accepts entries of any size. -/
theorem Raft.exists_appendEntry {r : Raft} {log : List Entry}
    (shows : Shows r.raftLog log)
    (committed : r.raftLog.committed ≤ log.length) (free : r.uncommittedSize = 0)
    (es : List Entry)
    : ∃ r', r.appendEntry es = .ok (r', true) := by
  have new := r.books.consecutive_stamped es
  obtain ⟨l, appends⟩ := shows.exists_append committed (shows.lastIndex ▸ new)
  have appends : r.raftLog.append (es.mapIdx fun i e =>
    { e with term := r.term, index := r.raftLog.lastIndex + 1 + i }) = .ok l := appends
  unfold appendEntry
  simp only [increaseUncommittedSize_free free, appends]
  exact ⟨_, rfl⟩

namespace Launch

variable {x : Launch} {services : List Service}

omit [Codec] in
theorem Up.metered (up : x.Up rn h) : h.Metered rn := by
  have none : h.applyResps rn = [] := by
    unfold Host.applyResps
    rw [up.applied, up.batches, up.steps]
    rfl
  have log := up.started.log
  refine ⟨?_, fun _ => ?_, ⟨?_, ?_⟩, fun leads => absurd (up.started.state.symm.trans leads) nofun⟩
  · rw [none]
    exact .of_follower up.started.state (List.forall_mem_nil _)
  · rw [log.storage]
    exact log.available
  · rw [none]
    trivial
  · rw [none, log.applying]
    exact Nat.le_refl _

/-- The size that a leader counts is at most that of the entries of its log that are not
applied yet. Once all of them are applied it is 0, and entries of any size are accepted.
-/
theorem uncommittedSize_le_unapplied (logs : ∀ t, Matched L (L t))
    (prepared : x.Prepared L)
    (served : Host.Served x.setup x.id (Host.Accepts L x.setup x.id) x.host services)
    (node : (x.serve services).node = some rn) (leads : rn.raft.state = .stateLeader)
    : (rn.raft.raftLog.entriesBetween (rn.raft.raftLog.applied + 1)
          (rn.raft.raftLog.lastIndex + 1)).length
        = rn.raft.raftLog.lastIndex - rn.raft.raftLog.applied
      ∧ rn.raft.uncommittedSize ≤ payloadsSize (rn.raft.raftLog.entriesBetween
          (rn.raft.raftLog.applied + 1) (rn.raft.raftLog.lastIndex + 1))
      ∧ (rn.raft.raftLog.lastIndex ≤ rn.raft.raftLog.applied → rn.raft.uncommittedSize = 0
        ∧ ∀ es, ∃ r', rn.raft.appendEntry es = .ok (r', true)) := by
  obtain ⟨d, _, start⟩ := host_ordered prepared
  obtain ⟨ordered, metered⟩ := serve_invariant (p := Host.Metered) logs start served
    (fun _ _ accepts => accepts) (fun _ up => up.metered) <| by
      intro h s rn rn' ordered accepts node node' metered
      obtain ⟨rn₁, arrives, node₁, network, turns, _⟩ := accepts.turns ordered node'
      cases node.symm.trans node₁
      obtain ⟨p, sound⟩ := ordered.sound rn node
      exact metered.turns logs network sound turns
  obtain ⟨p, sound⟩ := ordered.sound rn node
  obtain ⟨settled, uncompacted, _, quota⟩ := metered rn node
  have free : rn.raft.raftLog.unstable.snapshot = none := settled.snapshot (.inr leads)
  have below := sound.base_le_applied uncompacted free
  have shows := sound.piped.pipe.shows
  have committed := sound.piped.pipe.index.committed
  have available : rn.raft.raftLog.firstIndex ≤ rn.raft.raftLog.applied + 1 := by
    unfold RaftLog.firstIndex Unstable.maybeFirstIndex
    rw [free]
    exact Nat.succ_le_succ (uncompacted free)
  have between : rn.raft.raftLog.entriesBetween (rn.raft.raftLog.applied + 1)
      (rn.raft.raftLog.lastIndex + 1) = p.log.drop rn.raft.raftLog.applied := by
    rw [shows.entriesBetween available, shows.lastIndex, Nat.add_sub_cancel, Nat.add_sub_add_right,
      ← List.length_drop, List.take_length]
  have bounded : rn.raft.uncommittedSize ≤ 0 + payloadsSize rn.raft.raftLog.unapplied :=
    quota leads
  rw [RaftLog.unapplied_eq sound.piped.logical below, Nat.zero_add] at bounded
  rw [between, shows.lastIndex]
  refine ⟨List.length_drop, bounded, fun all => ?_⟩
  rw [List.drop_eq_nil_of_le all] at bounded
  have zero : rn.raft.uncommittedSize = 0 := Nat.le_zero.mp bounded
  exact ⟨zero, Raft.exists_appendEntry shows committed zero⟩

end Launch

end

attribute [local instance] Codec.wire

/-- The log of the only leader, with a proposal of one byte. -/
def firstProposal (t : Nat) : List Entry :=
  if t = 1 then [{ term := 1, index := 1 }, { term := 1, index := 2, data := [7] }] else []

theorem firstProposal_matched (t : Nat) : Matched firstProposal (firstProposal t) := by
  by_cases first : t = 1
  · subst first
    exact .of_fin (by decide)
  · rw [firstProposal, if_neg first]
    exact .nil

/-- The node is elected, and a proposal is made. -/
def proposes : List Input :=
  [.event .campaign] ++ handleReady 0 1 ++ handleReady 0 2 ++ [.event (.propose [7])]

theorem uncommittedSize_le_unapplied_loneVoter
    : ∃ rn, (loneVoter.serve (proposes.map .input)).node = some rn
      ∧ rn.raft.raftLog.lastIndex - rn.raft.raftLog.applied = 2 ∧ rn.raft.uncommittedSize = 1
      ∧ rn.raft.uncommittedSize ≤ payloadsSize (rn.raft.raftLog.entriesBetween
          (rn.raft.raftLog.applied + 1) (rn.raft.raftLog.lastIndex + 1)) := by
  have state : (loneVoter.serve (proposes.map .input)).node.map
      (fun rn => (rn.raft.state, rn.raft.raftLog.lastIndex - rn.raft.raftLog.applied,
        rn.raft.uncommittedSize)) = some (.stateLeader, 2, 1) := by
    decide +kernel
  obtain ⟨rn, node, state⟩ := Option.map_eq_some_iff.mp state
  simp only [Prod.mk.injEq] at state
  have prepared : loneVoter.Prepared firstProposal :=
    ⟨⟨[], ⟨Nat.le_refl _, rfl, rfl⟩, .nil⟩, Nat.le_refl _⟩
  have served : Host.Served loneVoter.setup loneVoter.id
      (Host.Accepts firstProposal loneVoter.setup loneVoter.id) loneVoter.host
      (proposes.map .input) := by
    decide +kernel
  exact ⟨rn, node, state.2.1, state.2.2,
    (Launch.uncommittedSize_le_unapplied firstProposal_matched prepared served node state.1).2.1⟩

end EtcdRaft
