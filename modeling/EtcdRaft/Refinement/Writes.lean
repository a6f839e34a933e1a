import EtcdRaft.Refinement.Core
import EtcdRaft.Refinement.LogChanges

/-! The pipeline when a `Ready` hands out a write and when a write becomes durable. -/

namespace EtcdRaft

variable {L : Nat → List Entry} {async : Bool} {p : Pipeline} {l l' : RaftLog}
  {u : Unstable}

-----------------------------------------------------------------------------------------
-- Chains of writes
-----------------------------------------------------------------------------------------

theorem endFloor_append (floor : Nat) (slots more : List Slot)
    : endFloor floor (slots ++ more) = endFloor (endFloor floor slots) more := by
  simp [endFloor]

theorem lastVersion_append (v : Version) (slots : List Slot) (s : Slot)
    : lastVersion v (slots ++ [s]) = s.version := by
  induction slots generalizing v with
  | nil => rfl
  | cons s' rest ih => exact ih s'.version

theorem Chain.append {floor : Nat} {v : Version} {slots : List Slot} {s : Slot}
    (chain : Chain floor v.log slots)
    (follows : s.Follows (endFloor floor slots) (lastVersion v slots).log)
    : Chain floor v.log (slots ++ [s]) := by
  induction slots generalizing floor v with
  | nil => exact ⟨follows, trivial⟩
  | cons s' rest ih => exact ⟨chain.1, ih chain.2 follows⟩

/-- A version is at least as long as the floor. -/
theorem Slot.Follows.floor_le {floor : Nat} {log : List Entry} {s : Slot}
    (follows : s.Follows floor log) (within : floor ≤ log.length)
    : s.floorAfter floor ≤ s.version.log.length := by
  unfold Slot.Follows at follows
  unfold Slot.floorAfter
  cases snapshot : s.snapshot with
  | some sn =>
      rw [snapshot] at follows
      exact follows.2.2.1
  | none =>
      rw [snapshot] at follows
      have length := congrArg List.length follows.2.1
      rw [List.length_take, List.length_take] at length
      simp only
      omega

theorem Chain.endFloor_le {floor : Nat} {v : Version} {slots : List Slot}
    (chain : Chain floor v.log slots) (within : floor ≤ v.log.length)
    : endFloor floor slots ≤ (lastVersion v slots).log.length := by
  induction slots generalizing floor v with
  | nil => exact within
  | cons s rest ih => exact ih chain.2 (chain.1.floor_le within)

/-- The floor rises to the length of what all the versions hold. -/
theorem Chain.raise {floor k : Nat} {log x : List Entry} {slots : List Slot}
    (chain : Chain floor log slots) (here : x <+: log)
    (held : ∀ s ∈ slots, s.snapshot = none ∧ x <+: s.version.log
      ∧ (s.entries ≠ [] → k < s.version.log.length))
    (within : k ≤ x.length)
    : Chain k log slots := by
  induction slots generalizing floor log with
  | nil => exact trivial
  | cons s rest ih =>
      obtain ⟨none, holds, longer⟩ := held s List.mem_cons_self
      have follows := chain.1
      have rest' := fun s member => held s (List.mem_cons_of_mem _ member)
      have take : ∀ {c : List Entry}, x <+: c → c.take k = x.take k := by
        intro c pre
        obtain ⟨more, rfl⟩ := pre
        exact List.take_append_of_le_length within
      refine ⟨?_, ?_⟩
      · unfold Slot.Follows at follows ⊢
        rw [none] at follows ⊢
        exact ⟨follows.1, (take holds).trans (take here).symm, follows.2.2.1, longer⟩
      · rw [Slot.floorAfter, none]
        exact ih chain.2 holds rest'

-----------------------------------------------------------------------------------------
-- A Ready
-----------------------------------------------------------------------------------------

/-- The write that a `Ready` hands out. -/
def Pipeline.slot (p : Pipeline) (u : Unstable) (resps : List Message) : Slot where
  entries := u.nextEntries
  snapshot := u.nextSnapshot
  resps := resps
  version := { term := p.term, log := p.log }

/-- The answer that will come after the write: it tells the end of the log, if there are
unstable entries, and the snapshot that is handed out.
-/
inductive NewResps (p : Pipeline) (u : Unstable) : List Message → Prop where
  | none (entries : u.entries = []) (snapshot : u.nextSnapshot = none) : NewResps p u []
  | one (m : Message) (type : m.type = .msgStorageAppendResp) (term : m.term = p.term)
      (nonzero : p.term ≠ 0) (snapshot : m.snapshot = u.nextSnapshot)
      (index : if u.entries = [] then m.index = 0
        else m.index = p.log.length ∧ m.logTerm = termAt p.log p.log.length)
    : NewResps p u [m]

theorem UnstableOk.nextEntries {log : List Entry} (ok : UnstableOk u log)
    : u.nextEntries = log.drop (u.offsetInProgress - 1) := by
  have := ok.positive
  have := ok.ordered
  rw [Unstable.nextEntries, ok.entries, List.drop_drop]
  congr 1
  omega

/-- Everything in the log has been handed out. -/
theorem UnstableOk.acceptInProgress_offset {log : List Entry} (ok : UnstableOk u log)
    (indexed : Indexed log)
    : u.acceptInProgress.offsetInProgress = log.length + 1 := by
  have positive := ok.positive
  have ordered := ok.ordered
  have within := ok.within
  unfold Unstable.acceptInProgress
  cases last : u.entries.getLast? with
  | none =>
      have empty := congrArg List.length (List.getLast?_eq_none_iff.mp last)
      rw [ok.entries, List.length_drop, List.length_nil] at empty
      simp only
      omega
  | some e =>
      have nonempty : u.entries.length ≠ 0 := by
        intro zero
        simp [List.length_eq_zero_iff.mp zero] at last
      have found : log[log.length - 1]? = some e := by
        rw [List.getLast?_eq_getElem?, ok.entries, List.getElem?_drop, List.length_drop] at last
        rw [← last]
        congr 1
        rw [ok.entries, List.length_drop] at nonempty
        omega
      have index := indexed _ e found
      have := (List.getElem?_eq_some_iff.mp found).1
      simp only
      omega

theorem UnstableOk.acceptInProgress {log : List Entry} (ok : UnstableOk u log)
    (indexed : Indexed log)
    : UnstableOk u.acceptInProgress log where
  positive := ok.positive
  ordered := by
    have := ok.ordered
    have := ok.within
    rw [ok.acceptInProgress_offset indexed]
    exact ok.ordered.trans ok.within
  within := (ok.acceptInProgress_offset indexed).le
  entries := ok.entries
  snapshot := ok.snapshot
  unhanded := by
    intro some notYet
    simp only [Unstable.acceptInProgress] at some notYet
    simp [some] at notYet
  idle := by
    intro absent
    have absent : u.snapshot = none := absent
    simp [Unstable.acceptInProgress, absent, ok.idle absent]

/-- A snapshot is handed out once. -/
theorem Unstable.nextSnapshot_eq_some {sn : Snapshot}
    : u.nextSnapshot = some sn ↔ u.snapshot = some sn ∧ u.snapshotInProgress = false := by
  unfold Unstable.nextSnapshot
  split
  · rename_i inProgress
    simp [inProgress]
  · rename_i notYet
    simp [Bool.eq_false_iff.mpr notYet]

theorem Pipe.slot_follows (pipe : Pipe L async p l) (resps : List Message)
    : (p.slot l.unstable resps).Follows (endFloor p.floor p.slots) p.last.log := by
  have ok := pipe.unstable
  have entries := ok.nextEntries
  have handed := pipe.line.handed
  have within := ok.within
  unfold Slot.Follows
  cases snapshot : (p.slot l.unstable resps).snapshot with
  | some sn =>
      obtain ⟨pending, notYet⟩ := Unstable.nextSnapshot_eq_some.mp snapshot
      obtain ⟨offset, data, term, _⟩ := ok.snapshot sn pending
      have unhanded := ok.unhanded (by rw [pending]; rfl) notYet
      refine ⟨?_, data, ?_, term, pipe.line.fresh sn pending notYet⟩
      · show l.unstable.nextEntries = _
        rw [entries, unhanded, offset, Nat.add_sub_cancel]
        rfl
      · simp only [Pipeline.slot]
        omega
  | none =>
      have ready : l.unstable.snapshot = none ∨ l.unstable.snapshotInProgress = true := by
        cases pending : l.unstable.snapshot with
        | none => exact .inl rfl
        | some sn =>
            refine .inr ?_
            by_contra notYet
            have next : (p.slot l.unstable resps).snapshot = some sn :=
              Unstable.nextSnapshot_eq_some.mpr ⟨pending, by simpa using notYet⟩
            rw [next] at snapshot
            cases snapshot
      obtain ⟨pre, whole⟩ := pipe.line.last ready
      have taken : p.log.take (endFloor p.floor p.slots)
          = p.last.log.take (endFloor p.floor p.slots) := by
        obtain ⟨more, eq⟩ := pre
        rw [← eq, List.take_append_of_le_length (by rw [List.length_take]; omega), List.take_take,
          Nat.min_eq_left (by omega)]
      refine ⟨⟨_, entries, pre⟩, taken, fun empty => ?_, fun some => ?_⟩
      · refine (whole ?_).symm
        have empty : l.unstable.nextEntries = [] := empty
        rw [entries, List.drop_eq_nil_iff] at empty
        omega
      · have some : l.unstable.nextEntries ≠ [] := some
        rw [entries, ne_eq, List.drop_eq_nil_iff] at some
        simp only [Pipeline.slot]
        omega

theorem LineOk.handOut (pipe : Pipe L async p l) (resps : List Message)
    : LineOk L { p with slots := p.slots ++ [p.slot l.unstable resps] }
        l.unstable.acceptInProgress := by
  have ok := pipe.line
  have unstable := pipe.unstable
  have handed := ok.handed
  have within := unstable.within
  have offset := unstable.acceptInProgress_offset ok.current.indexed
  have follows := pipe.slot_follows resps
  have members : ∀ v ∈ p.durable :: (p.slots ++ [p.slot l.unstable resps]).map Slot.version,
      v ∈ p.versions ∨ v = { term := p.term, log := p.log } := by
    intro v member
    simp only [List.map_append, List.map_cons, List.map_nil, List.mem_cons, List.mem_append,
      List.not_mem_nil, or_false] at member
    rcases member with rfl | old | new
    · exact .inl List.mem_cons_self
    · exact .inl (List.mem_cons_of_mem _ old)
    · exact .inr new
  have last : Pipeline.last { p with slots := p.slots ++ [p.slot l.unstable resps] }
      = { term := p.term, log := p.log } := lastVersion_append _ _ _
  exact {
    current := ok.current
    matched := fun v member => (members v member).elim (ok.matched v) fun same =>
      same ▸ ok.current
    chain := ok.chain.append follows
    handed := by
      rw [offset, endFloor_append]
      have := follows.floor_le (ok.chain.endFloor_le pipe.storage.floor)
      simp only [Pipeline.slot] at this
      exact Nat.lt_succ_of_le this
    fresh := by
      intro sn pending notYet
      have pending : l.unstable.snapshot = some sn := pending
      simp [Unstable.acceptInProgress, pending] at notYet
    agree := fun absent v member => (members v member).elim (ok.agree absent v) fun same =>
      same ▸ List.take_prefix _ _
    beyond := by
      intro absent s member some
      rcases List.mem_append.mp member with old | new
      · exact ok.beyond absent s old some
      · have ordered := unstable.ordered
        rw [List.mem_singleton] at new
        subst new
        have some : l.unstable.nextEntries ≠ [] := some
        rw [unstable.nextEntries, ne_eq, List.drop_eq_nil_iff] at some
        simp only [Unstable.acceptInProgress, Pipeline.slot]
        omega
    whole := fun absent empty v member => (members v member).elim (ok.whole absent empty v)
      fun same => same ▸ rfl
    last := by
      intro _
      rw [last]
      exact ⟨List.take_prefix _ _, fun _ => rfl⟩
    same := fun v member => (members v member).elim (ok.same v) fun same =>
      same ▸ ⟨Nat.le_refl _, fun _ => .inl rfl⟩ }

/-- An answer for an earlier write, with the new write in flight. -/
theorem RespOk.handOut {m : Message} {v : Version} {rest : List Slot}
    {resps : List Message}
    (unstable : UnstableOk l.unstable p.log) (indexed : Indexed p.log)
    (ok : RespOk L p l.unstable m v rest)
    : RespOk L { p with slots := p.slots ++ [p.slot l.unstable resps] }
        l.unstable.acceptInProgress m v (rest ++ [p.slot l.unstable resps]) where
  type := ok.type
  term := ok.term
  within := ok.within
  entries := by
    intro current some
    refine (ok.entries current some).imp_left fun held => ?_
    have handed := held.handed
    have within := unstable.within
    exact {
      term := held.term
      here := held.here
      later := by
        intro s member
        rcases List.mem_append.mp member with old | new
        · exact held.later s old
        · rw [List.mem_singleton] at new
          subst new
          refine ⟨rfl, held.current, fun some => ?_⟩
          have some : l.unstable.nextEntries ≠ [] := some
          rw [unstable.nextEntries, ne_eq, List.drop_eq_nil_iff] at some
          simp only [Pipeline.slot]
          omega
      current := held.current
      handed := by
        rw [unstable.acceptInProgress_offset indexed]
        omega }
  snapshot := by
    intro s sn carried pending same w member
    simp only [List.map_append, List.map_cons, List.map_nil, ← List.cons_append, List.mem_append,
      List.mem_singleton] at member
    rcases member with old | new
    · exact ok.snapshot s sn carried pending same w old
    · subst new
      exact ⟨List.take_prefix _ _, fun _ => rfl⟩

/-- The answer for the new write. -/
theorem NewResps.respOk {resps : List Message} (new : NewResps p l.unstable resps)
    (unstable : UnstableOk l.unstable p.log) (current : Matched L p.log)
    : ∀ m ∈ resps, RespOk L { p with slots := p.slots ++ [p.slot l.unstable resps] }
        l.unstable.acceptInProgress m { term := p.term, log := p.log } [] := by
  intro m member
  cases new with
  | none entries snapshot => simp at member
  | one m' type term nonzero snapshot index =>
      rw [List.mem_singleton] at member
      subst member
      have snapshot : ∀ s sn, m.snapshot = some s → l.unstable.acceptInProgress.snapshot = some sn
          → sn.metadata.index = s.metadata.index
          → Restored { p with slots := p.slots ++ [p.slot l.unstable [m]] } s.metadata.index
            { term := p.term, log := p.log } [] := by
        intro s sn _ _ _ w member
        simp only [List.map_nil, List.mem_singleton] at member
        subst member
        exact ⟨List.take_prefix _ _, fun _ => rfl⟩
      by_cases empty : l.unstable.entries = []
      · rw [if_pos empty] at index
        exact ⟨type, ⟨term.le, term ▸ nonzero⟩, index ▸ Nat.zero_le _,
          fun _ some => absurd index some, snapshot⟩
      · rw [if_neg empty] at index
        obtain ⟨index, logTerm⟩ := index
        have whole := current.whole
        rw [← logTerm] at whole
        have same : answered L m = p.log := by
          rw [answered, index]
          exact (List.prefix_iff_eq_take.mp whole).symm
        refine ⟨type, ⟨term.le, term ▸ nonzero⟩, index ▸ whole.length_le, fun _ _ => .inl ?_,
          snapshot⟩
        rw [same]
        refine ⟨rfl, List.prefix_rfl, List.forall_mem_nil _, List.prefix_rfl, ?_⟩
        rw [unstable.acceptInProgress_offset current.indexed]
        exact Nat.lt_succ_self _

theorem SlotsOk.append {p' : Pipeline} {u' : Unstable} {slots : List Slot} {s : Slot}
    (ok : SlotsOk L p u slots)
    (each : ∀ m v rest, RespOk L p u m v rest → RespOk L p' u' m v (rest ++ [s]))
    (new : ∀ m ∈ s.resps, RespOk L p' u' m s.version [])
    : SlotsOk L p' u' (slots ++ [s]) := by
  induction slots with
  | nil => exact ⟨new, trivial⟩
  | cons s' rest ih => exact ⟨fun m member => each m _ _ (ok.1 m member), ih ok.2⟩

/-- A guard is kept if the snapshot is carried by an answer, or by the next one. -/
theorem Guarded.append {T i : Nat} {log : List Entry} {resps more : List Message}
    (guarded : Guarded L T i log resps)
    (carried : (∃ m ∈ resps, m.snapshot.map (fun s => s.metadata.index) = some i)
      ∨ ∀ m ∈ more, m.snapshot.map (fun s => s.metadata.index) = some i)
    : Guarded L T i log (resps ++ more) := by
  induction resps with
  | nil =>
      cases more with
      | nil => exact trivial
      | cons m rest =>
          refine .inl (carried.elim ?_ fun all => all m List.mem_cons_self)
          intro some
          simp at some
  | cons m rest ih =>
      rcases guarded with here | ⟨stale, guarded⟩
      · exact .inl here
      by_cases carries : m.snapshot.map (fun s => s.metadata.index) = some i
      · exact .inl carries
      refine .inr ⟨stale, ih guarded (carried.imp_left ?_)⟩
      intro ⟨m', member, carries'⟩
      rcases List.mem_cons.mp member with rfl | later
      · exact absurd carries' carries
      · exact ⟨m', later, carries'⟩

theorem NewResps.snapshot {resps : List Message} (new : NewResps p u resps) {m : Message}
    (member : m ∈ resps)
    : m.snapshot = u.nextSnapshot := by
  cases new with
  | none => simp at member
  | one m' type term nonzero snapshot index =>
      rw [List.mem_singleton] at member
      exact member ▸ snapshot

theorem NewResps.exists_snapshot {resps : List Message} (new : NewResps p u resps)
    {sn : Snapshot} (next : u.nextSnapshot = some sn)
    : ∃ m ∈ resps, m.snapshot = some sn := by
  cases new with
  | none entries snapshot =>
      rw [next] at snapshot
      cases snapshot
  | one m type term nonzero snapshot index =>
      exact ⟨m, List.mem_cons_self, snapshot.trans next⟩

theorem NewResps.filterMap_snapshot {resps : List Message} (new : NewResps p u resps)
    : resps.filterMap Message.snapshot = u.nextSnapshot.toList := by
  cases new with
  | none entries snapshot => simp [snapshot]
  | one m type term nonzero snapshot index =>
      cases next : u.nextSnapshot <;> simp [snapshot, next]

theorem resps_append (p : Pipeline) (s : Slot)
    : Pipeline.resps { p with slots := p.slots ++ [s] } = p.resps ++ s.resps := by
  simp [Pipeline.resps]

theorem RespsOk.handOut {resps : List Message} (pipe : Pipe L async p l)
    (new : NewResps p l.unstable resps)
    : RespsOk L { p with slots := p.slots ++ [p.slot l.unstable resps] }
        l.unstable.acceptInProgress := by
  have ok := pipe.resps
  have unstable := pipe.unstable
  have indexed := pipe.line.current.indexed
  have inProgress : ∀ sn, l.unstable.snapshot = some sn
      → l.unstable.acceptInProgress.snapshotInProgress = true := by
    intro sn pending
    simp [Unstable.acceptInProgress, pending]
  have pendingOf : ∀ {m s}, m ∈ resps → m.snapshot = some s
      → l.unstable.snapshot = some s ∧ l.unstable.snapshotInProgress = false := by
    intro m s member carried
    rw [new.snapshot member] at carried
    exact Unstable.nextSnapshot_eq_some.mp carried
  exact {
    done := fun m member => (ok.done m member).handOut unstable indexed
    slots := ok.slots.append (fun _ _ _ old => old.handOut unstable indexed)
      (new.respOk unstable pipe.line.current)
    doneFloor := ok.doneFloor
    slotSnap := by
      intro s member sn some
      rcases List.mem_append.mp member with old | young
      · exact ok.slotSnap s old sn some
      · rw [List.mem_singleton] at young
        subst young
        exact new.exists_snapshot some
    respSnap := by
      intro s member m carries sn some
      rcases List.mem_append.mp member with old | new'
      · exact ok.respSnap s old m carries sn some
      · rw [List.mem_singleton] at new'
        subst new'
        rw [new.snapshot carries] at some
        exact some
    increasing := by
      rw [resps_append, List.filterMap_append, List.pairwise_append]
      refine ⟨ok.increasing, ?_, ?_⟩
      · show (resps.filterMap Message.snapshot).Pairwise _
        rw [new.filterMap_snapshot]
        cases l.unstable.nextSnapshot <;> simp
      · intro s old s' young
        obtain ⟨m, member, carried⟩ := List.mem_filterMap.mp old
        obtain ⟨m', member', carried'⟩ := List.mem_filterMap.mp young
        obtain ⟨pending, notYet⟩ := pendingOf member' carried'
        obtain ⟨sn, same, order⟩ := ok.pending m member s carried
        rw [pending] at same
        cases same
        rcases order with less | ⟨_, started⟩
        · exact less
        · rw [notYet] at started
          cases started
    pending := by
      intro m member s carried
      rw [resps_append] at member
      rcases List.mem_append.mp member with old | young
      · obtain ⟨sn, pending, order⟩ := ok.pending m old s carried
        exact ⟨sn, pending, order.imp_right fun same => ⟨same.1, inProgress sn pending⟩⟩
      · obtain ⟨pending, notYet⟩ := pendingOf young carried
        exact ⟨s, pending, .inr ⟨rfl, inProgress s pending⟩⟩
    guarded := by
      intro sn pending
      have pending : l.unstable.snapshot = some sn := pending
      rw [resps_append]
      refine (ok.guarded sn pending).append ?_
      cases started : l.unstable.snapshotInProgress with
      | true => exact .inl (ok.carried sn pending started)
      | false =>
          refine .inr fun m member => ?_
          rw [new.snapshot member, Unstable.nextSnapshot_eq_some.mpr ⟨pending, started⟩]
          rfl
    carried := by
      intro sn pending _
      have pending : l.unstable.snapshot = some sn := pending
      rw [resps_append]
      cases started : l.unstable.snapshotInProgress with
      | true =>
          obtain ⟨m, member, carries⟩ := ok.carried sn pending started
          exact ⟨m, List.mem_append_left _ member, carries⟩
      | false =>
          obtain ⟨m, member, carries⟩ :=
            new.exists_snapshot (Unstable.nextSnapshot_eq_some.mpr ⟨pending, started⟩)
          exact ⟨m, List.mem_append_right _ member, by simp [carries]⟩ }

/-- A `Ready` hands out everything that has not been handed out before. -/
theorem Pipe.handOut {resps : List Message} (pipe : Pipe L async p l)
    (new : NewResps p l.unstable resps)
    : Pipe L async { p with slots := p.slots ++ [p.slot l.unstable resps] } l.acceptUnstable where
  unstable := pipe.unstable.acceptInProgress pipe.line.current.indexed
  storage := pipe.storage
  line := .handOut pipe resps
  resps := .handOut pipe new
  index := {
    committed := pipe.index.committed
    applying := pipe.index.applying
    applied := pipe.index.applied
    appliedFloor := pipe.index.appliedFloor
    applyingFloor := pipe.index.applyingFloor
    reach := by
      have reach := pipe.index.reach
      have within := pipe.unstable.within
      have offset := pipe.unstable.acceptInProgress_offset pipe.line.current.indexed
      cases async with
      | true => exact reach
      | false =>
          simp only [Bool.false_eq_true, ↓reduceIte] at reach ⊢
          exact lt_of_lt_of_le reach (within.trans offset.ge)
    last := by
      show l.applying ≤ (lastVersion p.durable (p.slots ++ [p.slot l.unstable resps])).log.length
      rw [lastVersion_append]
      exact pipe.index.applying.trans pipe.index.committed
    pending := pipe.index.pending
    slots := by
      intro s member sn some
      rcases List.mem_append.mp member with old | young
      · exact pipe.index.slots s old sn some
      · rw [List.mem_singleton] at young
        subst young
        exact (pipe.index.pending sn (Unstable.nextSnapshot_eq_some.mp some).1).2 }

theorem UnstableOk.offset_of_nothing {log : List Entry} (ok : UnstableOk u log)
    (entries : u.nextEntries = [])
    : u.offsetInProgress = log.length + 1 := by
  have within := ok.within
  have positive := ok.positive
  have ordered := ok.ordered
  rw [ok.nextEntries, List.drop_eq_nil_iff] at entries
  omega

/-- If nothing is left to hand out, nothing changes. -/
theorem UnstableOk.acceptInProgress_eq {log : List Entry} (ok : UnstableOk u log)
    (indexed : Indexed log) (entries : u.nextEntries = [])
    (snapshot : u.nextSnapshot = none)
    : u.acceptInProgress = u := by
  have offset : u.acceptInProgress.offsetInProgress = u.offsetInProgress := by
    rw [ok.acceptInProgress_offset indexed, ok.offset_of_nothing entries]
  have started : u.acceptInProgress.snapshotInProgress = u.snapshotInProgress := by
    cases pending : u.snapshot with
    | none => simp [Unstable.acceptInProgress, pending]
    | some sn =>
        cases started : u.snapshotInProgress with
        | true => simp [Unstable.acceptInProgress, started]
        | false =>
            rw [Unstable.nextSnapshot_eq_some.mpr ⟨pending, started⟩] at snapshot
            cases snapshot
  calc u.acceptInProgress
      = { u with
          offsetInProgress := u.acceptInProgress.offsetInProgress
          snapshotInProgress := u.acceptInProgress.snapshotInProgress } := rfl
    _ = u := by rw [offset, started]

/-- After a `Ready`, all of the log is on its way. -/
def Pipe.HandedOut (p : Pipeline) (l : RaftLog) : Prop :=
  l.unstable.offsetInProgress = p.log.length + 1 ∧ p.last.log = p.log

theorem Pipe.handedOut {resps : List Message} (pipe : Pipe L async p l)
    : HandedOut { p with slots := p.slots ++ [p.slot l.unstable resps] } l.acceptUnstable :=
  ⟨pipe.unstable.acceptInProgress_offset pipe.line.current.indexed,
    congrArg Version.log (lastVersion_append _ _ _)⟩

theorem Pipe.handedOut_of_nothing (pipe : Pipe L async p l)
    (entries : l.unstable.nextEntries = []) (none : l.unstable.snapshot = none)
    : HandedOut p l := by
  have offset := pipe.unstable.offset_of_nothing entries
  exact ⟨offset, (pipe.line.last (.inl none)).2 offset⟩

/-- Without a pending snapshot there is none in flight. -/
theorem Pipe.slot_snapshot (pipe : Pipe L async p l) (none : l.unstable.snapshot = none)
    {s : Slot} (member : s ∈ p.slots)
    : s.snapshot = .none := by
  cases snapshot : s.snapshot with
  | none => rfl
  | some sn =>
      obtain ⟨m, carrier, carries⟩ := pipe.resps.slotSnap s member sn snapshot
      have inResps : m ∈ p.resps :=
        List.mem_append_right _ (List.mem_flatMap.mpr ⟨s, member, carrier⟩)
      obtain ⟨sn', pending, _⟩ := pipe.resps.pending m inResps sn carries
      rw [none] at pending
      cases pending

theorem endFloor_of_none {floor : Nat} {slots : List Slot}
    (none : ∀ s ∈ slots, s.snapshot = .none)
    : endFloor floor slots = floor := by
  induction slots with
  | nil => rfl
  | cons s rest ih =>
      have here := none s List.mem_cons_self
      show endFloor (s.floorAfter floor) rest = floor
      rw [Slot.floorAfter, here]
      exact ih fun s member => none s (List.mem_cons_of_mem _ member)

/-- The floor rises. -/
theorem Pipe.withFloor {k : Nat} (pipe : Pipe L async p l) (later : p.floor ≤ k)
    (within : k ≤ p.durable.log.length) (chain : Chain k p.durable.log p.slots)
    (handed : endFloor k p.slots < l.unstable.offsetInProgress)
    (fresh : ∀ sn, l.unstable.snapshot = some sn → l.unstable.snapshotInProgress = false
      → endFloor k p.slots < sn.metadata.index)
    : Pipe L async { p with floor := k } l where
  unstable := pipe.unstable
  storage := {
    stored := pipe.storage.stored
    dummy := pipe.storage.dummy.trans later
    snapshot := pipe.storage.snapshot.trans later
    floor := within }
  line := {
    current := pipe.line.current
    matched := pipe.line.matched
    chain := chain
    handed := handed
    fresh := fresh
    agree := pipe.line.agree
    beyond := pipe.line.beyond
    whole := pipe.line.whole
    last := pipe.line.last
    same := pipe.line.same }
  resps := {
    done := fun m member => (pipe.resps.done m member).congr rfl rfl (Nat.le_refl _) fun _ h => h
    slots := pipe.resps.slots.imp fun _ _ _ _ ok => ok.congr rfl rfl (Nat.le_refl _) fun _ h => h
    doneFloor := fun m member s carried => (pipe.resps.doneFloor m member s carried).trans later
    slotSnap := pipe.resps.slotSnap
    respSnap := pipe.resps.respSnap
    increasing := pipe.resps.increasing
    pending := pipe.resps.pending
    guarded := pipe.resps.guarded
    carried := pipe.resps.carried }
  index := {
    committed := pipe.index.committed
    applying := pipe.index.applying
    applied := pipe.index.applied
    appliedFloor := pipe.index.appliedFloor.trans later
    applyingFloor := fun async => (pipe.index.applyingFloor async).trans later
    reach := pipe.index.reach
    last := pipe.index.last
    pending := pipe.index.pending
    slots := pipe.index.slots }

/-- The floor rises to an index that is stored by all the writes. -/
theorem Pipe.raise {k : Nat} (pipe : Pipe L async p l) (none : l.unstable.snapshot = none)
    (stable : k < l.unstable.offset)
    : Pipe L async { p with floor := max p.floor k } l := by
  by_cases lower : k ≤ p.floor
  · rw [Nat.max_eq_left lower]
    exact pipe
  rw [Nat.max_eq_right (by omega)]
  have offset := pipe.unstable.ordered.trans pipe.unstable.within
  have length : (p.log.take (l.unstable.offset - 1)).length = l.unstable.offset - 1 := by
    rw [List.length_take]
    omega
  have agree := pipe.line.agree none
  have snaps := fun s member => pipe.slot_snapshot none (s := s) member
  have holds := (agree p.durable List.mem_cons_self).length_le
  have ordered := pipe.unstable.ordered
  refine pipe.withFloor (by omega) (by omega) ?_ ?_ (by simp [none])
  · refine pipe.line.chain.raise (agree _ List.mem_cons_self) (fun s member => ?_) (by omega)
    refine ⟨snaps s member, agree _ (List.mem_cons_of_mem _ (List.mem_map_of_mem member)), ?_⟩
    intro some
    have := pipe.line.beyond none s member some
    omega
  · rw [endFloor_of_none snaps]
    omega

/-- The floor rises to an applied index while nothing is in flight. -/
theorem Pipe.raise_idle {k : Nat} (pipe : Pipe L async p l) (idle : p.slots = [])
    (applied : k ≤ l.applying)
    : Pipe L async { p with floor := max p.floor k } l := by
  by_cases lower : k ≤ p.floor
  · rw [Nat.max_eq_left lower]
    exact pipe
  rw [Nat.max_eq_right (by omega)]
  have last : p.last = p.durable := by rw [Pipeline.last, idle]; rfl
  have reach : l.applying < l.unstable.offsetInProgress := by
    have reach := pipe.index.reach
    have ordered := pipe.unstable.ordered
    cases async with
    | true => simp only [↓reduceIte] at reach; omega
    | false => simpa using reach
  refine pipe.withFloor (by omega) ?_ ?_ ?_ ?_
  · rw [← last]
    exact applied.trans pipe.index.last
  · rw [idle]
    exact trivial
  · rw [idle]
    exact applied.trans_lt reach
  · intro sn pending _
    rw [idle]
    exact applied.trans_lt (pipe.index.pending sn pending).1

-----------------------------------------------------------------------------------------
-- Indexes
-----------------------------------------------------------------------------------------

theorem Pipe.withIndex (pipe : Pipe L async p l) (unstable : l'.unstable = l.unstable)
    (storage : l'.storage = l.storage) (index : IndexOk async p l')
    : Pipe L async p l' where
  unstable := unstable ▸ pipe.unstable
  storage := storage ▸ pipe.storage
  line := unstable ▸ pipe.line
  resps := unstable ▸ pipe.resps
  index := index

/-- The commit index rises. -/
theorem Pipe.commit {k : Nat} (pipe : Pipe L async p l) (later : l.committed ≤ k)
    (within : k ≤ p.log.length)
    : Pipe L async p { l with committed := k } :=
  pipe.withIndex rfl rfl {
    committed := within
    applying := pipe.index.applying.trans later
    applied := pipe.index.applied
    appliedFloor := pipe.index.appliedFloor
    applyingFloor := pipe.index.applyingFloor
    reach := pipe.index.reach
    last := pipe.index.last
    pending := fun s some => ⟨(pipe.index.pending s some).1,
      (pipe.index.pending s some).2.trans later⟩
    slots := fun s member sn some => (pipe.index.slots s member sn some).trans later }

theorem Pipe.commitTo {k : Nat} (pipe : Pipe L async p l)
    (committed : l.commitTo k = .ok l')
    : Pipe L async p l' ∧ l' = { l with committed := max l.committed k } := by
  unfold RaftLog.commitTo at committed
  by_cases later : l.committed < k
  · rw [if_pos later, pipe.shows.lastIndex] at committed
    by_cases beyond : p.log.length < k
    · rw [if_pos beyond] at committed
      cases committed
    rw [if_neg beyond] at committed
    cases committed
    rw [Nat.max_eq_right later.le]
    exact ⟨pipe.commit later.le (Nat.le_of_not_lt beyond), rfl⟩
  · rw [if_neg later] at committed
    cases committed
    rw [Nat.max_eq_left (by omega)]
    exact ⟨pipe, rfl⟩

/-- `acceptApplying`, after the log has been handed out. -/
theorem Pipe.acceptApplying {i size : Nat} {allowUnstable : Bool}
    (pipe : Pipe L async p l)
    (handedOut : HandedOut p l) (none : l.unstable.snapshot = none)
    (later : l.applying ≤ i) (reach : async = true → i < l.unstable.offset)
    (accepted : l.acceptApplying i size allowUnstable = .ok l')
    : Pipe L async { p with floor := if async then max p.floor i else p.floor } l' := by
  have committed : i ≤ l.committed := by
    unfold RaftLog.acceptApplying at accepted
    by_contra beyond
    rw [if_pos (by omega)] at accepted
    cases accepted
  unfold RaftLog.acceptApplying at accepted
  rw [if_neg (by omega)] at accepted
  cases accepted
  have raised : Pipe L async { p with floor := if async then max p.floor i else p.floor } l := by
    cases async with
    | true => exact pipe.raise none (reach rfl)
    | false => exact pipe
  have index := raised.index
  refine raised.withIndex rfl rfl {
    committed := index.committed
    applying := committed
    applied := index.applied.trans later
    appliedFloor := index.appliedFloor
    applyingFloor := fun isAsync => by
      subst isAsync
      exact Nat.le_max_right _ _
    reach := ?_
    last := by
      show i ≤ p.last.log.length
      rw [handedOut.2]
      exact committed.trans index.committed
    pending := fun s some => by
      have some : l.unstable.snapshot = Option.some s := some
      rw [none] at some
      cases some
    slots := index.slots }
  cases async with
  | true => exact reach rfl
  | false =>
      show i < l.unstable.offsetInProgress
      rw [handedOut.1]
      exact Nat.lt_succ_of_le (committed.trans index.committed)

/-- `appliedTo` of entries that were handed out. -/
theorem Pipe.applied {i size : Nat} (pipe : Pipe L async p l) (handedOut : i ≤ l.applying)
    (idle : async = false → p.slots = []) (applies : l.appliedTo i size = .ok l')
    : Pipe L async { p with floor := if async then p.floor else max p.floor i } l' := by
  obtain ⟨_, _, unstable, storage, committed, applying, applied, _⟩ :=
    appliedTo_ok applies
  rw [Nat.max_eq_left handedOut] at applying
  have raised : Pipe L async { p with floor := if async then p.floor else max p.floor i } l := by
    cases async with
    | true => exact pipe
    | false => exact pipe.raise_idle (idle rfl) handedOut
  have index := raised.index
  refine raised.withIndex unstable storage {
    committed := committed ▸ index.committed
    applying := by rw [applying, committed]; exact index.applying
    applied := by rw [applied, applying]; exact handedOut
    appliedFloor := ?_
    applyingFloor := applying ▸ index.applyingFloor
    reach := by rw [applying, unstable]; exact index.reach
    last := applying ▸ index.last
    pending := by rw [applying, unstable, committed]; exact index.pending
    slots := committed ▸ index.slots }
  rw [applied]
  cases async with
  | true => exact handedOut.trans (index.applyingFloor rfl)
  | false => exact Nat.le_max_right _ _

end EtcdRaft
