import EtcdRaft.Refinement.Acts
import EtcdRaft.Refinement.Writes

/-! The pipeline when a write becomes durable, when the append thread answers, and when
the application compacts its log.
-/

namespace EtcdRaft

variable {L : Nat → List Entry} {async : Bool} {p : Pipeline} {l l' : RaftLog}
  {u : Unstable}

-----------------------------------------------------------------------------------------
-- Writes to the storage
-----------------------------------------------------------------------------------------

variable {ms : MemoryStorage} {d : List Entry}

/-- `Append` of the end of the log `c`, of which the storage holds the first `a` entries.
-/
theorem Stored.append {c : List Entry} {a : Nat} (stored : Stored ms d)
    (indexed : Indexed c)
    (common : c.take a <+: d) (kept : c.take ms.dummy.index = d.take ms.dummy.index)
    (nonempty : c.drop a ≠ []) (longer : ms.dummy.index < c.length)
    : ms.append (c.drop a) = .ok { ms with ents := c.drop ms.dummy.index }
      ∧ Stored { ms with ents := c.drop ms.dummy.index } c := by
  have some : a < c.length := by
    rw [ne_eq, List.drop_eq_nil_iff] at nonempty
    omega
  have result : Stored { ms with ents := c.drop ms.dummy.index } c :=
    ⟨longer.le, rfl, stored.dummyTerm.trans (termAt_congr kept.symm)⟩
  refine ⟨?_, result⟩
  obtain ⟨e, found⟩ : ∃ e, (c)[a]? = .some e := ⟨_, List.getElem?_eq_getElem some⟩
  have index := indexed a e found
  have split : c.drop a = e :: c.drop (a + 1) := by
    obtain ⟨_, rfl⟩ := List.getElem?_eq_some_iff.mp found
    exact List.drop_eq_getElem_cons some
  have inside : a ≤ d.length := by
    have := common.length_le
    rw [List.length_take] at this
    omega
  have count : ms.ents.length = d.length - ms.dummy.index := by
    rw [stored.ents, List.length_drop]
  have length : (c.drop a).length = c.length - a := List.length_drop
  unfold MemoryStorage.append
  rw [split]
  dsimp only
  rw [← split, length, index, if_neg (by rw [MemoryStorage.firstIndex]; omega)]
  by_cases before : a < ms.dummy.index
  · have first : max ms.firstIndex (a + 1) - ms.dummy.index = 1 := by
      rw [MemoryStorage.firstIndex]
      omega
    have skipped : a + (ms.firstIndex - (a + 1)) = ms.dummy.index := by
      rw [MemoryStorage.firstIndex]
      omega
    rw [first, if_pos (Nat.le_add_left 1 _), if_pos (by rw [MemoryStorage.firstIndex]; omega),
      List.drop_drop, skipped]
    rfl
  · have offset : max ms.firstIndex (a + 1) - ms.dummy.index = a - ms.dummy.index + 1 := by
      rw [MemoryStorage.firstIndex]
      omega
    have agree : c.take a = d.take a := by
      have agree := List.prefix_iff_eq_take.mp common
      rwa [List.length_take, Nat.min_eq_left some.le] at agree
    have same : ms.ents.take (a - ms.dummy.index) ++ c.drop a = c.drop ms.dummy.index := by
      rw [stored.ents, drop_eq_append agree (Nat.le_of_not_lt before)]
    rw [offset, if_pos (by omega), if_neg (by rw [MemoryStorage.firstIndex]; omega),
      Nat.add_sub_cancel, same]
    rfl

/-- The storage once the snapshot of a write is applied. -/
def MemoryStorage.install (ms : MemoryStorage) : Option Snapshot → MemoryStorage
  | none => ms
  | some s =>
      match ms.applySnapshot s with
      | .ok ms => ms
      | .error _ => ms

theorem store_eq (ms : MemoryStorage) (w : Write)
    : Host.store ms w = (ms.install w.snapshot).append w.entries >>= fun ms =>
        return if isEmptyHardState w.hardState then ms else ms.setHardState w.hardState :=
  rfl

/-- A newer snapshot replaces everything. -/
theorem MemoryStorage.install_newer {s : Snapshot}
    (newer : ms.snapshot.metadata.index < s.metadata.index)
    : ms.install (some s) = { ms with
        snapshot := s
        dummy := { term := s.metadata.term, index := s.metadata.index }
        ents := [] } := by
  unfold install applySnapshot
  dsimp only
  rw [if_neg (by omega)]
  rfl

/-- The snapshot and the entries of a write. -/
theorem StorageOk.write {floor : Nat} {s : Slot} (ok : StorageOk ms floor d)
    (follows : s.Follows floor d) (indexed : Indexed s.version.log)
    : ∃ ms', (ms.install s.snapshot).append s.entries = .ok ms'
      ∧ StorageOk ms' (s.floorAfter floor) s.version.log ∧ ms'.hardState = ms.hardState
      ∧ ms'.dummy.index = s.floorAfter ms.dummy.index := by
  have dummy := ok.dummy
  unfold Slot.Follows at follows
  cases snapshot : s.snapshot with
  | none =>
      rw [snapshot] at follows
      have floorSame : ∀ k, s.floorAfter k = k :=
        fun k => by rw [Slot.floorAfter, snapshot]
      rw [floorSame, floorSame]
      obtain ⟨⟨a, ends, common⟩, kept, unchanged, longer⟩ := follows
      by_cases empty : s.entries = []
      · rw [empty, unchanged empty]
        exact ⟨ms, rfl, ok, rfl, rfl⟩
      · have long := longer empty
        have keptDummy : s.version.log.take ms.dummy.index = d.take ms.dummy.index := by
          have := congrArg (List.take ms.dummy.index) kept
          rwa [List.take_take, List.take_take, Nat.min_eq_left dummy] at this
        rw [ends] at empty ⊢
        obtain ⟨appended, stored⟩ :=
          ok.stored.append indexed common keptDummy empty (by omega)
        exact ⟨_, appended, ⟨stored, dummy, ok.snapshot, long.le⟩, rfl, rfl⟩
  | some sn =>
      rw [snapshot] at follows
      have floorSame : ∀ k, s.floorAfter k = sn.metadata.index := fun k => by
        rw [Slot.floorAfter, snapshot]
      rw [floorSame, floorSame]
      obtain ⟨ends, _, within, term, newer⟩ := follows
      have older := ok.snapshot
      rw [MemoryStorage.install_newer (by omega)]
      have restored : Stored { ms with
          snapshot := sn
          dummy := { term := sn.metadata.term, index := sn.metadata.index }
          ents := [] } (s.version.log.take sn.metadata.index) := by
        refine ⟨?_, ?_, ?_⟩
        · rw [List.length_take]
          exact Nat.le_min.mpr ⟨Nat.le_refl _, within⟩
        · rw [List.drop_of_length_le (by rw [List.length_take]; exact Nat.min_le_left _ _)]
        · rw [term]
          refine termAt_congr ?_
          rw [List.take_take, Nat.min_self]
      by_cases empty : s.entries = []
      · have whole : s.version.log.take sn.metadata.index = s.version.log := by
          rw [ends, List.drop_eq_nil_iff] at empty
          exact List.take_of_length_le empty
        rw [whole] at restored
        rw [empty]
        exact ⟨_, rfl, ⟨restored, Nat.le_refl _, Nat.le_refl _, within⟩, rfl, rfl⟩
      · rw [ends] at empty ⊢
        have long : sn.metadata.index < s.version.log.length := by
          rw [List.drop_eq_nil_iff] at empty
          omega
        obtain ⟨appended, stored⟩ := restored.append (a := sn.metadata.index) indexed
          List.prefix_rfl (by rw [List.take_take, Nat.min_self]) empty long
        exact ⟨_, appended, ⟨stored, Nat.le_refl _, Nat.le_refl _, within⟩, rfl, rfl⟩

theorem StorageOk.setHardState {floor : Nat} (ok : StorageOk ms floor d) (hs : HardState)
    : StorageOk (ms.setHardState hs) floor d where
  stored := ⟨ok.stored.within, ok.stored.ents, ok.stored.dummyTerm⟩
  dummy := ok.dummy
  snapshot := ok.snapshot
  floor := ok.floor

/-- A write never fails, and leads to the version of its slot. -/
theorem StorageOk.store {floor : Nat} {s : Slot} {w : Write} (ok : StorageOk ms floor d)
    (follows : s.Follows floor d) (indexed : Indexed s.version.log)
    (entries : w.entries = s.entries)
    (snapshot : w.snapshot = s.snapshot)
    : ∃ ms', Host.store ms w = .ok ms' ∧ StorageOk ms' (s.floorAfter floor) s.version.log
      ∧ ms'.hardState = (if isEmptyHardState w.hardState then ms.hardState else w.hardState)
      ∧ ms'.dummy.index = s.floorAfter ms.dummy.index := by
  obtain ⟨ms', written, ok', same, dummy⟩ := ok.write follows indexed
  rw [store_eq, snapshot, entries, written]
  refine ⟨_, rfl, ?_⟩
  split
  · exact ⟨ok', same, dummy⟩
  · exact ⟨ok'.setHardState _, rfl, dummy⟩

-----------------------------------------------------------------------------------------
-- The oldest write becomes durable
-----------------------------------------------------------------------------------------

/-- The pipeline once the write `s` is durable, which the writes `rest` come after. -/
def Pipeline.persisted (p : Pipeline) (s : Slot) (rest : List Slot) : Pipeline :=
  { p with
    floor := s.floorAfter p.floor
    durable := s.version
    done := p.done ++ s.resps
    slots := rest }

/-- An answer for an earlier write. -/
theorem RespOk.persisted {m : Message} {s : Slot} {rest : List Slot}
    (ok : RespOk L p u m p.durable (s :: rest))
    : RespOk L (p.persisted s rest) u m s.version rest where
  type := ok.type
  term := ok.term
  within := ok.within
  entries := by
    intro current some
    refine (ok.entries current some).imp_left fun held => ?_
    obtain ⟨term, here, _⟩ := held.later s List.mem_cons_self
    exact {
      term := term
      here := here
      later := fun s member => held.later s (List.mem_cons_of_mem _ member)
      current := held.current
      handed := held.handed }
  snapshot := by
    intro s' sn carried pending same w member
    exact ok.snapshot s' sn carried pending same w (List.mem_cons_of_mem _ member)

theorem Pipe.persist {s : Slot} {rest : List Slot} {ms' : MemoryStorage}
    (pipe : Pipe L async p l) (slots : p.slots = s :: rest)
    (storage : StorageOk ms' (s.floorAfter p.floor) s.version.log)
    : Pipe L async (p.persisted s rest) { l with storage := ms' } := by
  have chain := pipe.line.chain
  rw [slots] at chain
  have later := chain.1.le_floorAfter
  have versions : ∀ v ∈ s.version :: rest.map Slot.version, v ∈ p.versions := by
    intro v member
    rw [Pipeline.versions, slots, List.map_cons]
    exact List.mem_cons_of_mem _ member
  have inside : ∀ s' ∈ rest, s' ∈ p.slots := fun s' member =>
    slots ▸ List.mem_cons_of_mem _ member
  have floor : endFloor (s.floorAfter p.floor) rest = endFloor p.floor p.slots := by
    rw [slots]
    rfl
  have last : lastVersion s.version rest = p.last := by
    rw [Pipeline.last, slots]
    rfl
  have resps : (p.persisted s rest).resps = p.resps := by
    simp [Pipeline.resps, Pipeline.persisted, slots]
  have slotsOk := pipe.resps.slots
  rw [slots] at slotsOk
  exact {
    unstable := pipe.unstable
    storage := storage
    line := {
      current := pipe.line.current
      matched := fun v member => pipe.line.matched v (versions v member)
      chain := chain.2
      handed := by
        show endFloor (s.floorAfter p.floor) rest < _
        rw [floor]
        exact pipe.line.handed
      fresh := by
        show ∀ sn, _ → _ → endFloor (s.floorAfter p.floor) rest < _
        rw [floor]
        exact pipe.line.fresh
      agree := fun none v member => pipe.line.agree none v (versions v member)
      beyond := fun none s' member => pipe.line.beyond none s' (inside s' member)
      whole := fun none empty v member => pipe.line.whole none empty v (versions v member)
      last := by
        show _ → _ <+: (lastVersion s.version rest).log ∧ (_ → (lastVersion s.version rest).log = _)
        rw [last]
        exact pipe.line.last
      same := fun v member => pipe.line.same v (versions v member) }
    resps := {
      done := by
        refine List.forall_mem_append.mpr ⟨fun m member => ?_, fun m member => ?_⟩
        · have ok := pipe.resps.done m member
          rw [slots] at ok
          exact ok.persisted
        · exact (slotsOk.1 m member).congr rfl rfl (Nat.le_refl _) fun _ same => same
      slots := slotsOk.2.imp fun _ _ _ _ ok => ok.congr rfl rfl (Nat.le_refl _) fun _ same => same
      doneFloor := by
        refine List.forall_mem_append.mpr ⟨fun m member s' carried => ?_,
          fun m member s' carried => ?_⟩
        · exact (pipe.resps.doneFloor m member s' carried).trans later
        · have here : s ∈ p.slots := slots ▸ List.mem_cons_self
          have same := pipe.resps.respSnap s here m member s' carried
          show s'.metadata.index ≤ s.floorAfter p.floor
          rw [Slot.floorAfter, same]
      slotSnap := fun s' member => pipe.resps.slotSnap s' (inside s' member)
      respSnap := fun s' member => pipe.resps.respSnap s' (inside s' member)
      increasing := resps ▸ pipe.resps.increasing
      pending := resps ▸ pipe.resps.pending
      guarded := by
        rw [resps]
        exact pipe.resps.guarded
      carried := resps ▸ pipe.resps.carried }
    index := {
      committed := pipe.index.committed
      applying := pipe.index.applying
      applied := pipe.index.applied
      appliedFloor := pipe.index.appliedFloor.trans later
      applyingFloor := fun async => (pipe.index.applyingFloor async).trans later
      reach := pipe.index.reach
      last := by
        show l.applying ≤ (lastVersion s.version rest).log.length
        rw [last]
        exact pipe.index.last
      pending := pipe.index.pending
      slots := fun s' member => pipe.index.slots s' (inside s' member) } }

-----------------------------------------------------------------------------------------
-- The append thread answers
-----------------------------------------------------------------------------------------

/-- The pipeline without the first answer. -/
def Pipeline.answered (p : Pipeline) (rest : List Message) : Pipeline := { p with done := rest }

/-- The unstable part of the log without a snapshot. -/
def Unstable.settled (u : Unstable) : Unstable :=
  { u with snapshot := none, snapshotInProgress := false }

/-- The unstable part of the log becomes the one after index `i`: all the versions hold
the entries up to it, and there is no pending snapshot any more.
-/
structure Settles (p : Pipeline) (u u' : Unstable) (i : Nat) : Prop where
  offset : u'.offset = i + 1
  entries : u'.entries = p.log.drop i
  snapshot : u'.snapshot = none
  idle : u'.snapshotInProgress = false
  same : u'.offsetInProgress = u.offsetInProgress
  later : u.offset ≤ i + 1
  handed : i < u.offsetInProgress
  held : ∀ v ∈ p.versions, p.log.take i <+: v.log ∧ (p.log.length = i → v.log = p.log)
  beyond : ∀ s ∈ p.slots, s.entries ≠ [] → i < s.version.log.length

/-- An answer that is not about the current log changes nothing. -/
theorem Pipe.stableTo_cases {m : Message} (pipe : Pipe L async p l)
    : l.unstable.stableTo { term := m.logTerm, index := m.index } = l.unstable
      ∨ l.unstable.offset ≤ m.index ∧ m.index ≤ p.log.length
        ∧ p.log.take m.index = EtcdRaft.answered L m
        ∧ l.unstable.stableTo { term := m.logTerm, index := m.index } = { l.unstable with
          entries := l.unstable.entries.drop (m.index + 1 - l.unstable.offset)
          offset := m.index + 1
          offsetInProgress := max l.unstable.offsetInProgress (m.index + 1) } := by
  have shows := pipe.shows
  unfold Unstable.stableTo
  cases read : l.unstable.maybeTerm m.index with
  | none => exact .inl rfl
  | some t =>
      dsimp only
      by_cases old : m.index < l.unstable.offset
      · rw [if_pos old]
        exact .inl rfl
      by_cases other : t ≠ m.logTerm
      · rw [if_neg old, if_pos other]
        exact .inl rfl
      rw [if_neg old, if_neg other]
      have unstable := Nat.le_of_not_lt old
      have present : m.index ≤ p.log.length := by
        by_contra beyond
        rw [shows.maybeTerm_beyond (by omega)] at read
        cases read
      rw [shows.maybeTerm_unstable unstable present, Option.some.injEq] at read
      have logTerm : termAt p.log m.index = m.logTerm := read.trans (not_ne_iff.mp other)
      refine .inr ⟨unstable, present, ?_, rfl⟩
      have pre := pipe.line.current.prefix_leader present
      rw [logTerm] at pre
      have eq := List.prefix_iff_eq_take.mp pre
      rwa [List.length_take, Nat.min_eq_left present] at eq

/-- A stale answer changes nothing. -/
theorem Pipe.stableTo_stale {m : Message} {sn : Snapshot} (pipe : Pipe L async p l)
    (pending : l.unstable.snapshot = some sn) (current : m.term = p.term)
    (stale : Stale L p.term sn.metadata.index p.log m)
    : l.unstable.stableTo { term := m.logTerm, index := m.index } = l.unstable := by
  rcases pipe.stableTo_cases (m := m) with same | ⟨unstable, _, same, _⟩
  · exact same
  have offset := (pipe.unstable.snapshot sn pending).1
  rcases stale current with low | ⟨diverges, leader⟩
  · omega
  · rw [← same] at diverges
    exact absurd ((List.take_prefix _ _).trans leader) diverges.1

/-- What an answer of the current term does, where no snapshot is pending afterwards. -/
theorem Pipe.settles_stableTo {m : Message} (pipe : Pipe L async p l)
    (ok : RespOk L p l.unstable m p.durable p.slots) (current : m.term = p.term)
    (nonzero : m.index ≠ 0) {i : Nat}
    (unmoved : Settles p l.unstable l.unstable.settled i)
    : ∃ i, Settles p l.unstable
        (l.unstable.stableTo { term := m.logTerm, index := m.index }).settled i := by
  rcases pipe.stableTo_cases (m := m) with same | ⟨unstable, present, same, moved⟩
  · rw [same]
    exact ⟨i, unmoved⟩
  have length : (p.log.take m.index).length = m.index := by
    rw [List.length_take, Nat.min_eq_left present]
  have entries := ok.entries current nonzero
  rw [← same] at entries
  rcases entries with held | ⟨diverges, leader⟩
  · have handed := held.handed
    have later := held.later
    rw [length] at handed later
    have versions : ∀ v ∈ p.versions, v.term = p.term ∧ p.log.take m.index <+: v.log := by
      intro v member
      rcases List.mem_cons.mp member with rfl | member
      · exact ⟨held.term, held.here⟩
      · obtain ⟨s, inside, rfl⟩ := List.mem_map.mp member
        exact ⟨(later s inside).1, (later s inside).2.1⟩
    rw [moved]
    refine ⟨m.index, rfl, ?_, rfl, rfl, Nat.max_eq_left handed, by omega, handed, ?_, ?_⟩
    · show l.unstable.entries.drop _ = _
      have positive := pipe.unstable.positive
      rw [pipe.unstable.entries, List.drop_drop]
      congr 1
      omega
    · intro v member
      obtain ⟨term, holds⟩ := versions v member
      refine ⟨holds, fun whole => ?_⟩
      rcases (pipe.line.same v member).2 term with same | ⟨_, missing⟩
      · exact same
      · rw [← whole, List.take_length] at holds
        exact absurd holds missing
    · exact fun s member some => (later s member).2.2 some
  · exact absurd ((List.take_prefix _ _).trans leader) diverges.1

/-- The first answer is dropped, where it does not carry the pending snapshot. -/
theorem Pipe.discard {m : Message} {rest : List Message} (pipe : Pipe L async p l)
    (first : p.done = m :: rest)
    (other : ∀ sn, l.unstable.snapshot = some sn
      → m.snapshot.map (fun s => s.metadata.index) ≠ some sn.metadata.index)
    : Pipe L async (p.answered rest) l := by
  have resps : p.resps = m :: (p.answered rest).resps := by
    simp [Pipeline.resps, Pipeline.answered, first]
  have later : ∀ m' ∈ rest, m' ∈ p.done :=
    fun m' member => first ▸ List.mem_cons_of_mem _ member
  have inside : ∀ m' ∈ (p.answered rest).resps, m' ∈ p.resps := fun m' member =>
    resps ▸ List.mem_cons_of_mem _ member
  exact {
    unstable := pipe.unstable
    storage := pipe.storage
    line := { pipe.line with }
    resps := {
      done := fun m' member =>
        (pipe.resps.done m' (later m' member)).congr rfl rfl (Nat.le_refl _) fun _ same => same
      slots := pipe.resps.slots.imp fun _ _ _ _ ok =>
        ok.congr rfl rfl (Nat.le_refl _) fun _ same => same
      doneFloor := fun m' member => pipe.resps.doneFloor m' (later m' member)
      slotSnap := pipe.resps.slotSnap
      respSnap := pipe.resps.respSnap
      increasing := by
        have increasing := pipe.resps.increasing
        rw [resps] at increasing
        refine increasing.sublist ?_
        exact (List.sublist_cons_self m _).filterMap _
      pending := fun m' member => pipe.resps.pending m' (inside m' member)
      guarded := by
        intro sn pending
        have guarded := pipe.resps.guarded sn pending
        rw [resps] at guarded
        exact (guarded.resolve_left (other sn pending)).2
      carried := by
        intro sn pending handed
        obtain ⟨m', member, carries⟩ := pipe.resps.carried sn pending handed
        rw [resps, List.mem_cons] at member
        rcases member with rfl | member
        · exact absurd carries (other sn pending)
        · exact ⟨m', member, carries⟩ }
    index := { pipe.index with } }

/-- The first answer makes entries or the pending snapshot stable; no other snapshot is on
its way.
-/
theorem Pipe.settle {m : Message} {rest : List Message} {u' : Unstable} {i : Nat}
    (pipe : Pipe L async p l) (first : p.done = m :: rest)
    (settles : Settles p l.unstable u' i)
    (handed : l.unstable.snapshot = none ∨ l.unstable.snapshotInProgress = true)
    (gone : ∀ m ∈ (p.answered rest).resps, m.snapshot = none)
    : Pipe L async (p.answered rest) { l with unstable := u' } := by
  have later : ∀ m' ∈ rest, m' ∈ p.done :=
    fun m' member => first ▸ List.mem_cons_of_mem _ member
  have reach := pipe.index.reach
  have offset := settles.offset
  have moved := settles.later
  have within := pipe.unstable.within
  have below := settles.handed
  have same := settles.same
  have nothing : ∀ sn, u'.snapshot ≠ some sn := fun sn some => by
    rw [settles.snapshot] at some
    cases some
  exact {
    unstable := {
      positive := by simp only; omega
      ordered := by simp only; omega
      within := by simp only [Pipeline.answered]; omega
      entries := by
        simp only [Pipeline.answered]
        rw [offset, settles.entries, Nat.add_sub_cancel]
      snapshot := fun sn some => absurd some (nothing sn)
      unhanded := by simp [settles.snapshot]
      idle := fun _ => settles.idle }
    storage := pipe.storage
    line := {
      current := pipe.line.current
      matched := pipe.line.matched
      chain := pipe.line.chain
      handed := same ▸ pipe.line.handed
      fresh := fun sn some => absurd some (nothing sn)
      agree := by
        intro _ v member
        simp only [Pipeline.answered]
        rw [offset, Nat.add_sub_cancel]
        exact (settles.held v member).1
      beyond := by
        intro _ s member some
        simp only
        rw [offset]
        exact settles.beyond s member some
      whole := by
        intro _ empty v member
        simp only [settles.entries, List.drop_eq_nil_iff] at empty
        exact (settles.held v member).2 (by omega)
      last := by
        intro _
        simp only
        rw [same]
        exact pipe.line.last handed
      same := pipe.line.same }
    resps := {
      done := fun m' member => (pipe.resps.done m' (later m' member)).congr rfl rfl same.ge
        fun sn some => absurd some (nothing sn)
      slots := pipe.resps.slots.imp fun _ _ _ _ ok =>
        ok.congr rfl rfl same.ge fun sn some => absurd some (nothing sn)
      doneFloor := fun m' member => pipe.resps.doneFloor m' (later m' member)
      slotSnap := pipe.resps.slotSnap
      respSnap := pipe.resps.respSnap
      increasing := by
        rw [List.filterMap_eq_nil_iff.mpr gone]
        exact .nil
      pending := by
        intro m' member s carries
        rw [gone m' member] at carries
        cases carries
      guarded := fun sn some => absurd some (nothing sn)
      carried := fun sn some => absurd some (nothing sn) }
    index := {
      committed := pipe.index.committed
      applying := pipe.index.applying
      applied := pipe.index.applied
      appliedFloor := pipe.index.appliedFloor
      applyingFloor := pipe.index.applyingFloor
      reach := by
        cases async with
        | true => simp only [↓reduceIte] at reach ⊢; omega
        | false => simp only [Bool.false_eq_true, ↓reduceIte] at reach ⊢; omega
      last := pipe.index.last
      pending := fun sn some => absurd some (nothing sn)
      slots := pipe.index.slots } }

/-- The state of the application is that of a stored snapshot. -/
theorem Pipe.appliedSnap {k : Nat} (pipe : Pipe L async p l) (stored : k ≤ p.floor)
    (stable : k < l.unstable.offset)
    (pending : ∀ sn, l.unstable.snapshot = some sn → k < sn.metadata.index)
    (applies : l.appliedTo k 0 = .ok l')
    : Pipe L async p l' := by
  obtain ⟨inside, _, unstable, storage, committed, applying, applied, _⟩ :=
    appliedTo_ok applies
  have ordered := pipe.unstable.ordered
  have index := pipe.index
  refine pipe.withIndex unstable storage {
    committed := committed ▸ index.committed
    applying := by rw [applying, committed]; exact Nat.max_le.mpr ⟨index.applying, inside⟩
    applied := by rw [applied, applying]; exact Nat.le_max_right _ _
    appliedFloor := applied ▸ stored
    applyingFloor := by
      intro isAsync
      rw [applying]
      exact Nat.max_le.mpr ⟨index.applyingFloor isAsync, stored⟩
    reach := ?_
    last := ?_
    pending := ?_
    slots := committed ▸ index.slots }
  · rw [applying, unstable]
    refine Nat.max_lt.mpr ⟨index.reach, ?_⟩
    split
    · exact stable
    · exact stable.trans_le ordered
  · rw [applying]
    refine Nat.max_le.mpr ⟨index.last, ?_⟩
    exact stored.trans (pipe.line.chain.le_endFloor.trans
      (pipe.line.chain.endFloor_le pipe.storage.floor))
  · intro sn some
    rw [unstable] at some
    rw [applying, committed]
    obtain ⟨above, below⟩ := index.pending sn some
    exact ⟨Nat.max_lt.mpr ⟨above, pending sn some⟩, below⟩

/-- Without a pending snapshot the split between stable and unstable entries is as settled
as it can be.
-/
theorem Pipe.settles (pipe : Pipe L async p l) (none : l.unstable.snapshot = none)
    : Settles p l.unstable l.unstable.settled (l.unstable.offset - 1) := by
  have positive := pipe.unstable.positive
  have ordered := pipe.unstable.ordered
  refine ⟨?_, pipe.unstable.entries, rfl, rfl, rfl, by omega, by omega, fun v member => ?_,
    fun s member some => ?_⟩
  · show l.unstable.offset = _
    omega
  · refine ⟨pipe.line.agree none v member, fun length => ?_⟩
    refine pipe.line.whole none ?_ v member
    rw [pipe.unstable.entries, List.drop_of_length_le length.le]
  · have := pipe.line.beyond none s member some
    omega

/-- Writes with entries lead beyond the floor. -/
theorem Chain.longer {floor : Nat} {log : List Entry} {slots : List Slot} {s : Slot}
    (chain : Chain floor log slots) (none : ∀ s ∈ slots, s.snapshot = .none)
    (member : s ∈ slots) (some : s.entries ≠ [])
    : floor < s.version.log.length := by
  induction slots generalizing floor log with
  | nil => simp at member
  | cons s' rest ih =>
      have here := none s' List.mem_cons_self
      have follows := chain.1
      rcases List.mem_cons.mp member with rfl | member
      · rw [Slot.Follows, here] at follows
        exact follows.2.2.2 some
      · have later := chain.2
        rw [Slot.floorAfter, here] at later
        exact ih later (fun s member => none s (List.mem_cons_of_mem _ member)) member

/-- The answer for the pending snapshot settles it. -/
theorem Pipe.settles_snapshot {m : Message} {s sn : Snapshot} (pipe : Pipe L async p l)
    (done : m ∈ p.done) (carries : m.snapshot = some s)
    (pending : l.unstable.snapshot = some sn)
    (same : sn.metadata.index = s.metadata.index)
    (none : ∀ s ∈ p.slots, s.snapshot = .none)
    : Settles p l.unstable l.unstable.settled sn.metadata.index := by
  obtain ⟨offset, _⟩ := pipe.unstable.snapshot sn pending
  have ordered := pipe.unstable.ordered
  have restored := (pipe.resps.done m done).snapshot s sn carries pending same
  have floor := pipe.resps.doneFloor m done s carries
  refine ⟨offset, ?_, rfl, rfl, rfl, by omega, by omega, fun v member => ?_,
    fun slot member some => ?_⟩
  · show l.unstable.entries = _
    rw [pipe.unstable.entries, offset, Nat.add_sub_cancel]
  · rw [same]
    exact restored v member
  · have longer := pipe.line.chain.longer none member some
    omega

/-- After the answer for the pending snapshot no other snapshot is on its way. -/
theorem RespsOk.last_snapshot {m : Message} {rest : List Message} {s sn : Snapshot}
    (ok : RespsOk L p u) (first : p.done = m :: rest) (carries : m.snapshot = some s)
    (pending : u.snapshot = some sn) (same : sn.metadata.index = s.metadata.index)
    : ∀ m ∈ (p.answered rest).resps, m.snapshot = none := by
  have resps : p.resps = m :: (p.answered rest).resps := by
    simp [Pipeline.resps, Pipeline.answered, first]
  intro m' member
  cases carries' : m'.snapshot with
  | none => rfl
  | some s' =>
      have increasing := ok.increasing
      rw [resps, List.filterMap_cons, carries] at increasing
      have newer := List.rel_of_pairwise_cons increasing
        (List.mem_filterMap.mpr ⟨m', member, carries'⟩)
      obtain ⟨sn', pending', order⟩ :=
        ok.pending m' (resps ▸ List.mem_cons_of_mem _ member) s' carries'
      rw [pending, Option.some.injEq] at pending'
      subst pending'
      omega

theorem Unstable.stableTo_snapshot (u : Unstable) (id : EntryID)
    : (u.stableTo id).snapshot = u.snapshot
      ∧ (u.stableTo id).snapshotInProgress = u.snapshotInProgress := by
  unfold stableTo
  split
  · exact ⟨rfl, rfl⟩
  · split
    · exact ⟨rfl, rfl⟩
    · split <;> exact ⟨rfl, rfl⟩

/-- What an answer does to the unstable entries: nothing as long as the answer for the
pending snapshot has not come; without a pending snapshot, or once it is stable, entries
become stable.
-/
structure Stabilizes (p : Pipeline) (m : Message) (u u' : Unstable) : Prop where
  stale : ∀ sn, u.snapshot = some sn
    → m.snapshot.map (fun s => s.metadata.index) ≠ some sn.metadata.index → u' = u
  settled : ∀ i, Settles p u u.settled i → ∃ i, Settles p u u'.settled i
  snapshot : u'.snapshot = u.snapshot
  inProgress : u'.snapshotInProgress = u.snapshotInProgress

theorem Pipe.stabilizes {m : Message} {rest : List Message} {current : Bool}
    (pipe : Pipe L async p l) (first : p.done = m :: rest)
    (term : current = true → m.term = p.term)
    : Stabilizes p m l.unstable (if current = true ∧ m.index ≠ 0 then
        l.unstable.stableTo { term := m.logTerm, index := m.index } else l.unstable) := by
  split
  · rename_i now
    have ok := pipe.resps.done m (first ▸ List.mem_cons_self)
    have kept :=
      Unstable.stableTo_snapshot l.unstable { term := m.logTerm, index := m.index }
    refine ⟨fun sn pending other => ?_, fun i => ?_, kept.1, kept.2⟩
    · have guarded := pipe.resps.guarded sn pending
      rw [Pipeline.resps, first] at guarded
      exact pipe.stableTo_stale pending (term now.1) (guarded.resolve_left other).1
    · exact pipe.settles_stableTo ok (term now.1) now.2
  · exact ⟨fun _ _ _ => rfl, fun i settles => ⟨i, settles⟩, rfl, rfl⟩

/-- An answer without a snapshot. -/
theorem Pipe.stored_entries {m : Message} {rest : List Message} {u' : Unstable}
    (pipe : Pipe L async p l) (first : p.done = m :: rest) (plain : m.snapshot = none)
    (stabilizes : Stabilizes p m l.unstable u')
    : Pipe L async (p.answered rest) { l with unstable := u' } := by
  cases pending : l.unstable.snapshot with
  | some sn =>
      rw [stabilizes.stale sn pending (by simp [plain])]
      exact pipe.discard first (by simp [plain])
  | none =>
      obtain ⟨i, settles⟩ := stabilizes.settled _ (pipe.settles pending)
      have same : u'.settled = u' := by
        unfold Unstable.settled
        rw [← pending, ← stabilizes.snapshot, ← pipe.unstable.idle pending, ← stabilizes.inProgress]
      rw [same] at settles
      refine pipe.settle first settles (.inl pending) fun m' member => ?_
      have inside : m' ∈ p.resps := by
        rw [Pipeline.resps, first]
        exact List.mem_cons_of_mem _ member
      cases carries : m'.snapshot with
      | none => rfl
      | some s =>
          obtain ⟨sn, pending', _⟩ := pipe.resps.pending m' inside s carries
          rw [pending] at pending'
          cases pending'

/-- An answer for a snapshot that is no longer the pending one. -/
theorem Pipe.stored_older {m : Message} {rest : List Message} {s sn : Snapshot}
    (pipe : Pipe L async p l) (first : p.done = m :: rest) (carries : m.snapshot = some s)
    (pending : l.unstable.snapshot = some sn)
    (older : s.metadata.index < sn.metadata.index)
    (applies : l.appliedTo (max s.metadata.index l.applied) 0 = .ok l')
    : Pipe L async (p.answered rest) l' := by
  have floor := pipe.resps.doneFloor m (first ▸ List.mem_cons_self) s carries
  obtain ⟨offset, _⟩ := pipe.unstable.snapshot sn pending
  have index := pipe.index.pending sn pending
  have applied := pipe.index.applied
  have discarded : Pipe L async (p.answered rest) l := by
    refine pipe.discard first fun sn' pending' => ?_
    rw [pending, Option.some.injEq] at pending'
    rw [carries, ← pending', Option.map_some, ne_eq, Option.some.injEq]
    exact older.ne
  refine discarded.appliedSnap (Nat.max_le.mpr ⟨floor, pipe.index.appliedFloor⟩)
    (by omega) ?_ applies
  intro sn' pending'
  rw [pending, Option.some.injEq] at pending'
  rw [← pending']
  omega

/-- The answer for the pending snapshot. -/
theorem Pipe.stored_snapshot {m : Message} {rest : List Message} {s sn : Snapshot}
    {u' : Unstable}
    (pipe : Pipe L async p l) (first : p.done = m :: rest) (carries : m.snapshot = some s)
    (pending : l.unstable.snapshot = some sn)
    (same : sn.metadata.index = s.metadata.index)
    (handed : l.unstable.snapshotInProgress = true)
    (stabilizes : Stabilizes p m l.unstable u')
    (applies : { l with unstable := u'.settled }.appliedTo (max s.metadata.index l.applied) 0
      = .ok l')
    : Pipe L async (p.answered rest) l' := by
  have done : m ∈ p.done := first ▸ List.mem_cons_self
  have floor := pipe.resps.doneFloor m done s carries
  obtain ⟨offset, _⟩ := pipe.unstable.snapshot sn pending
  have index := pipe.index.pending sn pending
  have applied := pipe.index.applied
  have none := pipe.resps.last_snapshot first carries pending same
  have slots : ∀ s ∈ p.slots, s.snapshot = .none := by
    intro slot member
    cases snapshot : slot.snapshot with
    | none => rfl
    | some sn' =>
        obtain ⟨m', carrier, carries'⟩ := pipe.resps.slotSnap slot member sn' snapshot
        have inside : m' ∈ (p.answered rest).resps :=
          List.mem_append_right _ (List.mem_flatMap.mpr ⟨slot, member, carrier⟩)
        rw [none m' inside] at carries'
        cases carries'
  obtain ⟨i, settles⟩ :=
    stabilizes.settled _ (pipe.settles_snapshot done carries pending same slots)
  have later := settles.later
  refine (pipe.settle first settles (.inr handed) none).appliedSnap
    (Nat.max_le.mpr ⟨floor, pipe.index.appliedFloor⟩) ?_ (by simp [Unstable.settled]) applies
  show max s.metadata.index l.applied < u'.settled.offset
  rw [settles.offset]
  omega

/-- The first answer of the append thread is handled. -/
theorem Pipe.stored {m : Message} {rest : List Message} {current : Bool}
    (pipe : Pipe L async p l)
    (first : p.done = m :: rest) (term : current = true → m.term = p.term)
    (stores : l.stored current m = .ok l')
    : Pipe L async (p.answered rest) l' := by
  have stabilizes := pipe.stabilizes first term
  generalize stabilized : (if current = true ∧ m.index ≠ 0 then
    l.unstable.stableTo { term := m.logTerm, index := m.index } else l.unstable) = u' at stabilizes
  have log : (if current = true ∧ m.index ≠ 0 then
      l.stableTo { term := m.logTerm, index := m.index } else l) = { l with unstable := u' } := by
    rw [← stabilized]
    split <;> rfl
  unfold RaftLog.stored at stores
  rw [log] at stores
  cases carries : m.snapshot with
  | none =>
      rw [carries] at stores
      cases stores
      exact pipe.stored_entries first carries stabilizes
  | some s =>
      rw [carries] at stores
      simp only [RaftLog.stableSnapTo] at stores
      have inResps : m ∈ p.resps := List.mem_append_left _ (first ▸ List.mem_cons_self)
      obtain ⟨sn, pending, order⟩ := pipe.resps.pending m inResps s carries
      have cleared : u'.stableSnapTo s.metadata.index
          = if sn.metadata.index = s.metadata.index then u'.settled else u' := by
        unfold Unstable.stableSnapTo
        rw [stabilizes.snapshot, pending]
        rfl
      rw [cleared] at stores
      rcases order with older | ⟨same, handed⟩
      · rw [if_neg older.ne', stabilizes.stale sn pending (by simpa [carries] using older.ne)]
          at stores
        exact pipe.stored_older first carries pending older stores
      · rw [if_pos same.symm] at stores
        exact pipe.stored_snapshot first carries pending same.symm handed stabilizes stores

-----------------------------------------------------------------------------------------
-- The application works on the storage
-----------------------------------------------------------------------------------------

theorem Pipe.withStorage {ms' : MemoryStorage} (pipe : Pipe L async p l)
    (ok : StorageOk ms' p.floor p.durable.log)
    : Pipe L async p { l with storage := ms' } where
  unstable := pipe.unstable
  storage := ok
  line := pipe.line
  resps := pipe.resps
  index := { pipe.index with }

theorem MemoryStorage.compact_ok {i : Nat} {ms' : MemoryStorage}
    (compacts : ms.compact i = .ok (.ok ms'))
    : ms.dummy.index < i ∧ ∃ e, ms.ents[i - ms.dummy.index - 1]? = some e
      ∧ ms' = { ms with
        dummy := { index := e.index, term := e.term }
        ents := ms.ents.drop (i - ms.dummy.index) } := by
  unfold MemoryStorage.compact at compacts
  by_cases compacted : i ≤ ms.dummy.index
  · rw [if_pos compacted] at compacts
    cases compacts
  rw [if_neg compacted] at compacts
  by_cases outside : i > ms.lastIndex
  · rw [if_pos outside] at compacts
    cases compacts
  rw [if_neg outside] at compacts
  cases found : ms.ents[i - ms.dummy.index - 1]? with
  | none =>
      rw [found] at compacts
      cases compacts
  | some e =>
      rw [found] at compacts
      cases compacts
      exact ⟨Nat.lt_of_not_le compacted, e, rfl, rfl⟩

theorem MemoryStorage.createSnapshot_ok {i : Nat} {cs : ConfState} {data : List Entry}
    {ms' : MemoryStorage} (creates : ms.createSnapshot i cs data = .ok (.ok ms'))
    : ∃ term, ms' = { ms with
        snapshot := { data, metadata := { index := i, term := term, confState := cs } } } := by
  unfold MemoryStorage.createSnapshot at creates
  by_cases old : i ≤ ms.snapshot.metadata.index
  · rw [if_pos old] at creates
    cases creates
  rw [if_neg old] at creates
  by_cases outside : i > ms.lastIndex
  · rw [if_pos outside] at creates
    cases creates
  rw [if_neg outside] at creates
  by_cases compacted : i < ms.dummy.index
  · rw [if_pos compacted] at creates
    cases creates
  rw [if_neg compacted] at creates
  cases read : (ms.dummy :: ms.ents)[i - ms.dummy.index]? with
  | none =>
      rw [read] at creates
      cases creates
  | some e =>
      rw [read] at creates
      cases creates
      exact ⟨e.term, rfl⟩

/-- `Compact` up to an index that no write changes. -/
theorem StorageOk.compact {floor i : Nat} {ms' : MemoryStorage}
    (ok : StorageOk ms floor d)
    (indexed : Indexed d) (below : i ≤ floor) (compacts : ms.compact i = .ok (.ok ms'))
    : StorageOk ms' floor d ∧ ms.dummy.index ≤ ms'.dummy.index
      ∧ ms'.dummy.index ≤ max ms.dummy.index i := by
  obtain ⟨above, e, found, rfl⟩ := MemoryStorage.compact_ok compacts
  have floorLe := ok.floor
  have position : ms.dummy.index + (i - ms.dummy.index - 1) = i - 1 := by omega
  rw [ok.stored.ents, List.getElem?_drop, position] at found
  have index : e.index = i := by
    have := indexed (i - 1) e found
    omega
  refine ⟨⟨⟨?_, ?_, ?_⟩, ?_, ok.snapshot, floorLe⟩, ?_, ?_⟩
  · simp only [index]
    omega
  · simp only [index, ok.stored.ents, List.drop_drop]
    congr 1
    omega
  · simp only [index]
    obtain ⟨k, rfl⟩ : ∃ k, i = k + 1 := ⟨i - 1, by omega⟩
    exact (termAt_succ found).symm
  · simp only [index]
    exact below
  · simp only [index]
    exact above.le
  · simp only [index]
    exact Nat.le_max_right _ _

/-- `CreateSnapshot` at an index that no write changes. -/
theorem StorageOk.createSnapshot {floor i : Nat} {cs : ConfState} {data : List Entry}
    {ms' : MemoryStorage} (ok : StorageOk ms floor d) (below : i ≤ floor)
    (creates : ms.createSnapshot i cs data = .ok (.ok ms'))
    : StorageOk ms' floor d ∧ ms.dummy.index ≤ ms'.dummy.index
      ∧ ms'.dummy.index ≤ max ms.dummy.index i := by
  obtain ⟨term, rfl⟩ := MemoryStorage.createSnapshot_ok creates
  exact ⟨⟨⟨ok.stored.within, ok.stored.ents, ok.stored.dummyTerm⟩, ok.dummy, below, ok.floor⟩,
    Nat.le_refl _, Nat.le_max_left _ _⟩

-----------------------------------------------------------------------------------------
-- The start
-----------------------------------------------------------------------------------------

/-- Nothing is in flight when a node starts. -/
def Pipeline.started (term floor : Nat) (d : List Entry) : Pipeline where
  term := term
  log := d
  floor := floor
  durable := { term := term, log := d }
  done := []
  slots := []

theorem Pipe.start {term floor : Nat} (matched : Matched L d)
    (storage : StorageOk l.storage floor d)
    (unstable : l.unstable = { offset := d.length + 1, offsetInProgress := d.length + 1 })
    (committed : l.committed ≤ d.length) (applying : l.applying ≤ l.committed)
    (applied : l.applied = l.applying) (applyingFloor : l.applying ≤ floor)
    : Pipe L async (.started term floor d) l := by
  have within := storage.floor
  exact {
    unstable := by
      rw [unstable]
      exact {
        positive := Nat.le_add_left 1 _
        ordered := Nat.le_refl _
        within := Nat.le_refl _
        entries := (List.drop_of_length_le (Nat.le_refl _)).symm
        snapshot := by simp
        unhanded := by simp
        idle := fun _ => rfl }
    storage := storage
    line := by
      rw [unstable]
      exact {
        current := matched
        matched := by simpa [Pipeline.versions, Pipeline.started] using matched
        chain := trivial
        handed := Nat.lt_succ_of_le within
        fresh := by simp
        agree := by simp [Pipeline.versions, Pipeline.started]
        beyond := by simp [Pipeline.started]
        whole := by simp [Pipeline.versions, Pipeline.started]
        last := by simp [Pipeline.last, Pipeline.started, lastVersion]
        same := by simp [Pipeline.versions, Pipeline.started] }
    resps := by
      rw [unstable]
      exact {
        done := by simp [Pipeline.started]
        slots := trivial
        doneFloor := by simp [Pipeline.started]
        slotSnap := by simp [Pipeline.started]
        respSnap := by simp [Pipeline.started]
        increasing := by simp [Pipeline.started, Pipeline.resps]
        pending := by simp [Pipeline.started, Pipeline.resps]
        guarded := by simp
        carried := by simp }
    index := {
      committed := committed
      applying := applying
      applied := applied.le
      appliedFloor := applied.le.trans applyingFloor
      applyingFloor := fun _ => applyingFloor
      reach := by
        rw [unstable, ite_self]
        exact Nat.lt_succ_of_le (applying.trans committed)
      last := applying.trans committed
      pending := by simp [unstable]
      slots := by simp [Pipeline.started] } }

end EtcdRaft
