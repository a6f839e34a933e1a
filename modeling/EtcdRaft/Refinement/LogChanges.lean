import EtcdRaft.Refinement.Pipeline

/-! The pipeline when the log of a node changes: entries are appended or replaced, a
snapshot is restored, the term changes, the leaders' logs grow.
-/

namespace EtcdRaft

variable {L L' : Nat → List Entry} {async : Bool} {p : Pipeline} {l l' : RaftLog}
  {u u' : Unstable}

-----------------------------------------------------------------------------------------
-- Growth of the leaders' logs
-----------------------------------------------------------------------------------------

theorem Matched.mono {log : List Entry} (grows : ∀ t, L t <+: L' t)
    (matched : Matched L log)
    : Matched L' log where
  indexed := matched.indexed
  leader := fun i e found => (matched.leader i e found).trans (grows e.term)

theorem Diverges.mono {x log log' : List Entry} (grows : log <+: log')
    (diverges : Diverges x log)
    : Diverges x log' := by
  constructor
  · intro pre
    exact (List.prefix_or_prefix_of_prefix pre grows).elim diverges.1 diverges.2
  · intro pre
    exact diverges.2 (grows.trans pre)

theorem answered_mono {m : Message} (grows : ∀ t, L t <+: L' t)
    (within : m.index ≤ (L m.logTerm).length)
    : answered L' m = answered L m := by
  obtain ⟨rest, eq⟩ := grows m.logTerm
  unfold answered
  rw [← eq, List.take_append_of_le_length within]

theorem length_answered {m : Message} (within : m.index ≤ (L m.logTerm).length)
    : (answered L m).length = m.index := by
  rw [answered, List.length_take, Nat.min_eq_left within]

theorem RespOk.mono {m : Message} {v : Version} {rest : List Slot}
    (grows : ∀ t, L t <+: L' t) (ok : RespOk L p u m v rest)
    : RespOk L' p u m v rest where
  type := ok.type
  term := ok.term
  within := ok.within.trans (grows m.logTerm).length_le
  entries := by
    intro current some
    rw [answered_mono grows ok.within]
    exact (ok.entries current some).imp_right fun gone =>
      ⟨gone.1.mono (grows p.term), gone.2.trans (grows p.term)⟩
  snapshot := ok.snapshot

/-- An answer depends on the current term and log and on what is handed out. -/
theorem RespOk.congr {p' : Pipeline} {m : Message} {v : Version} {rest : List Slot}
    (ok : RespOk L p u m v rest) (term : p'.term = p.term) (log : p'.log = p.log)
    (handed : u.offsetInProgress ≤ u'.offsetInProgress)
    (snapshot : ∀ sn, u'.snapshot = some sn → u.snapshot = some sn)
    : RespOk L p' u' m v rest where
  type := ok.type
  term := term ▸ ok.term
  within := ok.within
  entries := by
    intro current some
    rw [term] at current ⊢
    rw [log]
    refine (ok.entries current some).imp_left fun held => ?_
    exact {
      term := held.term.trans term.symm
      here := held.here
      later := fun s member => term ▸ held.later s member
      current := log ▸ held.current
      handed := held.handed.trans_le handed }
  snapshot := by
    intro s sn carried pending same w member
    rw [log]
    exact ok.snapshot s sn carried (snapshot sn pending) same w member

theorem SlotsOk.imp {p' : Pipeline} {slots : List Slot} (ok : SlotsOk L p u slots)
    (each : ∀ m v rest, m ∈ slots.flatMap Slot.resps → RespOk L p u m v rest
      → RespOk L' p' u' m v rest)
    : SlotsOk L' p' u' slots := by
  induction slots with
  | nil => exact trivial
  | cons s rest ih =>
      simp only [List.flatMap_cons, List.mem_append] at each
      exact ⟨fun m member => each m _ _ (.inl member) (ok.1 m member),
        ih ok.2 fun m v rest member => each m v rest (.inr member)⟩

theorem SlotsOk.mem {slots : List Slot} (ok : SlotsOk L p u slots) {m : Message}
    (member : m ∈ slots.flatMap Slot.resps)
    : ∃ v rest, RespOk L p u m v rest := by
  induction slots with
  | nil => simp at member
  | cons s rest ih =>
      rw [List.flatMap_cons, List.mem_append] at member
      exact member.elim (fun here => ⟨_, _, ok.1 m here⟩) (ih ok.2)

theorem RespsOk.mem (ok : RespsOk L p u) {m : Message} (member : m ∈ p.resps)
    : ∃ v rest, RespOk L p u m v rest :=
  (List.mem_append.mp member).elim (fun here => ⟨_, _, ok.done m here⟩) ok.slots.mem

/-- A guard is kept if every answer stays stale. -/
theorem Guarded.imp {T T' i : Nat} {log log' : List Entry} {resps : List Message}
    (guarded : Guarded L T i log resps)
    (each : ∀ m ∈ resps, Stale L T i log m → Stale L' T' i log' m)
    : Guarded L' T' i log' resps := by
  induction resps with
  | nil => exact trivial
  | cons m rest ih =>
      refine guarded.imp_right fun stale => ⟨each m List.mem_cons_self stale.1, ih stale.2 ?_⟩
      exact fun m member => each m (List.mem_cons_of_mem _ member)

theorem Guarded.of_all {T i : Nat} {log : List Entry} {resps : List Message}
    (all : ∀ m ∈ resps, Stale L T i log m)
    : Guarded L T i log resps := by
  induction resps with
  | nil => exact trivial
  | cons m rest ih =>
      exact .inr ⟨all m List.mem_cons_self,
        ih fun m member => all m (List.mem_cons_of_mem _ member)⟩

theorem RespsOk.mono (grows : ∀ t, L t <+: L' t) (ok : RespsOk L p u) : RespsOk L' p u where
  done := fun m member => (ok.done m member).mono grows
  slots := ok.slots.imp fun _ _ _ _ => .mono grows
  doneFloor := ok.doneFloor
  slotSnap := ok.slotSnap
  respSnap := ok.respSnap
  increasing := ok.increasing
  pending := ok.pending
  guarded := by
    intro sn pending
    refine (ok.guarded sn pending).imp fun m member stale current => ?_
    obtain ⟨v, rest, respOk⟩ := ok.mem member
    refine (stale current).imp_right fun gone => ?_
    rw [answered_mono grows respOk.within]
    exact ⟨gone.1.mono (grows p.term), gone.2.trans (grows p.term)⟩
  carried := ok.carried

theorem LineOk.mono (grows : ∀ t, L t <+: L' t) (ok : LineOk L p u) : LineOk L' p u where
  current := ok.current.mono grows
  matched := fun v member => (ok.matched v member).mono grows
  chain := ok.chain
  handed := ok.handed
  fresh := ok.fresh
  agree := ok.agree
  beyond := ok.beyond
  whole := ok.whole
  last := ok.last
  same := fun v member => ⟨(ok.same v member).1, fun current =>
    ((ok.same v member).2 current).imp_right fun newer => ⟨newer.1.trans (grows p.term), newer.2⟩⟩

theorem Pipe.mono (grows : ∀ t, L t <+: L' t) (pipe : Pipe L async p l) : Pipe L' async p l where
  unstable := pipe.unstable
  storage := pipe.storage
  line := pipe.line.mono grows
  resps := pipe.resps.mono grows
  index := pipe.index

-----------------------------------------------------------------------------------------
-- A new term
-----------------------------------------------------------------------------------------

theorem RespOk.newTerm {m : Message} {v : Version} {rest : List Slot} {T : Nat}
    (newer : p.term < T) (ok : RespOk L p u m v rest)
    : RespOk L { p with term := T } u m v rest where
  type := ok.type
  term := ⟨ok.term.1.trans newer.le, ok.term.2⟩
  within := ok.within
  entries := fun current => absurd current (ok.term.1.trans_lt newer).ne
  snapshot := ok.snapshot

/-- Nothing that is in flight belongs to the new term. -/
theorem Pipe.newTerm {T : Nat} (newer : p.term < T) (pipe : Pipe L async p l)
    : Pipe L async { p with term := T } l where
  unstable := pipe.unstable
  storage := pipe.storage
  line := {
    current := pipe.line.current
    matched := pipe.line.matched
    chain := pipe.line.chain
    handed := pipe.line.handed
    fresh := pipe.line.fresh
    agree := pipe.line.agree
    beyond := pipe.line.beyond
    whole := pipe.line.whole
    last := pipe.line.last
    same := by
      intro v member
      have older := (pipe.line.same v member).1.trans_lt newer
      exact ⟨older.le, fun current => absurd current older.ne⟩ }
  resps := {
    done := fun m member => (pipe.resps.done m member).newTerm newer
    slots := pipe.resps.slots.imp fun _ _ _ _ => .newTerm newer
    doneFloor := pipe.resps.doneFloor
    slotSnap := pipe.resps.slotSnap
    respSnap := pipe.resps.respSnap
    increasing := pipe.resps.increasing
    pending := pipe.resps.pending
    guarded := by
      intro sn pending
      refine Guarded.of_all fun m member current => ?_
      obtain ⟨v, rest, respOk⟩ := pipe.resps.mem member
      exact absurd current (respOk.term.1.trans_lt newer).ne
    carried := pipe.resps.carried }
  index := {
    committed := pipe.index.committed
    applying := pipe.index.applying
    applied := pipe.index.applied
    appliedFloor := pipe.index.appliedFloor
    applyingFloor := pipe.index.applyingFloor
    reach := pipe.index.reach
    last := pipe.index.last
    pending := pipe.index.pending
    slots := pipe.index.slots }

-----------------------------------------------------------------------------------------
-- The leader replaces the log
-----------------------------------------------------------------------------------------

/-- The log becomes `c`, which it was not before, by the leader of the current term. -/
structure Replaces (L : Nat → List Entry) (p : Pipeline) (c : List Entry) : Prop where
  leader : c <+: L p.term
  news : ¬c <+: p.log
  matched : Matched L c

variable {c : List Entry}

/-- What has been stored of the old log is in the new one, or the leader does not have it.
-/
theorem Replaces.keeps (replaces : Replaces L p c) {x : List Entry} (had : x <+: p.log)
    : x <+: c ∨ Diverges x (L p.term) := by
  by_cases kept : x <+: c
  · exact .inl kept
  refine .inr ⟨fun pre => ?_, fun pre => ?_⟩
  · rcases List.prefix_or_prefix_of_prefix pre replaces.leader with inside | inside
    · exact kept inside
    · exact replaces.news (inside.trans had)
  · exact replaces.news (replaces.leader.trans (pre.trans had))

theorem Replaces.same (replaces : Replaces L p c) {v : Version}
    (same : v.log = p.log ∨ (p.log <+: L p.term ∧ ¬p.log <+: v.log))
    : v.log = c ∨ (c <+: L p.term ∧ ¬c <+: v.log) := by
  refine .inr ⟨replaces.leader, fun inside => ?_⟩
  rcases same with same | ⟨leader, missing⟩
  · exact replaces.news (same ▸ inside)
  · rcases List.prefix_or_prefix_of_prefix leader replaces.leader with older | older
    · exact missing (older.trans inside)
    · exact replaces.news older

/-- An answer about entries after the log was replaced; `kept` says that what is still in
the log counts as handed out.
-/
theorem RespOk.replace {m : Message} {v : Version} {rest : List Slot}
    (replaces : Replaces L p c) (ok : RespOk L p u m v rest)
    (kept : ∀ x, x <+: p.log → x <+: c → x.length < u.offsetInProgress
      → x.length < u'.offsetInProgress)
    (snapshot : ∀ s sn, m.snapshot = some s → u'.snapshot = some sn
      → sn.metadata.index = s.metadata.index
      → Restored { p with log := c } s.metadata.index v rest)
    : RespOk L { p with log := c } u' m v rest where
  type := ok.type
  term := ok.term
  within := ok.within
  entries := by
    intro current some
    rcases ok.entries current some with held | gone
    · rcases replaces.keeps held.current with inside | diverges
      · exact .inl { held with
          current := inside
          handed := kept _ held.current inside held.handed }
      · exact .inr ⟨diverges, replaces.leader⟩
    · exact .inr ⟨gone.1, replaces.leader⟩
  snapshot := snapshot

theorem UnstableOk.truncateAndAppend {log : List Entry} {a : Nat} (ok : UnstableOk u log)
    (indexed : Indexed c) (longer : a < c.length) (common : c.take a = log.take a)
    (inside : a ≤ log.length)
    : u.truncateAndAppend (c.drop a) = .ok (u.replaced c a) := by
  obtain ⟨e, found⟩ : ∃ e, (c)[a]? = some e := ⟨_, List.getElem?_eq_getElem longer⟩
  exact u.truncateAndAppend_eq ok.positive ok.ordered ok.within ok.entries found
    (indexed a e found) common inside

/-- `append` of the part of the new log `c` after the first `a` entries, which are the
same as before.
-/
structure Appended (p : Pipeline) (l : RaftLog) (c : List Entry) (a : Nat) : Prop where
  longer : a < c.length
  common : c.take a = p.log.take a
  inside : a ≤ p.log.length
  news : ¬c.take (a + 1) <+: p.log
  committed : l.committed ≤ a
  floor : endFloor p.floor p.slots ≤ a

namespace Appended

variable {a : Nat} (appended : Appended p l c a)

include appended

/-- Whatever both logs have in common is not cut off. -/
theorem length_le {x : List Entry} (old : x <+: p.log) (new : x <+: c)
    : x.length ≤ a := by
  by_contra long
  have inside : c.take (a + 1) <+: x := by
    refine List.prefix_of_prefix_length_le (List.take_prefix _ _) new ?_
    rw [List.length_take]
    omega
  exact appended.news (inside.trans old)

theorem take_eq {k : Nat} (le : k ≤ a) : c.take k = p.log.take k := by
  have := congrArg (List.take k) appended.common
  rwa [List.take_take, List.take_take, Nat.min_eq_left le] at this

theorem unstableOk (ok : UnstableOk l.unstable p.log)
    (pending : ∀ s, l.unstable.snapshot = some s → s.metadata.index ≤ l.committed)
    : UnstableOk (l.unstable.replaced c a) c where
  positive := by
    have := ok.positive
    simp only [Unstable.replaced]
    omega
  ordered := by
    have := ok.ordered
    simp only [Unstable.replaced]
    omega
  within := by
    have := appended.longer
    simp only [Unstable.replaced]
    omega
  entries := rfl
  snapshot := by
    intro s some
    obtain ⟨offset, data, term, nonzero⟩ := ok.snapshot s some
    have covered := (pending s some).trans appended.committed
    have same := appended.take_eq covered
    refine ⟨?_, data.trans same.symm, term.trans (termAt_congr same).symm, nonzero⟩
    simp only [Unstable.replaced]
    omega
  unhanded := by
    intro some notYet
    have := ok.unhanded some notYet
    simp only [Unstable.replaced]
    omega
  idle := ok.idle

theorem lineOk (ok : LineOk L p l.unstable) (replaces : Replaces L p c)
    : LineOk L { p with log := c } (l.unstable.replaced c a) where
  current := replaces.matched
  matched := ok.matched
  chain := ok.chain
  handed := by
    have := ok.handed
    have := appended.floor
    simp only [Unstable.replaced]
    omega
  fresh := ok.fresh
  agree := by
    intro none v member
    have old := ok.agree none v member
    simp only [Unstable.replaced]
    rw [appended.take_eq (by omega)]
    exact (List.take_prefix_take_left (by omega)).trans old
  beyond := by
    intro none s member some
    have := ok.beyond none s member some
    simp only [Unstable.replaced]
    omega
  whole := by
    intro none empty
    have := appended.longer
    simp only [Unstable.replaced, List.drop_eq_nil_iff] at empty
    omega
  last := by
    intro handed
    have longer := appended.longer
    simp only [Unstable.replaced]
    refine ⟨?_, fun all => by omega⟩
    rw [appended.take_eq (by omega)]
    exact (List.take_prefix_take_left (by omega)).trans (ok.last handed).1
  same := fun v member => ⟨(ok.same v member).1, fun current =>
    replaces.same ((ok.same v member).2 current)⟩

theorem respOk {m : Message} {v : Version} {rest : List Slot}
    (pending : ∀ s, l.unstable.snapshot = some s → s.metadata.index ≤ l.committed)
    (replaces : Replaces L p c) (ok : RespOk L p l.unstable m v rest)
    : RespOk L { p with log := c } (l.unstable.replaced c a) m v rest := by
  refine ok.replace replaces ?_ ?_
  · intro x old new handed
    have := appended.length_le old new
    simp only [Unstable.replaced]
    omega
  · intro s sn carried some same w member
    have covered := (pending sn some).trans appended.committed
    rw [same] at covered
    have longer := appended.longer
    refine ⟨?_, fun all => by simp only at all; omega⟩
    simp only
    rw [appended.take_eq covered]
    exact (ok.snapshot s sn carried some same w member).1

theorem respsOk (pending : ∀ s, l.unstable.snapshot = some s → s.metadata.index ≤ l.committed)
    (replaces : Replaces L p c) (ok : RespsOk L p l.unstable)
    : RespsOk L { p with log := c } (l.unstable.replaced c a) where
  done := fun m member => appended.respOk pending replaces (ok.done m member)
  slots := ok.slots.imp fun _ _ _ _ => appended.respOk pending replaces
  doneFloor := ok.doneFloor
  slotSnap := ok.slotSnap
  respSnap := ok.respSnap
  increasing := ok.increasing
  pending := ok.pending
  guarded := fun sn some => (ok.guarded sn some).imp fun _ _ stale current =>
    (stale current).imp_right fun gone => ⟨gone.1, replaces.leader⟩
  carried := ok.carried

end Appended

theorem Appended.append_eq {a : Nat} (appended : Appended p l c a)
    (ok : UnstableOk l.unstable p.log) (indexed : Indexed c)
    : l.append (c.drop a) = .ok (l.appended c a) := by
  obtain ⟨e, found⟩ : ∃ e, (c)[a]? = some e :=
    ⟨_, List.getElem?_eq_getElem appended.longer⟩
  have truncated :=
    ok.truncateAndAppend indexed appended.longer appended.common appended.inside
  exact RaftLog.append_eq truncated found (indexed a e found) appended.committed

/-- `append`: the log becomes `c`. -/
theorem Pipe.append {a : Nat} (pipe : Pipe L async p l) (replaces : Replaces L p c)
    (appended : Appended p l c a)
    : Pipe L async { p with log := c } (l.appended c a) := by
  have pending := fun s some => (pipe.index.pending s some).2
  have applying := pipe.index.applying
  have committed := appended.committed
  have reach := pipe.index.reach
  refine ⟨appended.unstableOk pipe.unstable pending, pipe.storage,
    appended.lineOk pipe.line replaces, appended.respsOk pending replaces pipe.resps, ?_⟩
  exact {
    committed := committed.trans appended.longer.le
    applying := applying
    applied := pipe.index.applied
    appliedFloor := pipe.index.appliedFloor
    applyingFloor := pipe.index.applyingFloor
    reach := by
      simp only [RaftLog.appended, Unstable.replaced]
      cases async with
      | true => simp only [↓reduceIte] at reach ⊢; omega
      | false => simp only [Bool.false_eq_true, ↓reduceIte] at reach ⊢; omega
    last := pipe.index.last
    pending := pipe.index.pending
    slots := pipe.index.slots }

-----------------------------------------------------------------------------------------
-- Snapshots
-----------------------------------------------------------------------------------------

/-- A snapshot `s` of the log `c`. -/
structure SnapshotOf (c : List Entry) (s : Snapshot) : Prop where
  within : s.metadata.index ≤ c.length
  data : s.data = c.take s.metadata.index
  term : s.metadata.term = termAt c s.metadata.index

theorem Pipe.restore {s : Snapshot} (pipe : Pipe L async p l)
    (replaces : Replaces L p s.data)
    (snap : SnapshotOf (L p.term) s) (newer : l.committed < s.metadata.index)
    (floor : endFloor p.floor p.slots < s.metadata.index)
    : Pipe L async { p with log := s.data } (l.restore s) := by
  have length : s.data.length = s.metadata.index := by
    rw [snap.data, List.length_take, Nat.min_eq_left snap.within]
  have applying := pipe.index.applying
  have below : ∀ m ∈ p.resps, ∀ s', m.snapshot = some s'
      → s'.metadata.index < s.metadata.index := by
    intro m member s' carried
    obtain ⟨sn, some, order⟩ := pipe.resps.pending m member s' carried
    have := (pipe.index.pending sn some).2
    omega
  have each : ∀ m v rest, m ∈ p.resps → RespOk L p l.unstable m v rest
      → RespOk L { p with log := s.data } (l.unstable.restore s) m v rest := by
    intro m v rest member ok
    refine ok.replace replaces ?_ ?_
    · intro x _ new _
      have := new.length_le
      simp only [Unstable.restore]
      omega
    · intro s' sn carried some same
      simp only [Unstable.restore, Option.some.injEq] at some
      have := below m member s' carried
      subst some
      omega
  exact {
    unstable := {
      positive := Nat.le_add_left 1 _
      ordered := Nat.le_refl _
      within := by simp only [RaftLog.restore, Unstable.restore]; omega
      entries := by
        simp only [RaftLog.restore, Unstable.restore, Nat.add_sub_cancel]
        rw [List.drop_of_length_le length.le]
      snapshot := by
        intro s' some
        simp only [RaftLog.restore, Unstable.restore, Option.some.injEq] at some
        subst some
        refine ⟨rfl, (List.take_of_length_le length.le).symm, ?_, by omega⟩
        rw [snap.term]
        refine termAt_congr ?_
        rw [snap.data, List.take_take, Nat.min_self]
      unhanded := fun _ _ => rfl
      idle := nofun }
    storage := pipe.storage
    line := {
      current := replaces.matched
      matched := pipe.line.matched
      chain := pipe.line.chain
      handed := Nat.lt_succ_of_lt floor
      fresh := by
        intro sn some _
        simp only [RaftLog.restore, Unstable.restore, Option.some.injEq] at some
        subst some
        exact floor
      agree := nofun
      beyond := nofun
      whole := nofun
      last := by simp [RaftLog.restore, Unstable.restore]
      same := fun v member => ⟨(pipe.line.same v member).1, fun current =>
        replaces.same ((pipe.line.same v member).2 current)⟩ }
    resps := {
      done := fun m member => each m _ _ (List.mem_append_left _ member) (pipe.resps.done m member)
      slots := pipe.resps.slots.imp fun m v rest member =>
        each m v rest (List.mem_append_right _ member)
      doneFloor := pipe.resps.doneFloor
      slotSnap := pipe.resps.slotSnap
      respSnap := pipe.resps.respSnap
      increasing := pipe.resps.increasing
      pending := fun m member s' carried => ⟨s, rfl, .inl (below m member s' carried)⟩
      guarded := by
        intro sn some
        simp only [RaftLog.restore, Unstable.restore, Option.some.injEq] at some
        subst some
        refine Guarded.of_all fun m member current => ?_
        obtain ⟨v, rest, ok⟩ := pipe.resps.mem member
        by_cases zero : m.index = 0
        · exact .inl (by omega)
        refine ((each m v rest member ok).entries current zero).imp_left fun held => ?_
        have short := held.current.length_le
        have exact_ := length_answered ok.within
        simp only at short
        omega
      carried := by simp [RaftLog.restore, Unstable.restore] }
    index := {
      committed := length.ge
      applying := by simp only [RaftLog.restore]; omega
      applied := pipe.index.applied
      appliedFloor := pipe.index.appliedFloor
      applyingFloor := pipe.index.applyingFloor
      reach := by simp only [RaftLog.restore, Unstable.restore, ite_self]; omega
      last := pipe.index.last
      pending := by
        intro s' some
        simp only [RaftLog.restore, Unstable.restore, Option.some.injEq] at some
        subst some
        simp only [RaftLog.restore]
        omega
      slots := fun s' member sn some =>
        (pipe.index.slots s' member sn some).trans newer.le } }

end EtcdRaft
