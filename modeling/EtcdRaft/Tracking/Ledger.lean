import EtcdRaft.Runs.Consecutive
import EtcdRaft.Tracking.Books

/-! The log of a leader along its duties: it only grows, and the quota of uncommitted
entries grows by exactly what is appended.
-/

namespace EtcdRaft

theorem payloadsSize_append (es es' : List Entry)
    : payloadsSize (es ++ es') = payloadsSize es + payloadsSize es' := by
  simp only [payloadsSize, List.map_append, List.sum_append]

/-- Entries are appended right behind the log. -/
theorem Shows.append {l l' : RaftLog} {c es : List Entry} (shows : Shows l c)
    (new : Consecutive (c.length + 1) es) (appends : l.append es = .ok l')
    : Shows l' (c ++ es) := by
  rcases RaftLog.append_ok appends with ⟨rfl, rfl⟩ | ⟨e, rest, u, rfl, _, truncates, rfl⟩
  · rw [List.append_nil]
    exact shows
  · have count := shows.length_entries
    have within := shows.within
    unfold Unstable.truncateAndAppend at truncates
    dsimp only at truncates
    rw [if_pos (new.head.trans count.symm)] at truncates
    cases truncates
    have before : (c ++ e :: rest).take (l.unstable.offset - 1) = c.take (l.unstable.offset - 1) :=
      List.take_append_of_le_length (by omega)
    refine ⟨shows.positive, ?_, ?_, fun s pending => ?_, fun none => ?_⟩
    · simp only [List.length_append]
      omega
    · show l.unstable.entries ++ e :: rest = (c ++ e :: rest).drop (l.unstable.offset - 1)
      rw [shows.entries, List.drop_append_of_le_length (by omega)]
    · obtain ⟨offset, term⟩ := shows.snapshot s pending
      refine ⟨offset, term.trans (termAt_congr ?_)⟩
      rw [List.take_append_of_le_length (by omega)]
    · obtain ⟨d, stored, agree, _, dummy⟩ := shows.stable none
      refine ⟨d, stored, before ▸ agree, fun empty => ?_, ?_⟩
      · simp at empty
      · rw [List.length_append]
        exact dummy.trans (Nat.le_add_right _ _)

namespace Books

/-- The log of the leader is `c`, which no snapshot is to replace. -/
structure Grounded (b : Books) (c : List Entry) : Prop where
  shows : Shows b.raftLog c
  snapshot : b.raftLog.unstable.snapshot = none
  logical : b.raftLog.logical.EndOf c
  indexed : Indexed c

/-- The log has grown by `es`, and so has the quota. -/
structure Grown (b b' : Books) (es : List Entry) : Prop where
  quota : b'.uncommittedSize = b.uncommittedSize + payloadsSize es
  storage : b'.raftLog.storage = b.raftLog.storage
  applied : b'.raftLog.applied = b.raftLog.applied
  base : b'.raftLog.logical.base = b.raftLog.logical.base
  id : b'.id = b.id
  term : b'.term = b.term

theorem Grown.refl (b : Books) : b.Grown b [] := ⟨rfl, rfl, rfl, rfl, rfl, rfl⟩

theorem Grown.trans {b₁ b₂ b₃ : Books} {es es' : List Entry} (first : b₁.Grown b₂ es)
    (second : b₂.Grown b₃ es')
    : b₁.Grown b₃ (es ++ es') where
  quota := by rw [second.quota, first.quota, payloadsSize_append, Nat.add_assoc]
  storage := second.storage.trans first.storage
  applied := second.applied.trans first.applied
  base := second.base.trans first.base
  id := second.id.trans first.id
  term := second.term.trans first.term

theorem consecutive_stamped (b : Books) (es : List Entry)
    : Consecutive (b.raftLog.lastIndex + 1) (b.stamped es) := by
  intro k e found
  unfold stamped at found
  rw [List.getElem?_mapIdx] at found
  obtain ⟨e', _, rfl⟩ := Option.map_eq_some_iff.mp found
  rfl

namespace Grounded

variable {b : Books} {c : List Entry}

/-- A commit changes nothing but the commit index. -/
theorem commit {raftLog : RaftLog} {at_ : EntryID} {parked : List Message}
    (ok : b.Grounded c)
    (commits : b.raftLog.maybeCommit at_ = .ok (raftLog, true))
    : { b with raftLog := raftLog, parked := parked }.Grounded c
      ∧ b.Grown { b with raftLog := raftLog, parked := parked } [] := by
  unfold RaftLog.maybeCommit at commits
  split at commits
  · obtain ⟨l, commits, eq⟩ := except_bind_eq_ok.mp commits
    cases eq
    rw [RaftLog.commitTo_ok commits]
    obtain ⟨⟨positive, within, entries, snapshot, stable⟩, none, logical, indexed⟩ := ok
    exact ⟨⟨⟨positive, within, entries, snapshot, stable⟩, none, logical, indexed⟩,
      ⟨rfl, rfl, rfl, rfl, rfl, rfl⟩⟩
  · cases commits

theorem append {es : List Entry} {raftLog : RaftLog} (ok : b.Grounded c)
    (appends : b.raftLog.append (b.stamped es) = .ok raftLog)
    : { b with
        raftLog := raftLog
        uncommittedSize := b.uncommittedSize + payloadsSize (b.stamped es) }.Grounded
          (c ++ b.stamped es)
      ∧ b.Grown { b with
        raftLog := raftLog
        uncommittedSize := b.uncommittedSize + payloadsSize (b.stamped es) } (b.stamped es) := by
  have new := b.consecutive_stamped es
  rw [ok.shows.lastIndex] at new
  have shows := ok.shows.append new appends
  have indexed : Indexed (c ++ b.stamped es) := by
    have first : Consecutive 1 c :=
      fun k e found => (ok.indexed k e found).trans (Nat.add_comm _ _)
    rw [Nat.add_comm] at new
    exact fun k e found => (first.append new k e found).trans (Nat.add_comm _ _)
  rcases RaftLog.append_ok appends with ⟨none, rfl⟩ | ⟨e, rest, u, some_, _, truncates, rfl⟩
  · rw [none, List.append_nil] at *
    exact ⟨⟨shows, ok.snapshot, ok.logical, ok.indexed⟩, ⟨rfl, rfl, rfl, rfl, rfl, rfl⟩⟩
  · refine ⟨⟨shows, ?_, ?_, indexed⟩, ⟨rfl, rfl, rfl, ?_, rfl, rfl⟩⟩
    · exact (Unstable.truncateAndAppend_snapshot truncates).1.trans ok.snapshot
    · have logical := ok.logical.truncateAndAppend indexed ok.logical.within (by simp [some_])
        (List.take_left' rfl |>.trans (List.take_length).symm)
      rwa [List.drop_left' rfl] at logical
    · show (b.raftLog.logical.truncateAndAppend (b.stamped es)).base = _
      rw [some_]
      rfl

end Grounded

variable [Codec] {heard : Message → Prop} {beats : ProgressState → Prop} {changes : Prop}
  {b b' : Books} {c : List Entry}

/-- No duty makes a node the leader. -/
theorem Duty.modest (duty : Duty heard beats changes b b')
    (leads : b'.state = .stateLeader)
    : b.state = .stateLeader := by
  cases duty with
  | stepDown follows => exact absurd leads follows
  | _ => exact leads

/-- A duty that leaves the node the leader. -/
theorem Duty.grounded (duty : Duty heard beats changes b b')
    (leads : b'.state = .stateLeader)
    (ok : b.Grounded c)
    : ∃ es, b'.Grounded (c ++ es) ∧ b.Grown b' es := by
  have same {b' : Books} (log : b'.raftLog = b.raftLog)
      (quota : b'.uncommittedSize = b.uncommittedSize) (id : b'.id = b.id)
      (term : b'.term = b.term)
      : ∃ es, b'.Grounded (c ++ es) ∧ b.Grown b' es := by
    refine ⟨[], ?_, quota, by rw [log], by rw [log], by rw [log], id, term⟩
    rw [List.append_nil]
    obtain ⟨shows, snapshot, logical, indexed⟩ := ok
    exact ⟨log ▸ shows, log ▸ snapshot, log ▸ logical, indexed⟩
  cases duty with
  | append es appends => exact ⟨b.stamped es, ok.append appends⟩
  | commit commits =>
      refine ⟨[], ?_⟩
      rw [List.append_nil]
      exact ok.commit commits
  | commitOnChange may commits =>
      refine ⟨[], ?_⟩
      rw [List.append_nil]
      exact ok.commit commits
  | stepDown follows => exact absurd leads follows
  | _ => exact same rfl rfl rfl rfl

/-- A sequence of duties. -/
theorem Grounded.duties (ok : b.Grounded c)
    (duties : Relation.ReflTransGen (Duty heard beats changes) b b')
    (leads : b'.state = .stateLeader)
    : ∃ es, b'.Grounded (c ++ es) ∧ b.Grown b' es := by
  induction duties with
  | refl => exact ⟨[], (List.append_nil c).symm ▸ ok, .refl b⟩
  | tail _ duty ih =>
      obtain ⟨es, ok, grown⟩ := ih (duty.modest leads)
      obtain ⟨es', ok', grown'⟩ := duty.grounded leads ok
      exact ⟨es ++ es', List.append_assoc c es es' ▸ ok', grown.trans grown'⟩

end Books

end EtcdRaft
