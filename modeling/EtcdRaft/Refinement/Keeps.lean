import EtcdRaft.Refinement.Reaches

/-! What every change of the log in memory leaves as it is. Only a `Ready` and the answers
of the local threads move the applied index and what is on its way to the state machine.
-/

namespace EtcdRaft

/-- The answers of the local threads. -/
def MessageType.isStored : MessageType → Bool
  | .msgStorageAppendResp | .msgStorageApplyResp => true
  | _ => false

/-- What a change of the log in memory leaves as it is. -/
structure Keeps (l l' : RaftLog) : Prop where
  storage : l'.storage = l.storage
  applying : l'.applying = l.applying
  applied : l'.applied = l.applied
  committed : l.committed ≤ l'.committed
  limit : l'.maxApplyingEntsSize = l.maxApplyingEntsSize
  size : l'.applyingEntsSize = l.applyingEntsSize
  paused : l'.applyingEntsPaused = l.applyingEntsPaused

-----------------------------------------------------------------------------------------
-- Changes of the log
-----------------------------------------------------------------------------------------

theorem RaftLog.commitTo_ok {l l' : RaftLog} {k : Nat} (committed : l.commitTo k = .ok l')
    : l' = { l with committed := max l.committed k } := by
  unfold commitTo at committed
  split at committed
  · split at committed
    · cases committed
    · cases committed
      rw [Nat.max_eq_right (by omega)]
  · cases committed
    rw [Nat.max_eq_left (by omega)]

theorem RaftLog.appliedTo_eq {l l' : RaftLog} {i size : Nat}
    (applies : l.appliedTo i size = .ok l')
    : l' = { l with
        applied := i
        applying := max l.applying i
        applyingEntsSize := l.applyingEntsSize - size
        applyingEntsPaused := decide (l.maxApplyingEntsSize ≤ l.applyingEntsSize - size) } := by
  have rest : (if l.applyingEntsSize > size then l.applyingEntsSize - size else 0)
      = l.applyingEntsSize - size := by
    split <;> omega
  unfold appliedTo at applies
  rw [rest] at applies
  split at applies
  · cases applies
  · cases applies
    rfl

theorem RaftLog.append_ok {l l' : RaftLog} {es : List Entry}
    (appended : l.append es = .ok l')
    : (es = [] ∧ l' = l) ∨ ∃ e rest u, es = e :: rest ∧ l.committed ≤ sub64 e.index 1
      ∧ l.unstable.truncateAndAppend es = .ok u
      ∧ l' = { l with unstable := u, logical := l.logical.truncateAndAppend es } := by
  unfold append at appended
  cases es with
  | nil =>
      cases appended
      exact .inl ⟨rfl, rfl⟩
  | cons e rest =>
      dsimp only at appended
      split at appended
      · cases appended
      · obtain ⟨u, truncated, eq⟩ := except_bind_eq_ok.mp appended
        cases eq
        exact .inr ⟨e, rest, u, rfl, by omega, truncated, rfl⟩

/-- `maybeAppend` appends a part of the entries at most, and then moves the commit index.
-/
theorem RaftLog.maybeAppend_ok {l l' : RaftLog} {a : LogSlice} {k : Nat}
    {last : Option Nat} (appended : l.maybeAppend a k = .ok (l', last))
    : l' = l ∨ ∃ l₁ j, (l₁ = l ∨ ∃ n, l.append (a.entries.drop n) = .ok l₁)
      ∧ l₁.commitTo j = .ok l' := by
  unfold maybeAppend at appended
  split at appended
  · cases appended
    exact .inl rfl
  · obtain ⟨l₁, append, appended⟩ := except_bind_eq_ok.mp appended
    obtain ⟨l₂, commits, appended⟩ := except_bind_eq_ok.mp appended
    cases appended
    refine .inr ⟨l₁, _, ?_, commits⟩
    unfold appendConflict at append
    split at append
    · cases append
      exact .inl rfl
    · split at append
      · cases append
      · dsimp only at append
        split at append
        · cases append
        · exact .inr ⟨_, append⟩

namespace Keeps

variable {l l' : RaftLog}

theorem refl (l : RaftLog) : Keeps l l := ⟨rfl, rfl, rfl, Nat.le_refl _, rfl, rfl, rfl⟩

theorem trans {l₁ l₂ l₃ : RaftLog} (first : Keeps l₁ l₂) (second : Keeps l₂ l₃) : Keeps l₁ l₃ where
  storage := second.storage.trans first.storage
  applying := second.applying.trans first.applying
  applied := second.applied.trans first.applied
  committed := first.committed.trans second.committed
  limit := second.limit.trans first.limit
  size := second.size.trans first.size
  paused := second.paused.trans first.paused

theorem commitTo {k : Nat} (committed : l.commitTo k = .ok l') : Keeps l l' := by
  rw [RaftLog.commitTo_ok committed]
  exact ⟨rfl, rfl, rfl, Nat.le_max_left _ _, rfl, rfl, rfl⟩

theorem append {es : List Entry} (appended : l.append es = .ok l') : Keeps l l' := by
  rcases RaftLog.append_ok appended with ⟨_, rfl⟩ | ⟨_, _, _, _, _, _, rfl⟩
  · exact .refl _
  · exact ⟨rfl, rfl, rfl, Nat.le_refl _, rfl, rfl, rfl⟩

theorem maybeAppend {a : LogSlice} {k : Nat} {last : Option Nat}
    (appended : l.maybeAppend a k = .ok (l', last))
    : Keeps l l' := by
  rcases RaftLog.maybeAppend_ok appended with rfl | ⟨l₁, j, rfl | ⟨n, append⟩, commits⟩
  · exact .refl _
  · exact .commitTo commits
  · exact (Keeps.append append).trans (.commitTo commits)

theorem maybeCommit {at_ : EntryID} {changed : Bool}
    (commits : l.maybeCommit at_ = .ok (l', changed))
    : Keeps l l' := by
  unfold RaftLog.maybeCommit at commits
  split at commits
  · obtain ⟨l₁, moved, eq⟩ := except_bind_eq_ok.mp commits
    cases eq
    exact .commitTo moved
  · cases commits
    exact .refl l

theorem restore {s : Snapshot} (newer : l.committed < s.metadata.index) : Keeps l (l.restore s) :=
  ⟨rfl, rfl, rfl, newer.le, rfl, rfl, rfl⟩

end Keeps

-----------------------------------------------------------------------------------------
-- Steps
-----------------------------------------------------------------------------------------

variable [Codec] {now : Nat} {m : Message} {c c' : Core}

/-- A small action, unless it handles an answer of the local threads. -/
theorem Act.keeps (act : Act now m c c') (remote : m.type.isStored = false)
    : Keeps c.raftLog c'.raftLog := by
  cases act with
  | commit leads raftLog commits => exact .maybeCommit commits
  | accept type follower term above raftLog last appended => exact .maybeAppend appended
  | heartbeat type follower term raftLog committed => exact .commitTo committed
  | fastForward type follower term newer holds raftLog committed =>
      exact .commitTo committed
  | restore type follower term newer lacks chg blank cfg progress config same =>
      exact .restore newer
  | stored type current term raftLog stores =>
      rw [type] at remote
      cases remote
  | applied type e last size raftLog applies =>
      rw [type] at remote
      cases remote
  | _ => exact .refl _

theorem Acts.keeps (acts : Acts now m c c') (remote : m.type.isStored = false)
    : Keeps c.raftLog c'.raftLog := by
  induction acts with
  | refl => exact .refl _
  | tail _ act ih => exact ih.trans (act.keeps remote)

theorem Steps.keeps (steps : Steps now m c c') (remote : m.type.isStored = false)
    : Keeps c.raftLog c'.raftLog := by
  obtain ⟨c₁, acts, rfl | ⟨c₂, appends, new, rfl, sends⟩⟩ := steps
  · exact Acts.keeps acts remote
  · obtain ⟨leads, es, nonempty, index, proposal, source, raftLog, appends⟩ := appends
    exact (Acts.keeps acts remote).trans (.append appends)

end EtcdRaft
