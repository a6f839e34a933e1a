import EtcdRaft.Refinement.Probing
import EtcdRaft.Refinement.Slices

/-! Paged reading of the raft log: `scan` hands over every entry of a range once and in
order, and the check before a campaign misses no configuration change.
-/

namespace EtcdRaft

/-- A loop over a list whose body takes and returns a state and may stop the loop with an
error.
-/
def visit {σ α ε : Type} (v : σ → α → σ × Option ε) : List α → σ → σ × Option ε
  | [], s => (s, none)
  | a :: rest, s =>
      match v s a with
      | (s, some err) => (s, some err)
      | (s, none) => visit v rest s

section

variable [Codec]

/-- Consecutive parts of a list, none empty, each of which is a single entry or fits. -/
structure Pages (pageSize : Nat) (ents : List Entry)
    (pages : List (List Entry)) : Prop where
  whole : pages.flatten = ents
  nonempty : ∀ page ∈ pages, page ≠ []
  fits : ∀ page ∈ pages, page.length = 1 ∨ entsSize page ≤ pageSize

theorem Pages.cons {pageSize : Nat} {page ents : List Entry} {pages : List (List Entry)}
    (pages_ok : Pages pageSize ents pages) (nonempty : page ≠ [])
    (fits : page.length ≤ 1 ∨ entsSize page ≤ pageSize)
    : Pages pageSize (page ++ ents) (page :: pages) where
  whole := by rw [List.flatten_cons, pages_ok.whole]
  nonempty := List.forall_mem_cons.mpr ⟨nonempty, pages_ok.nonempty⟩
  fits := by
    refine List.forall_mem_cons.mpr ⟨fits.imp_left fun single => ?_, pages_ok.fits⟩
    have := List.length_pos_iff.mpr nonempty
    omega

/-- What a scan makes of its pages: it visits them, and fails only if the callback does.
-/
def RaftLog.Scans (l : RaftLog) (hi pageSize fuel lo : Nat) (pages : List (List Entry)) : Prop :=
  ∀ (σ ε : Type) (v : σ → List Entry → σ × Option ε) (s : σ),
    l.scanLoop hi pageSize v fuel lo s
      = .ok ((visit v pages s).1, (visit v pages s).2.map .callback)

/-- A scan of entries that exist visits all of them. The induction is on the fuel, of
which a page takes one and an entry at least.
-/
theorem Shows.exists_pages {l : RaftLog} {c : List Entry} (shows : Shows l c)
    {hi lo fuel : Nat} (pageSize : Nat) (available : l.firstIndex ≤ lo)
    (present : hi ≤ c.length + 1)
    (enough : hi ≤ lo + fuel)
    : ∃ pages, Pages pageSize ((c.drop (lo - 1)).take (hi - lo)) pages
      ∧ l.Scans hi pageSize fuel lo pages := by
  have first := l.firstIndex_pos
  induction fuel generalizing lo with
  | zero =>
      refine ⟨[], ⟨?_, nofun, nofun⟩, fun _ _ _ _ => rfl⟩
      rw [Nat.sub_eq_zero_of_le (by omega), List.take_zero, List.flatten_nil]
  | succ fuel ih =>
      by_cases done : lo ≥ hi
      · refine ⟨[], ⟨?_, nofun, nofun⟩, fun _ _ _ _ => ?_⟩
        · rw [Nat.sub_eq_zero_of_le done, List.take_zero, List.flatten_nil]
        · rw [RaftLog.scanLoop, if_pos done]
          rfl
      obtain ⟨page, read, part, nonempty⟩ :=
        shows.slice pageSize available (by omega) present
      have fits := (l.ends_slice_fits lo hi pageSize).result read page rfl
      have nonempty := nonempty (by omega)
      have some := List.length_pos_iff.mpr nonempty
      obtain ⟨pages, pages_ok, scans⟩ := @ih (lo + page.length) (by omega) (by omega)
      refine ⟨page :: pages, ?_, fun σ ε v s => ?_⟩
      · have rest : (c.drop (lo - 1)).take (hi - lo)
            = page ++ (c.drop (lo + page.length - 1)).take (hi - (lo + page.length)) := by
          obtain ⟨rest, split⟩ := part
          have later := congrArg (List.drop page.length) split
          rw [List.drop_left, List.drop_take, List.drop_drop] at later
          rw [← split, later, show lo - 1 + page.length = lo + page.length - 1 by omega,
            Nat.sub_sub]
        rw [rest]
        exact pages_ok.cons nonempty fits
      · rw [RaftLog.scanLoop, if_neg done, read]
        simp only [except_ok_bind]
        rw [if_neg (by omega), visit]
        rcases v s page with ⟨s', _ | err⟩
        · exact scans σ ε v s'
        · rfl

namespace Raft

omit [Codec] in
/-- The callback has found something as soon as a page has a configuration change. -/
theorem visit_findConfChange (pages : List (List Entry))
    : visit findConfChange pages false
      = if pages.flatten.any Entry.isConfChange then (true, some ()) else (false, none) := by
  induction pages with
  | nil => rfl
  | cons page rest ih =>
      rw [visit, findConfChange, List.flatten_cons, List.any_append]
      cases page.any Entry.isConfChange with
      | true => rfl
      | false => simpa using ih

end Raft

/-- A scan that finds nothing has seen every entry. -/
theorem Shows.scan_findConfChange {l : RaftLog} {c : List Entry} (shows : Shows l c)
    {lo hi pageSize : Nat}
    (scanned : l.scan lo hi pageSize Raft.findConfChange false = .ok (false, none))
    : ∀ i e, lo ≤ i + 1 → i + 1 < hi → (c)[i]? = some e → e.isConfChange = false := by
  intro i e above below found
  -- the first page is read, so the range exists
  have reads : ∃ ents, l.slice lo hi pageSize = .ok (.ok ents) := by
    obtain ⟨fuel, count⟩ : ∃ fuel, hi - lo = fuel + 1 := ⟨hi - lo - 1, by omega⟩
    rw [RaftLog.scan, count, RaftLog.scanLoop, if_neg (by omega)] at scanned
    obtain ⟨read, known, scanned⟩ := except_bind_eq_ok.mp scanned
    cases read with
    | error err => cases scanned
    | ok ents => exact ⟨ents, known⟩
  obtain ⟨ents, read⟩ := reads
  obtain ⟨available, _, present⟩ := shows.slice_within read
  have first := l.firstIndex_pos
  obtain ⟨pages, pages_ok, scans⟩ :=
    @Shows.exists_pages _ l c shows hi lo (hi - lo) pageSize available present (by omega)
  have outcome := (scans Bool Unit Raft.findConfChange false).symm.trans scanned
  rw [Raft.visit_findConfChange, pages_ok.whole] at outcome
  cases some : ((c.drop (lo - 1)).take (hi - lo)).any Entry.isConfChange with
  | true =>
      rw [some, if_pos rfl] at outcome
      cases outcome
  | false =>
      refine Bool.eq_false_of_not_eq_true (List.any_eq_false.mp some e ?_)
      refine List.mem_of_getElem? (i := i - (lo - 1)) ?_
      rw [List.getElem?_take_of_lt (by omega), List.getElem?_drop,
        show lo - 1 + (i - (lo - 1)) = i by omega, found]

-----------------------------------------------------------------------------------------
-- The represented log
-----------------------------------------------------------------------------------------

/-- A scan of entries that are represented visits all of them in pages. -/
theorem RaftLog.WellFormed.scan {l : RaftLog} (ok : l.WellFormed) {lo hi : Nat}
    (pageSize : Nat) (available : l.firstIndex ≤ lo) (present : hi ≤ l.lastIndex + 1)
    : ∃ pages, Pages pageSize (l.entriesBetween lo hi) pages
      ∧ l.Scans hi pageSize (hi - lo) lo pages := by
  obtain ⟨c, shows⟩ := ok.exists_shows
  rw [shows.lastIndex] at present
  rw [@Shows.entriesBetween l c shows lo hi available]
  exact shows.exists_pages pageSize available present (by omega)

omit [Codec] in
/-- The entries between two indexes, one by one. -/
theorem RaftLog.mem_entriesBetween {l : RaftLog} {lo hi : Nat} {e : Entry}
    : e ∈ l.entriesBetween lo hi ↔ ∃ i, lo ≤ i ∧ i < hi ∧ l.entry? i = some e := by
  unfold RaftLog.entriesBetween
  rw [List.mem_filterMap]
  refine exists_congr fun i => ?_
  rw [List.mem_range'_1, and_assoc]
  refine and_congr_right fun above => and_congr_left fun _ => ?_
  omega

namespace Raft

/-- The check before a campaign finds a configuration change among the committed entries
that are not applied exactly if there is one, whatever the page size.
-/
theorem hasUnappliedConfChanges_eq {r : Raft} (ok : r.raftLog.WellFormed)
    (available : r.raftLog.firstIndex ≤ r.raftLog.applied + 1)
    : r.hasUnappliedConfChanges = .ok ((r.raftLog.entriesBetween (r.raftLog.applied + 1)
        (r.raftLog.committed + 1)).any Entry.isConfChange) := by
  unfold hasUnappliedConfChanges
  by_cases done : r.raftLog.applied ≥ r.raftLog.committed
  · rw [if_pos done, RaftLog.entriesBetween, Nat.sub_eq_zero_of_le (Nat.succ_le_succ done)]
    rfl
  obtain ⟨pages, pages_ok, scans⟩ := ok.scan r.raftLog.maxApplyingEntsSize available
    (Nat.succ_le_succ ok.committed)
  have scanned := scans Bool Unit findConfChange false
  rw [visit_findConfChange, pages_ok.whole] at scanned
  rw [if_neg done]
  dsimp only
  rw [RaftLog.scan, scanned]
  cases (r.raftLog.entriesBetween (r.raftLog.applied + 1) (r.raftLog.committed + 1)).any
      Entry.isConfChange <;> rfl

/-- The check before a campaign sees every entry that is committed and not applied, and a
scan of any range that exists passes all its entries to the callback, in pages that do not
depend on it.
-/
theorem hasUnappliedConfChanges_exact {r : Raft} (ok : r.raftLog.WellFormed)
    : (r.raftLog.unstable.snapshot = none → r.raftLog.storage.dummy.index ≤ r.raftLog.applied
        → ∃ found, r.hasUnappliedConfChanges = .ok found
          ∧ (found = true ↔ ∃ i e, r.raftLog.applied < i ∧ i ≤ r.raftLog.committed
            ∧ r.raftLog.entry? i = some e
            ∧ (e.type = .entryConfChange ∨ e.type = .entryConfChangeV2)))
      ∧ ∀ lo hi pageSize, r.raftLog.firstIndex ≤ lo → hi ≤ r.raftLog.lastIndex + 1
        → ∃ pages : List (List Entry), pages.flatten = r.raftLog.entriesBetween lo hi
          ∧ (∀ page ∈ pages, page ≠ [] ∧ (page.length = 1 ∨ entsSize page ≤ pageSize))
          ∧ ∀ (σ ε : Type) (v : σ → List Entry → σ × Option ε) (s : σ),
            r.raftLog.scan lo hi pageSize v s
              = .ok ((visit v pages s).1, (visit v pages s).2.map .callback) := by
  refine ⟨fun noSnapshot compacted => ?_, fun lo hi pageSize available present => ?_⟩
  · have available : r.raftLog.firstIndex ≤ r.raftLog.applied + 1 := by
      rw [Shows.firstIndex_eq r.raftLog, RaftLog.startID, noSnapshot]
      exact Nat.succ_le_succ compacted
    refine ⟨_, hasUnappliedConfChanges_eq ok available, ?_⟩
    rw [List.any_eq_true]
    constructor
    · rintro ⟨e, member, change⟩
      obtain ⟨i, above, below, found⟩ := RaftLog.mem_entriesBetween.mp member
      exact ⟨i, e, above, Nat.lt_succ_iff.mp below, found,
        by simpa [Entry.isConfChange] using change⟩
    · rintro ⟨i, e, above, below, found, change⟩
      exact ⟨e, RaftLog.mem_entriesBetween.mpr ⟨i, above, Nat.lt_succ_of_le below, found⟩,
        by simpa [Entry.isConfChange] using change⟩
  · obtain ⟨pages, pages_ok, scans⟩ := ok.scan pageSize available present
    exact ⟨pages, pages_ok.whole, fun page member => ⟨pages_ok.nonempty page member,
      pages_ok.fits page member⟩, scans⟩

end Raft

end

attribute [local instance] Codec.wire

/-- All but the first entry are committed and not applied, and the last one is a
configuration change. Every page has a single entry.
-/
def unappliedChange : RaftLog :=
  { straddling with
    unstable := { straddling.unstable with entries := [
      { term := 2, index := 3, data := [1, 2] },
      { term := 2, index := 4, type := .entryConfChange, data := [1] }] }
    committed := 4
    maxApplyingEntsSize := 0 }

theorem hasUnappliedConfChanges_exact_unapplied
    : unappliedChange.WellFormed
      ∧ { nodeWithTerms 1 [] 1 .empty with raftLog := unappliedChange }.hasUnappliedConfChanges
        = .ok true := by
  refine ⟨by decide, ?_⟩
  obtain ⟨found, checked, exact_⟩ := (Raft.hasUnappliedConfChanges_exact
    (r := { nodeWithTerms 1 [] 1 .empty with raftLog := unappliedChange }) (by decide)).1 rfl
    (by decide)
  rw [checked, exact_.mpr ⟨4, _, by decide, by decide, rfl, .inl rfl⟩]

end EtcdRaft
