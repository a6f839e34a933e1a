import EtcdRaft.Membership.CommittedIndex
import EtcdRaft.Model.ReadOnly

/-! Reads are confirmed in the order in which they came. A read is known by its position,
and the context of a heartbeat is the position of the last read that waits; so a quorum
that has acknowledged a position has heard of the leader after all reads up to it came.
-/

namespace EtcdRaft

-----------------------------------------------------------------------------------------
-- Positions as contexts
-----------------------------------------------------------------------------------------

theorem littleEndian_bytes (v n : Nat)
    : littleEndian ((List.range n).map fun i => UInt8.ofNat (v / 256 ^ i % 256)) = v % 256 ^ n := by
  induction n generalizing v with
  | zero => simp [littleEndian, Nat.mod_one]
  | succ n ih =>
      have shift : ∀ i, v / 256 ^ (i + 1) = v / 256 / 256 ^ i := by
        intro i
        rw [Nat.pow_succ', Nat.div_div_eq_div_mul]
      rw [List.range_succ_eq_map, List.map_cons, List.map_map, littleEndian]
      simp only [Function.comp_def, shift, ih, Nat.pow_zero, Nat.div_one, UInt8.toNat_ofNat']
      have split : v % 256 ^ (n + 1) = v % 256 + 256 * (v / 256 % 256 ^ n) := by
        rw [Nat.pow_succ', Nat.mod_mul]
      omega

/-- A position is read back from its context, as far as 64 bits can hold it. -/
theorem uint64_putUint64 (v : Nat) : uint64 (putUint64 v) = .ok (v % 2 ^ 64) := by
  have length : (putUint64 v).length = 8 := by simp [putUint64]
  have whole : (putUint64 v).take 8 = putUint64 v := List.take_of_length_le (by omega)
  rw [uint64, if_neg (by omega), whole, putUint64, littleEndian_bytes]
  rfl

-----------------------------------------------------------------------------------------
-- Acknowledged positions
-----------------------------------------------------------------------------------------

/-- The committed position is positive only if a member of the incoming half has
acknowledged it.
-/
theorem JointConfig.exists_of_committedIndex {c : JointConfig} {l : AckedIndexer}
    (voters : c.incoming.size ≠ 0) (positive : 0 < c.committedIndex l)
    : ∃ id idx, l id = some idx ∧ c.committedIndex l ≤ idx := by
  have half : c.committedIndex l ≤ c.incoming.committedIndex l := by
    unfold JointConfig.committedIndex
    dsimp only
    split <;> omega
  have votes := (MajorityConfig.le_committedIndex l positive voters).mp half
  obtain ⟨id, _, acked⟩ := List.countP_pos_iff.mp
    (show 0 < c.incoming.keys.countP (l.acks (c.committedIndex l)) by omega)
  obtain ⟨idx, found, reached⟩ := (Option.any_eq_true _ _).mp acked
  exact ⟨id, idx, found, of_decide_eq_true reached⟩

-----------------------------------------------------------------------------------------
-- Sessions
-----------------------------------------------------------------------------------------

/-- The life of a `readOnly`: all requests added so far, every context that was issued
with the number of requests at that time, the numbers of requests behind the contexts that
a node has acknowledged, and all requests returned.
-/
structure ReadSession where
  ro : ReadOnly
  added : List ReadIndexRequest := []
  issued : List (List UInt8 × Nat) := []
  acked : List (Nat × Nat) := []
  returned : List ReadIndexRequest := []

inductive ReadOp where
  | addRequest (commitIndex : Nat) (req : Message)
  | heartbeatCtx
  | recvAck (from_ : Nat) (ctx : List UInt8)
  | maybeAdvance (c : JointConfig)

namespace ReadSession

def start (option : ReadOnlyOption) : ReadSession := { ro := newReadOnly option }

/-- The numbers of requests behind a context, one for each time it was issued. -/
def counts (s : ReadSession) (ctx : List UInt8) : List Nat :=
  (s.issued.filter fun issue => issue.1 == ctx).map Prod.snd

def apply (s : ReadSession) : ReadOp → Result ReadSession
  | .addRequest commitIndex req =>
      return { s with
        ro := s.ro.addRequest commitIndex req
        added := s.added ++ [{ req, index := commitIndex }] }
  | .heartbeatCtx => return { s with issued := s.issued ++ [(s.ro.heartbeatCtx, s.added.length)] }
  | .recvAck from_ ctx => do
      let ro ← s.ro.recvAck from_ ctx
      return { s with ro := ro, acked := s.acked ++ (s.counts ctx).map fun n => (from_, n) }
  | .maybeAdvance c => do
      let (ro, reads) ← s.ro.maybeAdvance c
      return { s with ro := ro, returned := s.returned ++ reads }

def applyAll (s : ReadSession) (ops : List ReadOp) : Result ReadSession := ops.foldlM apply s

/-- Only issued contexts are acknowledged, and every configuration has voters. -/
def Permits (s : ReadSession) : ReadOp → Prop
  | .recvAck _ ctx => ctx = [] ∨ s.counts ctx ≠ []
  | .maybeAdvance c => c.incoming.size ≠ 0
  | _ => True

def PermitsAll (s : ReadSession) : List ReadOp → Prop
  | [] => True
  | op :: rest =>
      s.Permits op
      ∧ match s.apply op with
        | .ok s' => s'.PermitsAll rest
        | .error _ => True

instance (s : ReadSession) : (op : ReadOp) → Decidable (s.Permits op)
  | .addRequest _ _ => isTrue trivial
  | .heartbeatCtx => isTrue trivial
  | .recvAck _ ctx => inferInstanceAs (Decidable (ctx = [] ∨ s.counts ctx ≠ []))
  | .maybeAdvance c => inferInstanceAs (Decidable (c.incoming.size ≠ 0))

instance decidablePermitsAll (s : ReadSession) : (ops : List ReadOp) → Decidable (s.PermitsAll ops)
  | [] => isTrue trivial
  | op :: rest =>
      match done : s.apply op with
      | .ok s' =>
          have := decidablePermitsAll s' rest
          decidable_of_iff (s.Permits op ∧ s'.PermitsAll rest) (by rw [PermitsAll, done])
      | .error _ => decidable_of_iff (s.Permits op) (by simp [PermitsAll, done])

/-- The node has acknowledged a context that was issued after `n` requests had been added.
-/
def acknowledged (s : ReadSession) (n id : Nat) : Bool :=
  s.acked.any fun ack => ack.1 == id && decide (n ≤ ack.2)

/-- The position stands for requests that were added, and unless it is zero the node has
acknowledged a context that covers them.
-/
structure Backs (s : ReadSession) (id n : Nat) : Prop where
  added : n ≤ s.added.length
  fits : n ≤ maxUint64
  heard : 0 < n → s.acknowledged n id = true

/-- The positions count the requests: those returned are the first ones, a context names
the number of requests when it was issued, and every acknowledged position is backed by a
context.
-/
structure Sound (s : ReadSession) : Prop where
  split : s.returned ++ s.ro.unconfirmedReads = s.added
  position : s.ro.confirmedReads = s.returned.length
  issued : ∀ ctx n, (ctx, n) ∈ s.issued
    → n ≤ s.added.length ∧ (ctx = [] ∨ ctx = putUint64 n)
  acks : ∀ id n, s.ro.acks.get? id = some n → s.Backs id n

theorem sound_start (option : ReadOnlyOption) : (start option).Sound where
  split := rfl
  position := rfl
  issued _ _ issue := absurd issue List.not_mem_nil
  acks _ _ found := absurd found (by simp [start, newReadOnly])

theorem Sound.length {s : ReadSession} (sound : s.Sound)
    : s.added.length = s.ro.confirmedReads + s.ro.unconfirmedReads.length := by
  rw [← sound.split, List.length_append, sound.position]

theorem Sound.addRequest {s : ReadSession} (sound : s.Sound) (commitIndex : Nat)
    (req : Message)
    : Sound { s with
        ro := s.ro.addRequest commitIndex req
        added := s.added ++ [{ req, index := commitIndex }] } where
  split := by
    rw [ReadOnly.addRequest, ← List.append_assoc, sound.split]
  position := sound.position
  issued ctx n issue := by
    obtain ⟨before, encoded⟩ := sound.issued ctx n issue
    exact ⟨Nat.le_trans before (by simp), encoded⟩
  acks id n found := by
    obtain ⟨added, fits, heard⟩ := sound.acks id n found
    exact ⟨Nat.le_trans added (by simp), fits, heard⟩

theorem Sound.heartbeatCtx {s : ReadSession} (sound : s.Sound)
    : Sound { s with issued := s.issued ++ [(s.ro.heartbeatCtx, s.added.length)] } where
  split := sound.split
  position := sound.position
  issued ctx n issue := by
    rcases List.mem_append.mp issue with before | last
    · exact sound.issued ctx n before
    · cases List.mem_singleton.mp last
      refine ⟨Nat.le_refl _, ?_⟩
      unfold ReadOnly.heartbeatCtx
      split
      · exact .inl rfl
      · rw [sound.length]
        exact .inr rfl
  acks id n found :=
    ⟨(sound.acks id n found).added, (sound.acks id n found).fits, (sound.acks id n found).heard⟩

/-- A context that was issued names one of the numbers of requests behind it. -/
theorem Sound.uint64_ctx {s : ReadSession} (sound : s.Sound) {ctx : List UInt8}
    (some_ : ctx ≠ []) (issued : s.counts ctx ≠ [])
    : ∃ m ∈ s.counts ctx, uint64 ctx = .ok (m % 2 ^ 64) ∧ m ≤ s.added.length := by
  obtain ⟨m, member⟩ := List.exists_mem_of_ne_nil _ issued
  refine ⟨m, member, ?_⟩
  obtain ⟨⟨ctx', m'⟩, found, same⟩ := List.mem_map.mp member
  obtain ⟨issue, named⟩ := List.mem_filter.mp found
  have same : m' = m := same
  have named : ctx' = ctx := by simpa using named
  subst same named
  obtain ⟨bound, encoded⟩ := sound.issued _ _ issue
  rw [encoded.resolve_left some_]
  exact ⟨uint64_putUint64 m', bound⟩

theorem Backs.append {s : ReadSession} {id n : Nat} (backs : s.Backs id n) (ro : ReadOnly)
    (acks : List (Nat × Nat))
    : Backs { s with ro := ro, acked := s.acked ++ acks } id n where
  added := backs.added
  fits := backs.fits
  heard positive := by
    unfold acknowledged
    rw [List.any_append, Bool.or_eq_true]
    exact .inl (backs.heard positive)

/-- An acknowledgement raises the position of its sender to the one in its context. -/
theorem Sound.recvAck {s : ReadSession} (sound : s.Sound) {from_ : Nat} {ctx : List UInt8}
    (permits : ctx = [] ∨ s.counts ctx ≠ [])
    : ∃ ro, s.ro.recvAck from_ ctx = .ok ro
      ∧ Sound { s with ro := ro, acked := s.acked ++ (s.counts ctx).map fun n => (from_, n) } := by
  unfold ReadOnly.recvAck
  by_cases none : ctx = []
  · subst none
    exact ⟨_, rfl, sound.split, sound.position, sound.issued,
      fun id n found => (sound.acks id n found).append _ _⟩
  · obtain ⟨m, count, position, bound⟩ := sound.uint64_ctx none (permits.resolve_left none)
    have some_ : ctx.length ≠ 0 := by simpa using none
    simp only [some_, ne_eq, not_false_eq_true, ↓reduceIte, position]
    refine ⟨_, rfl, sound.split, sound.position, sound.issued, fun id n found => ?_⟩
    rw [IdMap.get?_insert] at found
    split at found
    · rename_i sender
      subst sender
      rcases Nat.le_total (m % 2 ^ 64) ((s.ro.acks.get? id).getD 0) with stale | news
      · rw [Nat.max_eq_left stale] at found
        cases known : s.ro.acks.get? id with
        | none =>
            have zero : 0 = n := by simpa [known] using found
            subst zero
            exact ⟨Nat.zero_le _, Nat.zero_le _, fun positive => absurd positive (Nat.lt_irrefl _)⟩
        | some n' =>
            have same : n' = n := by simpa [known] using found
            exact same ▸ (sound.acks id n' known).append _ _
      · rw [Nat.max_eq_right news] at found
        have same : m % 2 ^ 64 = n := Option.some.inj found
        have low : m % 2 ^ 64 ≤ m := Nat.mod_le _ _
        refine ⟨Nat.le_trans (same ▸ low) bound, ?_, fun _ => ?_⟩
        · unfold maxUint64
          omega
        · unfold acknowledged
          rw [List.any_append, Bool.or_eq_true]
          refine .inr (List.any_eq_true.mpr ⟨(id, m), List.mem_map.mpr ⟨m, count, rfl⟩, ?_⟩)
          simpa using same ▸ low
    · exact (sound.acks id n found).append _ _

/-- What a call of `maybeAdvance` returns: the next requests, each with a quorum behind
it.
-/
theorem Sound.maybeAdvance {s : ReadSession} (sound : s.Sound) {c : JointConfig}
    (voters : c.incoming.size ≠ 0)
    : ∃ ro reads, s.ro.maybeAdvance c = .ok (ro, reads)
      ∧ Sound { s with ro := ro, returned := s.returned ++ reads }
      ∧ ∀ n, s.returned.length < n → n ≤ s.returned.length + reads.length
        → c.Agrees (s.acknowledged n) := by
  unfold ReadOnly.maybeAdvance
  by_cases nothing : c.committedIndex s.ro.acks.get? ≤ s.ro.confirmedReads
  · simp only [nothing, ↓reduceIte]
    refine ⟨_, _, rfl, ?_, fun n above below => ?_⟩
    · rw [List.append_nil]
      exact sound
    · simp only [List.length_nil] at below
      omega
  · have positive : 0 < c.committedIndex s.ro.acks.get? := by omega
    obtain ⟨id, idx, found, reached⟩ :=
      JointConfig.exists_of_committedIndex voters positive
    have known := (sound.acks id idx found).added
    have bounded := (sound.acks id idx found).fits
    have length := sound.length
    have inside : ¬ c.committedIndex s.ro.acks.get? - s.ro.confirmedReads
        > s.ro.unconfirmedReads.length := by omega
    simp only [nothing, inside, ↓reduceIte]
    have taken : (s.ro.unconfirmedReads.take
        (c.committedIndex s.ro.acks.get? - s.ro.confirmedReads)).length
        = c.committedIndex s.ro.acks.get? - s.ro.confirmedReads :=
      List.length_take_of_le (by omega)
    refine ⟨_, _, rfl, ⟨?_, ?_, sound.issued, fun id n found => ?_⟩, fun n above below => ?_⟩
    · show (s.returned ++ s.ro.unconfirmedReads.take _) ++ s.ro.unconfirmedReads.drop _ = _
      rw [List.append_assoc, List.take_append_drop, sound.split]
    · have position := sound.position
      rw [List.length_append, taken]
      dsimp only
      omega
    · exact ⟨(sound.acks id n found).added, (sound.acks id n found).fits,
        (sound.acks id n found).heard⟩
    · have position := sound.position
      rw [taken] at below
      have agrees : c.Agrees (AckedIndexer.acks s.ro.acks.get? n) :=
        (JointConfig.le_committedIndex_iff_agrees _ (by omega) (by omega)).mp (by omega)
      refine agrees.mono fun id _ acked => ?_
      obtain ⟨idx, found, reached⟩ := (Option.any_eq_true _ _).mp acked
      have reached := of_decide_eq_true reached
      obtain ⟨ack, member, names⟩ := List.any_eq_true.mp
        ((sound.acks id idx found).heard (by omega))
      simp only [Bool.and_eq_true, beq_iff_eq, decide_eq_true_eq] at names
      refine List.any_eq_true.mpr ⟨ack, member, ?_⟩
      simp only [Bool.and_eq_true, beq_iff_eq, decide_eq_true_eq]
      exact ⟨names.1, by omega⟩

theorem Sound.apply {s : ReadSession} (sound : s.Sound) {op : ReadOp}
    (permits : s.Permits op)
    : ∃ s', s.apply op = .ok s' ∧ s'.Sound := by
  cases op with
  | addRequest commitIndex req => exact ⟨_, rfl, sound.addRequest commitIndex req⟩
  | heartbeatCtx => exact ⟨_, rfl, sound.heartbeatCtx⟩
  | recvAck from_ ctx =>
      obtain ⟨ro, done, sound'⟩ := @Sound.recvAck s sound from_ ctx permits
      refine ⟨_, ?_, sound'⟩
      rw [ReadSession.apply, done]
      rfl
  | maybeAdvance c =>
      obtain ⟨ro, reads, done, sound', _⟩ := sound.maybeAdvance permits
      refine ⟨_, ?_, sound'⟩
      rw [ReadSession.apply, done]
      rfl

theorem Sound.applyAll {s : ReadSession} (sound : s.Sound) {ops : List ReadOp}
    (permits : s.PermitsAll ops)
    : ∃ s', s.applyAll ops = .ok s' ∧ s'.Sound := by
  induction ops generalizing s with
  | nil => exact ⟨s, rfl, sound⟩
  | cons op rest ih =>
      obtain ⟨first, later⟩ := permits
      obtain ⟨s₁, done, sound₁⟩ := sound.apply first
      rw [done] at later
      obtain ⟨s', finished, sound'⟩ := ih sound₁ later
      refine ⟨s', ?_, sound'⟩
      rw [ReadSession.applyAll, List.foldlM_cons, done]
      exact finished

/-- Reads are confirmed in order, once, and only with a quorum. After every permitted
sequence of operations, none of which leaves the range of a slice, the requests returned
are the first ones of those added; and a further call of `maybeAdvance` returns the next
ones, each of them with a majority of each half that has acknowledged a context issued
after the request was added.
-/
theorem maybeAdvance_confirms (option : ReadOnlyOption) {ops : List ReadOp}
    (permits : (start option).PermitsAll ops)
    : ∃ s, (start option).applyAll ops = .ok s
      ∧ s.returned <+: s.added
      ∧ ∀ c : JointConfig, c.incoming.size ≠ 0
        → ∃ ro reads, s.ro.maybeAdvance c = .ok (ro, reads)
          ∧ s.returned ++ reads <+: s.added
          ∧ ∀ n, s.returned.length < n → n ≤ s.returned.length + reads.length
            → c.Agrees (s.acknowledged n) := by
  obtain ⟨s, done, sound⟩ := (sound_start option).applyAll permits
  refine ⟨s, done, ⟨_, sound.split⟩, fun c voters => ?_⟩
  obtain ⟨ro, reads, advanced, sound', quorum⟩ := sound.maybeAdvance voters
  exact ⟨ro, reads, advanced, ⟨_, sound'.split⟩, quorum⟩

/-- Two of three voters acknowledge the first of two reads, after the second one came. -/
def oneOfTwoReads : List ReadOp :=
  let voters : JointConfig := { incoming := .ofList [(1, ()), (2, ()), (3, ())] }
  [.addRequest 5 { type := .msgReadIndex }, .heartbeatCtx, .addRequest 6 { type := .msgReadIndex },
    .recvAck 1 (putUint64 1), .maybeAdvance voters, .recvAck 2 (putUint64 1),
    .maybeAdvance voters]

theorem maybeAdvance_confirms_oneOfTwoReads
    : (start .readOnlySafe).PermitsAll oneOfTwoReads
      ∧ ∃ s, (start .readOnlySafe).applyAll oneOfTwoReads = .ok s
        ∧ s.returned.length = 1 ∧ s.added.length = 2 ∧ s.returned <+: s.added := by
  have permits : (start .readOnlySafe).PermitsAll oneOfTwoReads := by decide
  obtain ⟨s, done, first, _⟩ := maybeAdvance_confirms .readOnlySafe permits
  have counts : ((start .readOnlySafe).applyAll oneOfTwoReads).map
      (fun s => (s.returned.length, s.added.length)) = .ok (1, 2) := by decide
  rw [done] at counts
  have lengths : (s.returned.length, s.added.length) = (1, 2) := Except.ok.inj counts
  exact ⟨permits, s, done, congrArg Prod.fst lengths, congrArg Prod.snd lengths, first⟩

end ReadSession

end EtcdRaft
