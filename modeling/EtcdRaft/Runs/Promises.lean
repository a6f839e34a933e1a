import EtcdRaft.Runs.Pledges

/-! The promises of all the hosts of a cluster in every run, with crashes, restarts and
both ways to write. What has been promised on the network is never taken back.
-/

namespace EtcdRaft

-----------------------------------------------------------------------------------------
-- Ready
-----------------------------------------------------------------------------------------

variable [Codec]

namespace RawNode.Bound

variable {id : Nat} {given sent : Message → Prop} {writes : List Write} {rn rn' : RawNode}
  {rd : Ready}

/-- The node after a synchronous `Ready`. -/
theorem readySync (ok : rn.Bound id given sent writes) (termed : rn.raft.core.Termed)
    (sync : rn'.asyncStorageWrites = false) (taken : rn.Taken rn' rd)
    : ∃ sent', rn'.Bound id given sent' (writes ++ [Host.writeOf rd rd.messages []]) := by
  cases taken with
  | async mode => exact absurd (mode.symm.trans sync) nofun
  | @sync committed resps raftLog mode fresh appliable answers accepts =>
      have pending := ok.queue (w := Host.writeOf (rn.readyOf committed none) _ []) rfl rfl
        fun m member => @mem_messages rn committed none m member
      exact ⟨_, ok.accepted rfl (handedOutLog_ok accepts).2.1 pending
        fun m member => .inr (mem_ownSteps termed answers member)⟩

/-- The node after an asynchronous `Ready`, which makes no promise at once. -/
theorem readyAsync (ok : rn.Bound id given sent writes) (termed : rn.raft.core.Termed)
    (async : rn'.asyncStorageWrites = true) (taken : rn.Taken rn' rd)
    : (∃ sent', rn'.Bound id given sent' (writes ++ Host.asyncWrites rd))
      ∧ ∀ m ∈ rd.messages, ¬m.IsPledge := by
  cases taken with
  | sync mode => exact absurd (mode.symm.trans async) nofun
  | @async committed resps append raftLog mode appliable request accepts =>
      have pending : Pending Write.ballotOver
          (Write.Carries id fun m => sent m ∨ m = rn.raft.hardState.ballot.message id)
          rn.raft.raftLog.storage.hardState.ballot
          (writes ++ Host.asyncWrites (rn.readyOf committed append)) rn.raft.hardState.ballot := by
        have messages :=
          @Host.Termed.asyncWrites_taken rn committed resps append termed request
        cases request with
        | none needless =>
            -- nothing has to be stored, so the ballot is the one handed over before
            have empty : isEmptyHardState (rn.readyOf [] none).hardState = true := by
              simp only [needStorageAppendMsg, Bool.or_eq_false_iff, Bool.not_eq_false'] at needless
              exact needless.1.1.2
            have reached :=
              @written id given sent writes rn ok (rn.readyOf [] none).hardState rfl
            rw [if_pos empty] at reached
            show Pending _ _ _ (writes ++ []) _
            rw [List.append_nil, ← reached]
            exact ok.writes.mono fun carries => carries.mono fun _ => .inl
        | some answers =>
            exact ok.queue rfl rfl fun m member =>
              .inr ((messages _ (List.mem_singleton.mpr rfl)).1 m member)
      refine ⟨⟨_, ok.accepted rfl (handedOutLog_ok accepts).2.1 pending fun m => .inl⟩,
        fun m member => ok.core.pledges.msgs m ?_⟩
      show m ∈ rn.raft.msgs
      simpa [readyOf, mode] using member

end RawNode.Bound

/-- A `Ready` leaves the storage and the commit index as they are. -/
theorem RawNode.Taken.log {rn rn' : RawNode} {rd : Ready} (taken : rn.Taken rn' rd)
    : rn'.raft.raftLog.storage = rn.raft.raftLog.storage
      ∧ rn'.raft.raftLog.committed = rn.raft.raftLog.committed := by
  cases taken with
  | sync _ _ _ _ accepts => exact (RawNode.handedOutLog_ok accepts).2.imp_right And.left
  | async _ _ _ accepts => exact (RawNode.handedOutLog_ok accepts).2.imp_right And.left

-----------------------------------------------------------------------------------------
-- Transitions
-----------------------------------------------------------------------------------------

namespace Host

omit [Codec] in
theorem node_persisted (σ : Setup) (h : Host) (rn : RawNode) (w : Write)
    (rest : List Write) (ms : MemoryStorage)
    : (h.persisted σ rn w rest ms).node = some (setStorage rn ms) := by
  unfold Host.persisted
  obtain ⟨app, confs, same⟩ := installed_eq _ w.snapshot
  rw [same]

/-- The promises of the host `id` once it has sent `out` and is in the state `h`. -/
def Gives (id : Nat) (given : Message → Prop) (out : Output) (h : Host) (m : Message) : Prop :=
  given m ∨ (m ∈ out.sent ∧ m.IsPledge) ∨ m = h.storage.hardState.ballot.message id

/-- The host goes from `h` to `h'` and keeps its promises. The new ones are not older than
what the disk has.
-/
structure Upholds (id : Nat) (given : Message → Prop) (h : Host) (out : Output)
    (h' : Host) : Prop
    where
  bound : h'.Bound id (Gives id given out h')
  follows : h.storage.hardState.ballot.Follows h'.storage.hardState.ballot
  sent : ∀ m ∈ out.sent, m.IsPledge → m.fromId = id ∧ h.storage.hardState.term ≤ m.term

namespace Bound

variable {σ : Setup} {id now : Nat} {given : Message → Prop} {arrives : Message → Prop}
  {h h' : Host} {rn : RawNode} {out : Output}

omit [Codec] in
/-- Nothing is promised and the disk stays as it is. -/
theorem upholds (ok : h'.Bound id given)
    (none : ∀ m ∈ out.sent, ¬m.IsPledge)
    (same : h'.storage.hardState.ballot = h.storage.hardState.ballot)
    : Upholds id given h out h' := by
  have gives : Gives id given out h' = given := by
    funext m
    refine propext ⟨?_, .inl⟩
    rintro (before | ⟨member, pledge⟩ | rfl)
    · exact before
    · exact absurd pledge (none m member)
    · exact ok.cast
  exact ⟨gives.symm ▸ ok, same ▸ .refl _, fun m member pledge => absurd pledge (none m member)⟩

omit [Codec] in
/-- What a crash may take back has the ballot of the disk. -/
theorem revert_persisted {w : Write} {st : HardState} {b : Ballot} (ok : h.Bound id given)
    (lazy : w.mustSync = false → b = h.storage.hardState.ballot)
    (reached : w.ballotOver h.storage.hardState.ballot = b)
    (member : st ∈ if flushes σ.loss h.storage.hardState w then []
      else if isEmptyHardState w.hardState then h.revert else h.storage.hardState :: h.revert)
    : st.ballot = b := by
  split at member
  · cases member
  · rename_i lost
    split at member
    · rename_i empty
      rw [← reached, Write.ballotOver, if_pos empty]
      exact ok.revert st member
    · rename_i some
      have same : b = h.storage.hardState.ballot := by
        unfold flushes at lost
        split at lost
        · exact absurd rfl lost
        · exact lazy (Bool.eq_false_iff.mpr lost)
        · have kept : w.hardState.term = h.storage.hardState.term
              ∧ w.hardState.vote = h.storage.hardState.vote := by
            simpa [some] using lost
          rw [← reached, Write.ballotOver, if_neg some]
          exact congrArg₂ Ballot.mk kept.1 kept.2
      rw [same]
      rcases List.mem_cons.mp member with rfl | old
      · rfl
      · exact ok.revert st old

omit [Codec] in
/-- The oldest write becomes durable, and its promises are given. -/
theorem persist {w : Write} {rest : List Write} {ms : MemoryStorage}
    (ok : h.Bound id given) (node : h.node = some rn) (queued : h.writes = w :: rest)
    (stored : store rn.raft.raftLog.storage w = .ok ms)
    : Upholds id given h { sent := w.messages } (h.persisted σ rn w rest ms) := by
  obtain ⟨sent, bound⟩ := ok.up rn node
  have storage := storage_of_node node
  have pending := bound.writes
  rw [queued, ← storage] at pending
  obtain ⟨carries, later⟩ := pending
  have ballot : ms.hardState.ballot = w.ballotOver h.storage.hardState.ballot := by
    rw [store_ballot stored, storage]
  rw [← ballot] at carries later
  obtain ⟨app, confs, same⟩ := ({ h with
    node := some (Host.setStorage rn ms)
    writes := rest
    appended := h.appended ++ w.response
    revert := if flushes σ.loss rn.raft.raftLog.storage.hardState w then []
      else if isEmptyHardState w.hardState then h.revert
      else rn.raft.raftLog.storage.hardState :: h.revert } : Host).installed_eq w.snapshot
  have unfolded : h.persisted σ rn w rest ms = _ := same
  have honoured : ∀ m, given m → m.IsPledge → ms.hardState.ballot.Honours m :=
    fun m before pledge => (ok.honoured m before pledge).follows pledge carries.follows
  rw [unfolded]
  have among : ∀ m, given m ∨ (m ∈ w.messages ∧ m.IsPledge)
      ∨ m = ms.hardState.ballot.message id → sent m := by
    rintro m (before | ⟨member, pledge⟩ | rfl)
    · exact bound.given m before
    · exact (carries.messages m member pledge).1
    · exact carries.cast
  refine ⟨{
    honoured := ?_
    cast := .inr (.inr rfl)
    once := fun first second => bound.core.ballots.once (among _ first) (among _ second)
    revert := ?_
    down := by
      intro down
      cases down
    up := ?_ }, carries.follows, fun m member pledge =>
      (carries.messages m member pledge).2.imp_right And.left⟩
  · rintro m (before | ⟨member, pledge⟩ | rfl) promised
    · exact honoured m before promised
    · exact (carries.messages m member pledge).2.2.2
    · exact Ballot.honours_message _ _
  · intro st member
    rw [← storage] at member
    exact ok.revert_persisted carries.lazy ballot.symm member
  · rintro _ ⟨⟩
    exact ⟨sent, ⟨{ bound.core.ballots with }, { bound.core.pledges with }⟩, bound.self, among,
      later, bound.own⟩

omit [Codec] in
theorem source {m : Message} (ok : h.Bound id given)
    (source : Source σ now arrives h m h')
    : h'.Bound id given ∧ h'.storage = h.storage := by
  cases source with
  | network arrived => exact ⟨ok, rfl⟩
  | call call => exact ⟨ok, rfl⟩
  | appended queued => exact ⟨ok.congr rfl rfl rfl rfl, rfl⟩
  | applied queued => exact ⟨ok.congr rfl rfl rfl rfl, rfl⟩

omit [Codec] in
theorem takeOwn {m : Message} (ok : h.Bound id given) (source : Own h m h')
    : h'.Bound id given ∧ h'.storage = h.storage := by
  obtain @⟨rn, rest, node, queued, released⟩ := source
  refine ⟨ok.withNode node rfl rfl rfl fun sent old => ⟨sent, ?_⟩, ?_⟩
  · have own := old.own
    rw [queued] at own
    exact { old with own := (List.forall_mem_cons.mp own).2 }
  · simp only [Host.storage, node]

/-- The node handles a message. -/
theorem handles {takes : Host → Message → Host → Prop} (handles : Handles takes h h')
    (sound : ∀ {m h'}, takes h m h' → (h'.Bound id given ∧ h'.storage = h.storage)
      ∧ (m.type.termed = true → m.term ≠ 0))
    : h'.Bound id given ∧ h'.storage = h.storage := by
  obtain @⟨m, h₁, rn, r, err, source, node, steps⟩ := handles
  obtain ⟨⟨ok, storage⟩, sound⟩ := sound source
  obtain ⟨now, steps⟩ := Raft.exists_steps sound steps
  obtain ⟨sent, bound⟩ := ok.up rn node
  have same : r.raftLog.storage = rn.raft.raftLog.storage :=
    (bound.core.steps steps).storage
  refine ⟨ok.goes node rfl rfl rfl fun sent core => core.steps steps, ?_⟩
  rw [← storage]
  simp only [Host.storage, node, same]

/-- Every transition keeps the promises. -/
theorem moves (ok : h.Bound id given) (termed : h.Termed)
    (network : ∀ m, arrives m → m.Public) (moves : Moves σ id now arrives h out h')
    : Upholds id given h out h' := by
  have quiet : ∀ {out : Output} {h' : Host}, h'.Bound id given ∧ h'.storage = h.storage
      → out.sent = [] → Upholds id given h out h' := by
    rintro out h' ⟨ok', same⟩ none
    exact ok'.upholds (none ▸ List.forall_mem_nil _) (same ▸ rfl)
  cases moves with
  | handle handles =>
      refine quiet (Bound.handles handles fun source => ⟨ok.source source, ?_⟩) rfl
      exact (termed.source source network).2
  | refuse source refused => exact quiet (ok.source source) rfl
  | fail failure => exact quiet ⟨ok.stop, rfl⟩ rfl
  | @start c rn down known starts =>
      obtain ⟨started, _, prev, _, steps⟩ := (ends_newRawNode _).result starts
      refine quiet ⟨ok.start down rfl rfl started prev steps, ?_⟩ rfl
      show rn.raft.raftLog.storage = _
      rw [started.log.storage, Host.storage, down]
  | crash k =>
      obtain ⟨crashed, same⟩ := ok.crash k
      exact crashed.upholds (List.forall_mem_nil _) same
  | @tick rn r node ticks =>
      have acts := Raft.acts_tick ticks
      obtain ⟨_, bound⟩ := ok.up rn node
      have same : r.raftLog.storage = rn.raft.raftLog.storage :=
        (bound.core.acts acts).storage
      exact quiet ⟨ok.goes node rfl rfl rfl fun sent core => core.acts acts,
        same.trans (storage_of_node node).symm⟩ rfl
  | @readySync rn rn' rd node free sync taken =>
      have taken := rn.ends_ready.result taken
      have storage := taken.log.1
      exact quiet ⟨ok.withNode node rfl rfl (storage ▸ rfl) fun sent old =>
        old.readySync (termed.core rn node) sync taken,
        storage.trans (storage_of_node node).symm⟩ rfl
  | @readyAsync rn rn' rd node free async taken =>
      have taken := rn.ends_ready.result taken
      have storage := taken.log.1
      obtain ⟨_, bound⟩ := ok.up rn node
      refine upholds (ok.withNode node rfl rfl (storage ▸ rfl) fun sent old =>
        (old.readyAsync (termed.core rn node) async taken).1) ?_ ?_
      · exact (bound.readyAsync (termed.core rn node) async taken).2
      · show rn'.raft.raftLog.storage.hardState.ballot = _
        rw [storage, storage_of_node node]
  | persist node queued stored => exact ok.persist node queued stored
  | skip node queued old => exact quiet ⟨ok.congr rfl rfl rfl rfl, rfl⟩ rfl
  | apply node queued new normal => exact quiet ⟨ok.congr rfl rfl rfl rfl, rfl⟩ rfl
  | @applyConfChange rn r cs e entries response rest cc node queued new decoded applied =>
      obtain ⟨cfg, progress, _, acts⟩ := Raft.acts_applyConfChange applied
      have goes : ∀ sent, rn.raft.core.Bound sent rn.prevHardSt.ballot
          → rn.raft.core.Goes sent rn.prevHardSt.ballot r.core := by
        intro sent core
        have changed : Core.Bound sent rn.prevHardSt.ballot
            { rn.raft.core with config := cfg, progress := progressOf progress } :=
          ⟨{ core.ballots with }, { core.pledges with }⟩
        have goes := changed.acts acts
        exact ⟨goes.bound, goes.id, goes.storage⟩
      obtain ⟨_, bound⟩ := ok.up rn node
      have same : r.raftLog.storage = rn.raft.raftLog.storage :=
        (goes _ bound.core).storage
      exact quiet ⟨ok.goes node rfl rfl rfl goes, same.trans (storage_of_node node).symm⟩ rfl
  | finish node queued => exact quiet ⟨ok.congr rfl rfl rfl rfl, rfl⟩ rfl
  | @createSnapshot rn i ms node applied durable known created =>
      obtain ⟨term, rfl⟩ := MemoryStorage.createSnapshot_ok created
      refine upholds (ok.setStorage node rfl) (List.forall_mem_nil _) ?_
      rw [storage_of_node node]
      rfl
  | @compact rn i ms node applied compacted =>
      obtain ⟨_, e, _, rfl⟩ := MemoryStorage.compact_ok compacted
      refine upholds (ok.setStorage node rfl) (List.forall_mem_nil _) ?_
      rw [storage_of_node node]
      rfl

theorem proceeds (ok : h.Bound id given) (termed : h.Termed)
    (network : ∀ m, arrives m → m.Public) (proceeds : Proceeds σ id now arrives h out h')
    : Upholds id given h out h' := by
  cases proceeds with
  | once once =>
      cases once with
      | idle => exact ok.upholds (List.forall_mem_nil _) rfl
      | one moves => exact ok.moves termed network moves
  | advance steps =>
      have all : (h'.Bound id given ∧ h'.storage = h.storage) ∧ h'.Termed := by
        induction steps with
        | refl => exact ⟨⟨ok.congr rfl rfl rfl rfl, rfl⟩, { termed with }⟩
        | tail _ next ih =>
            obtain ⟨⟨ok, same⟩, termed⟩ := ih
            obtain ⟨ok', same'⟩ := Bound.handles next fun source =>
              ⟨ok.takeOwn source, (termed.takeOwn source).2⟩
            exact ⟨⟨ok', same'.trans same⟩, next.termed termed.takeOwn⟩
      exact all.1.1.upholds (List.forall_mem_nil _) (all.1.2 ▸ rfl)
  | advanceFails steps fails => exact ok.stop.upholds (List.forall_mem_nil _) rfl

end Bound

end Host

-----------------------------------------------------------------------------------------
-- Runs
-----------------------------------------------------------------------------------------

namespace Cluster

variable {σ : Setup} {events first : List Event} {id : Nat} {m m' : Message}

/-- The promises that the host `id` has given in a run: those that it has put on the
network, and the votes that have been on its disk.
-/
def Given (σ : Setup) (events : List Event) (id : Nat) (m : Message) : Prop :=
  (m ∈ (run σ events).net ∧ m.IsPledge ∧ m.fromId = id)
    ∨ ∃ before, before <+: events
      ∧ m = ((run σ before).hosts id).storage.hardState.ballot.message id

/-- The promises of the hosts in a run. -/
def Promises (σ : Setup) (events : List Event) : Prop :=
  ∀ n, ((run σ events).hosts n).Bound n (Given σ events n)

theorem Given.mono {more : List Event} (given : Given σ events id m)
    (longer : events <+: more)
    : Given σ more id m := by
  rcases given with ⟨member, pledge⟩ | ⟨before, inside, same⟩
  · obtain ⟨rest, rfl⟩ := longer
    exact .inl ⟨(net_run_append events rest).subset member, pledge⟩
  · exact .inr ⟨before, inside.trans longer, same⟩

omit [Codec] in
/-- The beginnings of a run with one more event. -/
theorem prefix_snoc {e : Event} (inside : first <+: events ++ [e])
    : first <+: events ∨ first = events ++ [e] :=
  (List.prefix_concat_iff.mp inside).symm

/-- What an event of the host `id` means for the promises of all hosts. -/
theorem given_step {e : Event} {out : Output} {h' : Host} (ok : Promises σ events)
    (after : run σ (events ++ [e]) = (run σ events).after id (h', out))
    (upholds : Host.Upholds id (Given σ events id) ((run σ events).hosts id) out h')
    (n : Nat)
    : Given σ (events ++ [e]) n
        = if n = id then Host.Gives id (Given σ events id) out h' else Given σ events n := by
  have longer : events <+: events ++ [e] := List.prefix_append events [e]
  have net : (run σ (events ++ [e])).net = (run σ events).net ++ out.sent := by rw [after]; rfl
  funext m
  refine propext ?_
  split
  · rename_i here
    subst here
    have host : (run σ (events ++ [e])).hosts n = h' := by rw [after, after_hosts_self]
    constructor
    · rintro (⟨member, pledge, fromId⟩ | ⟨before, inside, rfl⟩)
      · rw [net] at member
        rcases List.mem_append.mp member with old | new
        · exact .inl (.inl ⟨old, pledge, fromId⟩)
        · exact .inr (.inl ⟨new, pledge⟩)
      · rcases prefix_snoc inside with inside | rfl
        · exact .inl (.inr ⟨before, inside, rfl⟩)
        · rw [host]
          exact .inr (.inr rfl)
    · rintro (before | ⟨member, pledge⟩ | rfl)
      · exact before.mono longer
      · exact .inl ⟨net ▸ List.mem_append_right _ member, pledge, (upholds.sent m member pledge).1⟩
      · exact .inr ⟨_, List.prefix_rfl, by rw [host]⟩
  · rename_i other
    have host : (run σ (events ++ [e])).hosts n = (run σ events).hosts n := by
      rw [after, after_hosts_other _ other]
    refine ⟨?_, fun before => before.mono longer⟩
    rintro (⟨member, pledge, fromId⟩ | ⟨before, inside, rfl⟩)
    · rw [net] at member
      rcases List.mem_append.mp member with old | new
      · exact .inl ⟨old, pledge, fromId⟩
      · exact absurd (fromId.symm.trans (upholds.sent m new pledge).1) other
    · rcases prefix_snoc inside with inside | rfl
      · exact .inr ⟨before, inside, rfl⟩
      · rw [host]
        exact (ok n).cast

/-- An event of a cluster: the host that it happens to keeps its promises. -/
theorem Promises.step_cases (ok : Promises σ events) (e : Event)
    : (run σ (events ++ [e])).hosts = (run σ events).hosts
        ∧ (run σ (events ++ [e])).net = (run σ events).net
      ∨ ∃ id out h', run σ (events ++ [e]) = (run σ events).after id (h', out)
        ∧ Host.Proceeds σ id (run σ events).time ((run σ events).Arrives id)
          ((run σ events).hosts id) out h'
        ∧ Host.Upholds id (Given σ events id) ((run σ events).hosts id) out h' := by
  have termed := termed_run σ events
  rcases (run σ events).step_cases (σ := σ) e with same | ⟨id, out, h', _, same, proceeds⟩
  · rw [run_append, same]
    exact .inl ⟨rfl, rfl⟩
  · refine .inr ⟨id, out, h', by rw [run_append, same], proceeds, ?_⟩
    exact (ok id).proceeds (termed.hosts id) (fun m arrived => termed.net m arrived.1) proceeds

/-- In every run, hosts keep their promises. -/
theorem promises_run (σ : Setup) (events : List Event) : Promises σ events := by
  induction events using List.reverseRecOn with
  | nil =>
      intro n
      have message : ∀ {m}, Given σ [] n m
          → m = σ.boot.host.storage.hardState.ballot.message n := by
        rintro m (⟨member, _⟩ | ⟨before, inside, rfl⟩)
        · cases member
        · rw [List.prefix_nil.mp inside]
          rfl
      exact {
        honoured := by
          intro m given _
          rw [message given]
          exact Ballot.honours_message _ _
        cast := .inr ⟨[], List.prefix_rfl, rfl⟩
        once := by
          intro m m' t a b given given' grants grants'
          rw [message given] at grants
          rw [message given'] at grants'
          exact grants.toId.symm.trans grants'.toId
        revert := List.forall_mem_nil _
        down := fun _ => rfl
        up := by
          intro rn up
          cases (show none = some rn from up) }
  | append_singleton events e ok =>
      have longer : events <+: events ++ [e] := List.prefix_append events [e]
      intro n
      rcases ok.step_cases e with ⟨hosts, net⟩ | ⟨id, out, h', after, _, upholds⟩
      · have given : Given σ (events ++ [e]) n = Given σ events n := by
          funext m
          refine propext ⟨?_, fun before => before.mono longer⟩
          rintro (⟨member, pledge⟩ | ⟨before, inside, rfl⟩)
          · exact .inl ⟨net ▸ member, pledge⟩
          · rcases prefix_snoc inside with inside | rfl
            · exact .inr ⟨before, inside, rfl⟩
            · rw [hosts]
              exact (ok n).cast
        rw [given, hosts]
        exact ok n
      · rw [given_step ok after upholds n, after]
        by_cases here : n = id
        · rw [if_pos here, here, after_hosts_self]
          exact upholds.bound
        · rw [if_neg here, after_hosts_other _ here]
          exact ok n

end Cluster

end EtcdRaft
