import EtcdRaft.Refinement.Sends

/-! What it means that a function of the node consists of small actions, and the rules to
show it. A panic that reports a corrupt log, or an access out of its range, comes from a
call at a state that the small actions reach.
-/

namespace EtcdRaft

variable [Codec] {now : Nat} {m : Message} {c c' : Core}

/-- The entries as the leader `c` stamps them. -/
def Core.stamped (c : Core) (es : List Entry) : List Entry :=
  es.mapIdx fun i e => { e with term := c.term, index := c.raftLog.lastIndex + 1 + i }

/-- The node after it has appended entries and acknowledged them to itself. -/
def Core.appended (c : Core) (raftLog : RaftLog) : Core :=
  { c with raftLog := raftLog }.answer ({ c with raftLog := raftLog }.ack c.id raftLog.lastIndex)

/-- The configuration changes among the entries `es` that the leader `c` proposes, `first`
places after the end of its log: none, or one while none is pending; without validation
there may be more, and if more is applied than the log holds, nothing is known. `index`
becomes the index of the pending change.
-/
inductive Proposal (c : Core) (first : Nat) (es : List Entry) (index : Nat) : Prop where
  | plain (normal : ∀ e ∈ es, e.isConfChange = false) (same : index = c.pendingConfIndex)
  | change (settled : c.pendingConfIndex ≤ c.raftLog.applied) (position : Nat)
      (one : ∀ j e, es[j]? = some e → e.isConfChange = true → j = position)
      (pending : index = c.raftLog.lastIndex + first + position + 1)
  | unchecked (off : c.validation = false)
      (last : ∀ j e, es[j]? = some e → e.isConfChange = true
        → c.raftLog.lastIndex + first + j + 1 ≤ index)
      (beyond : index = c.pendingConfIndex ∨ c.raftLog.lastIndex + first < index)
  | absurd (ahead : c.raftLog.lastIndex < c.raftLog.applied)

/-- A leader appends entries and acknowledges them to itself. A configuration change among
them comes from the message, or leaves a joint configuration by itself.
-/
inductive Appends (m : Message) (c : Core) : Core → Prop where
  | mk (leads : c.state = .stateLeader) (es : List Entry) (nonempty : es ≠ []) (index : Nat)
      (proposal : Proposal c 0 es index)
      (source : ∀ e ∈ es, e.isConfChange = true
        → (∃ e' ∈ m.entries, e'.isConfChange = true) ∨ c.config.autoLeave = true)
      (raftLog : RaftLog) (appends : c.raftLog.append (c.stamped es) = .ok raftLog)
    : Appends m c ({ c with pendingConfIndex := index }.appended raftLog)

/-- The calls that can report a corrupt log or leave its range. -/
inductive Corrupt (m : Message) (c : Core) (p : Panic) : Prop where
  | accept (type : m.type = .msgApp) (follower : c.state = .stateFollower)
      (term : m.term = c.term) (above : c.raftLog.committed ≤ m.index)
      (fails : c.raftLog.maybeAppend (Raft.logSliceFromMsgApp m) m.commit = .error p)
  | heartbeat (type : m.type = .msgHeartbeat) (follower : c.state = .stateFollower)
      (term : m.term = c.term) (fails : c.raftLog.commitTo m.commit = .error p)
  | fastForward (type : m.type = .msgSnap) (follower : c.state = .stateFollower)
      (term : m.term = c.term) (newer : c.raftLog.committed < m.snap.metadata.index)
      (holds : c.raftLog.matchTerm m.snap.id = true)
      (fails : c.raftLog.commitTo m.snap.metadata.index = .error p)
  | commit (leads : c.state = .stateLeader)
      (fails : c.raftLog.maybeCommit { term := c.term, index := c.committedIndex } = .error p)
  | append (leads : c.state = .stateLeader) (es : List Entry)
      (fails : c.raftLog.append (c.stamped es) = .error p)
  | read (misread : c.raftLog.Misread p)
  | readAppended (c' : Core) (appends : Appends m c c') (misread : c'.raftLog.Misread p)
  | stored (type : m.type = .msgStorageAppendResp) (current : Bool)
      (fails : c.raftLog.stored current m = .error p)
  | applied (type : m.type = .msgStorageApplyResp) (e : Entry) (last : m.entries.getLast? = some e)
      (size : Nat)
      (fails : c.raftLog.appliedTo (max e.index c.raftLog.applied) size = .error p)

/-- A panic that is benign, or comes from one of those calls. -/
def Fails (now : Nat) (m : Message) (c : Core) (p : Panic) : Prop :=
  (p.corrupt || p.outOfRange || p.overrun) = true → ∃ c', Acts now m c c' ∧ Corrupt m c' p

theorem Fails.of_benign {p : Panic} (benign : Benign p) : Fails now m c p := by
  intro tracked
  rw [benign] at tracked
  cases tracked

theorem Fails.of_corrupt {p : Panic} (corrupt : Corrupt m c p) : Fails now m c p :=
  fun _ => ⟨c, .refl, corrupt⟩

theorem Fails.of_stops {p : Panic} {r : Raft} (stops : r.raftLog.Stops p) : Fails now m r.core p :=
  stops.elim .of_benign fun misread => .of_corrupt (.read misread)

theorem Fails.after {p : Panic} (acts : Acts now m c c') (fails : Fails now m c' p)
    : Fails now m c p := by
  intro corrupt
  obtain ⟨c'', acts', bad⟩ := fails corrupt
  exact ⟨c'', acts.trans acts', bad⟩

-----------------------------------------------------------------------------------------
-- Sequences of actions
-----------------------------------------------------------------------------------------

/-- The call leads from `c` to the node it returns, where `post` holds. -/
def Reaches {α : Type} (now : Nat) (m : Message) (c : Core) (x : Result α) (node : α → Core)
    (post : α → Prop) : Prop :=
  Ends x (fun a => Acts now m c (node a) ∧ post a) (Fails now m c)

namespace Reaches

variable {α β : Type} {x : Result α} {f : α → Result β} {node : α → Core}
  {node' : β → Core}
  {post : α → Prop} {post' : β → Prop}

theorem bind (hx : Reaches now m c x node post)
    (hf : ∀ a, post a → Reaches now m (node a) (f a) node' post')
    : Reaches now m c (x >>= f) node' post' := by
  refine Ends.bind hx ?_
  rintro a ⟨acts, known⟩
  exact (hf a known).mono (fun b ⟨acts', known'⟩ => ⟨acts.trans acts', known'⟩)
    fun _ fails => fails.after acts

theorem mono {node' : α → Core} {post' : α → Prop} (hx : Reaches now m c x node post)
    (same : ∀ a, post a → node' a = node a ∧ post' a)
    : Reaches now m c x node' post' := by
  refine Ends.mono hx ?_ fun _ fails => fails
  rintro a ⟨acts, known⟩
  obtain ⟨eq, known'⟩ := same a known
  exact ⟨eq ▸ acts, known'⟩

/-- A call without effect on the core, whose failures are benign. -/
theorem of_benign (hx : Ends x (fun a => node a = c ∧ post a) Benign)
    : Reaches now m c x node post := by
  refine hx.mono ?_ fun _ => .of_benign
  rintro a ⟨same, known⟩
  exact ⟨same ▸ .refl, known⟩

theorem of_act (hx : Ends x (fun a => Act now m c (node a) ∧ post a) Benign)
    : Reaches now m c x node post := by
  refine hx.mono ?_ fun _ => .of_benign
  rintro a ⟨act, known⟩
  exact ⟨.single act, known⟩

theorem after (acts : Acts now m c c') (hx : Reaches now m c' x node post)
    : Reaches now m c x node post :=
  Ends.mono hx (fun _ ⟨acts', known⟩ => ⟨acts.trans acts', known⟩) fun _ fails => fails.after acts

theorem of_sends {r : Raft} {node : α → Raft} (hx : OnlySends m r x node)
    : Reaches now m r.core x (fun a => (node a).core) fun a => Sends m r.core (node a).core :=
  Ends.mono hx (fun _ sends => ⟨sends.acts, sends⟩) fun _ => .of_stops

end Reaches

-----------------------------------------------------------------------------------------
-- Steps that end with entries of the leader
-----------------------------------------------------------------------------------------

/-- A sequence of actions; entries that the leader appends come last, and only messages
are sent after them.
-/
def Steps (now : Nat) (m : Message) (c c' : Core) : Prop :=
  ∃ c1, Acts now m c c1 ∧ (c' = c1 ∨ ∃ c2, Appends m c1 c2 ∧ Sends m c2 c')

theorem Steps.of_acts (acts : Acts now m c c') : Steps now m c c' := ⟨c', acts, .inl rfl⟩

def Finishes {α : Type} (now : Nat) (m : Message) (c : Core) (x : Result α) (node : α → Core)
    : Prop :=
  Ends x (fun a => Steps now m c (node a)) (Fails now m c)

namespace Reaches

variable {α β : Type} {x : Result α} {f : α → Result β} {node : α → Core}
  {node' : β → Core}
  {post : α → Prop}

theorem finish (hx : Reaches now m c x node post)
    (hf : ∀ a, post a → Finishes now m (node a) (f a) node')
    : Finishes now m c (x >>= f) node' := by
  refine Ends.bind hx ?_
  rintro a ⟨acts, known⟩
  refine (hf a known).mono ?_ fun _ fails => fails.after acts
  rintro b ⟨c1, acts', rest⟩
  exact ⟨c1, acts.trans acts', rest⟩

theorem finishes (hx : Reaches now m c x node post) : Finishes now m c x node :=
  Ends.mono hx (fun _ ⟨acts, _⟩ => .of_acts acts) fun _ fails => fails

end Reaches

theorem Finishes.after {α : Type} {x : Result α} {node : α → Core}
    (acts : Acts now m c c') (hx : Finishes now m c' x node)
    : Finishes now m c x node :=
  Ends.mono hx (fun _ ⟨c1, acts', rest⟩ => ⟨c1, acts.trans acts', rest⟩)
    fun _ fails => fails.after acts

/-- A pure computation at the end. -/
theorem Finishes.map {α β : Type} {x : Result α} {node : α → Core} {node' : β → Core}
    {f : α → β} (hx : Finishes now m c x node) (same : ∀ a, node' (f a) = node a)
    : Finishes now m c (x >>= fun a => pure (f a)) node' := by
  refine Ends.bind hx fun a steps => ?_
  have steps : Steps now m c (node' (f a)) := (same a).symm ▸ steps
  exact steps

/-- Once the leader has appended entries, it only sends messages. -/
theorem Finishes.of_appends {α : Type} {r : Raft} {x : Result α} {node : α → Raft}
    (acts : Acts now m c c') (appends : Appends m c' r.core) (rest : OnlySends m r x node)
    : Finishes now m c x fun a => (node a).core :=
  Ends.mono rest (fun _ sends => ⟨c', acts, .inr ⟨r.core, appends, sends⟩⟩)
    fun _ stops => stops.elim .of_benign fun misread =>
      .after acts (.of_corrupt (.readAppended r.core appends misread))

end EtcdRaft
