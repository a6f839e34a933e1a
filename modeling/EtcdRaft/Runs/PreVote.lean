import EtcdRaft.Membership.Quorums
import EtcdRaft.Runs.Attribution
import EtcdRaft.Runs.Polling

/-! Pre-campaigns in the runs of a cluster. A grant that answers an earlier pre-campaign
of the node is counted if its term is the node's own by now; without such grants, a quorum
has granted the pre-campaign that succeeds.
-/

namespace EtcdRaft

section

variable [Codec] {now : Nat} {m : Message}

-----------------------------------------------------------------------------------------
-- Whose grants a host counts
-----------------------------------------------------------------------------------------

/-- Every voter that the pre-candidate counts has granted its pre-vote: `granted id term`
says that `id` has done so for the given term.
-/
def Raft.Counts (granted : Nat → Nat → Prop) (r : Raft) : Prop :=
  r.state = .statePreCandidate
    → r.preVote = true ∧ ∀ id, r.trk.votes.get? id = some true → granted id (r.term + 1)

/-- If the pre-candidate `r` becomes a candidate of the next term, a quorum has granted
it.
-/
def Raft.Elects (granted : Nat → Nat → Prop) (r r' : Raft) : Prop :=
  r.state = .statePreCandidate → r'.state = .stateCandidate → r'.term = r.term + 1
    → ∃ votes, r.trk.config.voters.voteResult votes = .voteWon
      ∧ ∀ id, votes.get? id = some true → granted id (r.term + 1)

/-- A grant that reaches the pre-candidate `r` and is counted is one for its next term. -/
def Raft.Admits (granted : Nat → Nat → Prop) (r : Raft) (m : Message) : Prop :=
  r.state = .statePreCandidate → m.IsGrant → m.term = 0 ∨ r.term ≤ m.term
    → granted m.fromId (r.term + 1)

namespace Raft

variable {granted : Nat → Nat → Prop} {r r' : Raft}

omit [Codec] in
theorem Counts.congr (counts : r.Counts granted) (same : r.core.SameCampaign r'.core)
    : r'.Counts granted := by
  have state : r'.state = r.state := same.state
  have term : r'.term = r.term := same.term
  have votes : r'.trk.votes = r.trk.votes := same.votes
  have preVote : r'.preVote = r.preVote := same.preVote
  unfold Counts
  rw [state, term, votes, preVote]
  exact counts

omit [Codec] in
theorem Elects.of_state (other : r'.state ≠ .stateCandidate) : Elects granted r r' :=
  fun _ candidate => absurd candidate other

omit [Codec] in
theorem Elects.of_same (same : r'.state = r.state) : Elects granted r r' := by
  intro polling candidate
  rw [same, polling] at candidate
  cases candidate

omit [Codec] in
theorem Counts.of_polled {c : Core} (counts : r.Counts granted)
    (admits : r.Admits granted m)
    (polled : Polled m c r'.core) (state : c.state = r.state) (term : c.term = r.term)
    (votes : c.votes = r.trk.votes) (preVote : c.preVote = r.preVote)
    : r'.Counts granted := by
  intro polling
  refine ⟨?_, fun id yes => ?_⟩
  · rcases polled.enabled polling with before | enabled
    · exact (polled.preVote.trans preVote).trans (counts (state ▸ before)).1
    · exact enabled
  · obtain ⟨before, same, backs⟩ := polled.counted polling id yes
    have same : r'.term = r.term := same.trans term
    have before : r.state = .statePreCandidate := state ▸ before
    unfold Core.Backs at backs
    rw [votes, term] at backs
    rw [same]
    rcases backs with old | ⟨sender, grant, reached⟩
    · exact (counts before).2 id old
    · rw [sender]
      exact admits before grant reached

/-- A node that handles a message which it admits. -/
theorem Counts.step (counts : r.Counts granted) (admits : r.Admits granted m)
    (steps : Steps now m r.core r'.core)
    : r'.Counts granted ∧ r.Elects granted r' := by
  refine ⟨counts.of_polled admits steps.polled rfl rfl rfl rfl, ?_⟩
  intro polling candidate term
  obtain ⟨enabled, votes⟩ := counts polling
  by_cases type : m.type = .msgHup
  · obtain ⟨c1, acts, same⟩ := steps.exists_acts
    have before : r.core.state ≠ .stateCandidate := by
      show r.state ≠ _
      rw [polling]
      nofun
    exact absurd (same.state.symm.trans candidate) (Acts.not_candidate acts type enabled before)
  · have start : Phase m (granted · (r.term + 1)) r.core r.core := .polling polling rfl rfl votes
    exact (start.steps steps type (admits polling)).of_candidate candidate term

end Raft

omit [Codec] in
theorem Message.IsOwn.type_ne (own : m.IsOwn)
    : m.type ≠ .msgHup ∧ m.type ≠ .msgTimeoutNow := by
  rcases own with waiting | append | apply
  · have type := waiting.type
    refine ⟨?_, ?_⟩ <;> rintro same <;> rw [same] at type <;> cases type
  · rw [append.type]
    exact ⟨nofun, nofun⟩
  · rw [apply.type]
    exact ⟨nofun, nofun⟩

namespace Host

variable {σ : Setup} {id : Nat} {arrives : Message → Prop} {h h' : Host}
  {granted : Nat → Nat → Prop}

/-- The node of the host, if it runs, counts grants for its next term only. -/
def Counts (granted : Nat → Nat → Prop) (h : Host) : Prop :=
  ∀ rn, h.node = some rn → rn.raft.Counts granted

/-- The host `h'` follows `h`, and its node becomes a candidate with a quorum only. -/
def Elects (granted : Nat → Nat → Prop) (h h' : Host) : Prop :=
  ∀ rn rn', h.node = some rn → h'.node = some rn' → rn.raft.Elects granted rn'.raft

omit [Codec] in
theorem elects_of_node (same : h'.node = h.node) : h.Elects granted h' := by
  intro rn rn' node node'
  rw [same, node] at node'
  cases node'
  exact .of_same rfl

omit [Codec] in
theorem Counts.of_node (counts : h.Counts granted) (same : h'.node = h.node)
    : h'.Counts granted ∧ h.Elects granted h' :=
  ⟨fun rn node => counts rn (same ▸ node), elects_of_node same⟩

omit [Codec] in
theorem Counts.of_down (down : h'.node = none)
    : h'.Counts granted ∧ h.Elects granted h' := by
  refine ⟨?_, ?_⟩
  · intro rn node
    rw [down] at node
    cases node
  · intro rn rn' _ node
    rw [down] at node
    cases node

omit [Codec] in
/-- Another node of which the same is known. -/
theorem Counts.withNode {rn rn' : RawNode} (node : h.node = some rn)
    (node' : h'.node = some rn')
    (counts : rn'.raft.Counts granted ∧ rn.raft.Elects granted rn'.raft)
    : h'.Counts granted ∧ h.Elects granted h' := by
  refine ⟨?_, ?_⟩
  · intro rn1 up
    rw [node'] at up
    cases up
    exact counts.1
  · intro rn1 rn1' up up'
    rw [node] at up
    rw [node'] at up'
    cases up
    cases up'
    exact counts.2

omit [Codec] in
/-- Another node whose campaign is the same. -/
theorem Counts.withSame {rn rn' : RawNode} (counts : h.Counts granted)
    (node : h.node = some rn)
    (node' : h'.node = some rn') (same : rn.raft.core.SameCampaign rn'.raft.core)
    : h'.Counts granted ∧ h.Elects granted h' :=
  Counts.withNode node node' ⟨(counts rn node).congr same, .of_same same.state⟩

omit [Codec] in
/-- Only a message of the network can be a grant. -/
theorem Source.admits (source : Source σ now arrives h m h') (termed : h.Termed)
    {r : Raft} (admits : ∀ sent, arrives sent → r.Admits granted sent)
    : r.Admits granted m ∧ h'.node = h.node := by
  have other : ∀ {m : Message}, m.type ≠ .msgPreVoteResp → r.Admits granted m :=
    fun other _ grant => absurd grant.1 other
  cases source with
  | @network sent arrived =>
      refine ⟨?_, rfl⟩
      unfold Message.receivedAt
      split
      · rename_i type
        exact other (by show sent.type ≠ _; rw [type]; nofun)
      · exact admits sent arrived
  | call call =>
      refine ⟨other fun same => ?_, rfl⟩
      have type := call.type
      rw [same] at type
      cases type
  | appended queued =>
      have first := termed.appended m (by rw [queued]; exact List.mem_cons_self)
      exact ⟨other (by rw [first.type]; nofun), rfl⟩
  | applied queued =>
      have first := termed.applied m (by rw [queued]; exact List.mem_cons_self)
      exact ⟨other (by rw [first.type]; nofun), rfl⟩

omit [Codec] in
theorem installed_node (h : Host) (snapshot : Option Snapshot)
    : (h.installed snapshot).node = h.node := by
  unfold installed
  split
  · rfl
  · split <;> rfl

/-- One transition of a host that is handed only grants it admits. -/
theorem Counts.moves {out : Output} (counts : h.Counts granted) (termed : h.Termed)
    (network : ∀ m, arrives m → m.Public) (moves : Moves σ id now arrives h out h')
    (admits : ∀ rn m, h.node = some rn → arrives m → rn.raft.Admits granted m)
    : h'.Counts granted ∧ h.Elects granted h' := by
  cases moves with
  | handle handles =>
      obtain @⟨_, _, rn, r, err, source, node, steps⟩ := handles
      obtain ⟨_, sound⟩ := termed.source source network
      have up : h.node = some rn := by
        cases source <;> exact node
      obtain ⟨admitted, _⟩ := source.admits termed fun m arrived => admits rn m up arrived
      obtain ⟨now', steps⟩ := Raft.exists_steps sound steps
      exact Counts.withNode up rfl ((counts rn up).step admitted steps)
  | refuse source refused => exact counts.of_node (by cases source <;> rfl)
  | fail failure => exact Counts.of_down rfl
  | start down known starts =>
      obtain ⟨started, _⟩ := (ends_newRawNode _).result starts
      refine ⟨?_, ?_⟩
      · rintro _ ⟨⟩ polling
        rw [started.state] at polling
        cases polling
      · intro rn rn' up
        rw [down] at up
        cases up
  | crash k =>
      refine Counts.of_down ?_
      unfold Host.crash
      dsimp only
      split <;> rfl
  | tick node ticks =>
      refine Counts.withNode node rfl ((counts _ node).step ?_ (.of_acts (Raft.acts_tick ticks)))
      exact fun _ grant => absurd grant.1 nofun
  | @readySync rn rn' rd node free sync taken =>
      refine counts.withSame node rfl ?_
      cases rn.ends_ready.result taken <;> exact ⟨rfl, rfl, rfl, rfl, rfl⟩
  | @readyAsync rn rn' rd node free async taken =>
      refine counts.withSame node rfl ?_
      cases rn.ends_ready.result taken <;> exact ⟨rfl, rfl, rfl, rfl, rfl⟩
  | persist node queued stored =>
      exact counts.withSame node (installed_node _ _) ⟨rfl, rfl, rfl, rfl, rfl⟩
  | skip node queued old => exact counts.of_node rfl
  | apply node queued new normal => exact counts.of_node rfl
  | @applyConfChange rn r cs e entries response rest cc node queued new decoded applied =>
      have none : rn.raft.Admits granted { type := .msgHup } :=
        fun _ grant => absurd grant.1 nofun
      obtain ⟨cfg, progress, _, acts⟩ := Raft.acts_applyConfChange applied
      refine Counts.withNode node rfl
        ⟨(counts rn node).of_polled none (Acts.polled acts) rfl rfl rfl rfl, ?_⟩
      intro polling candidate
      obtain ⟨enabled, _⟩ := counts rn node polling
      refine absurd candidate (Acts.not_candidate acts rfl enabled ?_)
      show rn.raft.state ≠ _
      rw [polling]
      nofun
  | finish node queued => exact counts.of_node rfl
  | createSnapshot node => exact counts.withSame node rfl ⟨rfl, rfl, rfl, rfl, rfl⟩
  | compact node => exact counts.withSame node rfl ⟨rfl, rfl, rfl, rfl, rfl⟩

/-- What is known during `Advance`, compared with the node `rn` that it started with. -/
structure Advancing (granted : Nat → Nat → Prop) (rn rn' : RawNode) : Prop where
  steps : ∀ m ∈ rn'.stepsOnAdvance, m ∈ rn.stepsOnAdvance
  counts : rn'.raft.Counts granted
  entered : rn'.raft.state = .statePreCandidate
    → rn.raft.state = .statePreCandidate ∧ rn'.raft.term = rn.raft.term
  phase : rn.raft.state = .statePreCandidate
    → Phase { type := .msgHup } (granted · (rn.raft.term + 1)) rn.raft.core rn'.raft.core

theorem Advancing.step {rn rn' : RawNode} {r : Raft} {rest : List Message}
    (advancing : Advancing granted rn rn')
    (admits : ∀ m ∈ rn.stepsOnAdvance, rn.raft.Admits granted m)
    (queued : rn'.stepsOnAdvance = m :: rest) (own : m.IsOwn)
    (steps : Steps now m rn'.raft.core r.core)
    : Advancing granted rn { rn' with raft := r, stepsOnAdvance := rest } := by
  have inside := advancing.steps
  rw [queued] at inside
  obtain ⟨first, rest⟩ := List.forall_mem_cons.mp inside
  obtain ⟨notHup, notTimeout⟩ := own.type_ne
  have admitted : rn'.raft.Admits granted m := by
    intro polling
    obtain ⟨before, term⟩ := advancing.entered polling
    rw [term]
    exact admits m first before
  refine ⟨rest, (advancing.counts.step admitted steps).1, fun polling => ?_, fun polling => ?_⟩
  · obtain ⟨before, term⟩ := (steps.polled.entered polling).resolve_left notHup
    obtain ⟨start, same⟩ := advancing.entered before
    exact ⟨start, term.trans same⟩
  · have phase := (advancing.phase polling).withMessage notTimeout
    exact (phase.steps steps notHup (admits m first polling)).withMessage nofun

/-- `Advance` of a node that steps only grants it admits. -/
theorem Counts.advance {rn : RawNode} (counts : h.Counts granted) (termed : h.Termed)
    (node : h.node = some rn) (admits : ∀ m ∈ rn.stepsOnAdvance, rn.raft.Admits granted m)
    (steps : Relation.ReflTransGen (Handles Own) h.released h')
    : h'.Counts granted ∧ h.Elects granted h' := by
  have advancing : h'.Termed ∧ ∃ rn', h'.node = some rn' ∧ Advancing granted rn rn' := by
    induction steps with
    | refl =>
        refine ⟨{ termed with }, rn, node, fun _ member => member, counts rn node,
          fun polling => ⟨polling, rfl⟩, fun polling => ?_⟩
        exact .polling polling rfl rfl (counts rn node polling).2
    | tail _ handles ih =>
        obtain ⟨termed, rn1, node1, advancing⟩ := ih
        refine ⟨handles.termed termed.takeOwn, ?_⟩
        obtain @⟨m, _, _, r, err, source, node2, stepped⟩ := handles
        obtain ⟨_, sound⟩ := termed.takeOwn source
        obtain @⟨_, rest, up, queued, released⟩ := source
        rw [node1] at up
        cases up
        cases node2
        obtain ⟨now, stepped⟩ := Raft.exists_steps sound stepped
        have own := termed.own rn1 node1 m (by rw [queued]; exact List.mem_cons_self)
        exact ⟨_, rfl, advancing.step admits queued own stepped⟩
  obtain ⟨_, rn', node', advancing⟩ := advancing
  refine Counts.withNode node node' ⟨advancing.counts, ?_⟩
  intro polling candidate term
  exact (advancing.phase polling).of_candidate candidate term

theorem Counts.once {out : Output} (counts : h.Counts granted) (termed : h.Termed)
    (network : ∀ m, arrives m → m.Public) (once : Once σ id now arrives h out h')
    (admits : ∀ rn m, h.node = some rn → arrives m → rn.raft.Admits granted m)
    : h'.Counts granted ∧ h.Elects granted h' := by
  cases once with
  | idle => exact counts.of_node rfl
  | one moves => exact counts.moves termed network moves admits

theorem Counts.proceeds {out : Output} (counts : h.Counts granted) (termed : h.Termed)
    (proceeds : Proceeds σ id now (fun _ => False) h out h')
    (admits : ∀ rn m, h.node = some rn → m ∈ rn.stepsOnAdvance → rn.raft.Admits granted m)
    : h'.Counts granted ∧ h.Elects granted h' := by
  cases proceeds with
  | once once =>
      exact counts.once termed (fun _ => False.elim) once fun _ _ _ => False.elim
  | advance steps =>
      cases node : h.node with
      | some rn => exact counts.advance termed node (admits rn · node) steps
      | none =>
          obtain rfl | ⟨_, handles, _⟩ := Relation.ReflTransGen.cases_head steps
          · exact counts.of_node rfl
          · obtain ⟨⟨up, _, _⟩, _, _⟩ := handles
            cases node.symm.trans up
  | advanceFails steps fails => exact Counts.of_down rfl

end Host

-----------------------------------------------------------------------------------------
-- Clusters
-----------------------------------------------------------------------------------------

namespace Cluster

/-- The voter `id` has sent `n` a grant for `term`, or the node `n` itself holds such a
grant of its own.
-/
def Granted (σ : Setup) (events : List Event) (n id term : Nat) : Prop :=
  ∃ m : Message, m.IsGrant ∧ m.fromId = id ∧ m.toId = n ∧ m.term = term
    ∧ (SentBy σ events id m
      ∨ id = n ∧ ∃ before rn, before <+: events ∧ ((run σ before).hosts n).node = some rn
        ∧ m ∈ rn.stepsOnAdvance)

/-- A grant that reaches the pre-candidate `r` carries its next term, or one before its
own.
-/
def isFresh (r : Raft) (m : Message) : Bool :=
  !(r.state == .statePreCandidate && m.type == .msgPreVoteResp && !m.reject)
    || m.term == r.term + 1 || decide (m.term < r.term)

/-- No pre-candidate is handed a grant of another pre-campaign in this event. -/
def freshGrants (c : Cluster) : Event → Bool
  | .deliver k => c.net[k]?.all fun m => (c.hosts m.toId).node.all fun rn => isFresh rn.raft m
  | .host id .advance =>
      (c.hosts id).node.all fun rn => rn.stepsOnAdvance.all fun m => isFresh rn.raft m
  | .host _ _ => true

/-- A run in which no pre-candidate is handed a grant of another pre-campaign. -/
def FreshRun (σ : Setup) (events : List Event) : Prop :=
  ∀ i (inside : i < events.length), (run σ (events.take i)).freshGrants events[i] = true

variable {σ : Setup} {events more : List Event}

theorem freshRun_append {e : Event}
    : FreshRun σ (events ++ [e])
      ↔ FreshRun σ events ∧ (run σ events).freshGrants e = true := by
  constructor
  · intro fresh
    refine ⟨fun i inside => ?_, ?_⟩
    · have here := fresh i (by rw [List.length_append]; omega)
      rw [List.take_append_of_le_length (Nat.le_of_lt inside), List.getElem_append_left inside]
        at here
      exact here
    · have here := fresh events.length (by simp)
      rw [List.take_left, List.getElem_concat_length rfl] at here
      exact here
  · rintro ⟨fresh, last⟩ i inside
    rw [List.length_append, List.length_singleton] at inside
    by_cases earlier : i < events.length
    · rw [List.take_append_of_le_length (Nat.le_of_lt earlier), List.getElem_append_left earlier]
      exact fresh i earlier
    · obtain rfl : i = events.length := by omega
      rw [List.take_left, List.getElem_concat_length rfl]
      exact last

theorem Granted.mono {n id term : Nat} (granted : Granted σ events n id term)
    (longer : events <+: more)
    : Granted σ more n id term := by
  obtain ⟨m, grant, fromId, toId, sameTerm, evidence⟩ := granted
  refine ⟨m, grant, fromId, toId, sameTerm, evidence.imp (·.mono longer) ?_⟩
  rintro ⟨own, before, rn, inside, holds⟩
  exact ⟨own, before, rn, inside.trans longer, holds⟩

omit [Codec] in
theorem of_isFresh {r : Raft} (fresh : isFresh r m = true)
    (polling : r.state = .statePreCandidate)
    (grant : m.IsGrant) (term : m.term ≠ 0) (reached : m.term = 0 ∨ r.term ≤ m.term)
    : m.term = r.term + 1 := by
  have counted : (r.state == .statePreCandidate && m.type == .msgPreVoteResp && !m.reject)
      = true := by
    simp [polling, grant.1, grant.2]
  unfold isFresh at fresh
  rw [counted] at fresh
  simp only [Bool.not_true, Bool.false_or, Bool.or_eq_true, beq_iff_eq, decide_eq_true_eq] at fresh
  omega

/-- A fresh grant of the network is one for the next term. -/
theorem admits_deliver {k : Nat} {rn : RawNode} (found : (run σ events).net[k]? = some m)
    (fresh : (run σ events).freshGrants (.deliver k) = true)
    (node : ((run σ events).hosts m.toId).node = some rn)
    : rn.raft.Admits (Granted σ (events ++ [.deliver k]) m.toId) m := by
  intro polling grant reached
  obtain ⟨term, sent⟩ :=
    (attributed_run σ events).net m (List.mem_of_getElem? found) grant.1
  simp only [freshGrants, found, node, Option.all_some] at fresh
  exact ⟨m, grant, rfl, rfl, of_isFresh fresh polling grant term reached,
    .inl (sent.mono (List.prefix_append _ _))⟩

/-- A fresh grant of its own that the node steps on `Advance` is one for the next term. -/
theorem admits_advance {n : Nat} {rn : RawNode}
    (fresh : (run σ events).freshGrants (.host n .advance) = true)
    (node : ((run σ events).hosts n).node = some rn) (member : m ∈ rn.stepsOnAdvance)
    : rn.raft.Admits (Granted σ (events ++ [.host n .advance]) n) m := by
  intro polling grant reached
  obtain ⟨own, toId⟩ := ((attributed_run σ events).hosts n).own rn node m member
  obtain ⟨fromId, term⟩ := own grant.1
  simp only [freshGrants, node, Option.all_some, List.all_eq_true] at fresh
  exact ⟨m, grant, rfl, toId grant.1, of_isFresh (fresh m member) polling grant term reached,
    .inr ⟨fromId, events, rn, List.prefix_append _ _, node, member⟩⟩

/-- One event in which no pre-candidate is handed a grant of another pre-campaign. -/
theorem counts_step {e : Event} (fresh : (run σ events).freshGrants e = true)
    (counts : ∀ n, ((run σ events).hosts n).Counts (Granted σ events n)) (n : Nat)
    : ((run σ (events ++ [e])).hosts n).Counts (Granted σ (events ++ [e]) n)
      ∧ ((run σ events).hosts n).Elects (Granted σ (events ++ [e]) n)
        ((run σ (events ++ [e])).hosts n) := by
  have counts : ((run σ events).hosts n).Counts (Granted σ (events ++ [e]) n) := by
    intro rn node polling
    obtain ⟨enabled, votes⟩ := counts n rn node polling
    exact ⟨enabled, fun id yes => (votes id yes).mono (List.prefix_append _ _)⟩
  have termed := (termed_run σ events).hosts n
  rw [run_append]
  cases e with
  | host id e =>
      unfold step
      by_cases here : n = id
      · subst here
        rw [after_hosts_self]
        by_cases advance : e = .advance
        · subst advance
          exact counts.proceeds termed (Host.proceeds .advance) fun rn m node member =>
            admits_advance fresh node member
        · exact counts.once termed (fun _ => False.elim) (Host.once advance)
            fun _ _ _ => False.elim
      · rw [after_hosts_other _ here]
        exact counts.of_node rfl
  | deliver k =>
      unfold step
      dsimp only
      cases found : (run σ events).net[k]? with
      | none => exact counts.of_node rfl
      | some m =>
          dsimp only
          by_cases here : n = m.toId
          · subst here
            rw [after_hosts_self]
            have isPublic := (termed_run σ events).net m (List.mem_of_getElem? found)
            have received := @Host.once_receive _ σ m.toId (run σ events).time (· = m)
              ((run σ events).hosts m.toId) m rfl
            refine counts.once termed (by rintro _ rfl; exact isPublic) received ?_
            rintro rn _ node rfl
            exact admits_deliver found fresh node
          · rw [after_hosts_other _ here]
            exact counts.of_node rfl

/-- A run in which no pre-candidate is handed a grant of another pre-campaign. -/
theorem counts_run (fresh : FreshRun σ events) (n : Nat)
    : ((run σ events).hosts n).Counts (Granted σ events n) := by
  induction events using List.reverseRecOn generalizing n with
  | nil => exact (Host.Counts.of_down (h := (initial σ).hosts n) rfl).1
  | append_singleton events e ih =>
      obtain ⟨before, last⟩ := freshRun_append.mp fresh
      exact (counts_step last (ih before) n).1

/-- If no pre-candidate is ever handed a grant of another pre-campaign, a pre-candidate
moves on to the election with the grants of a quorum for its next term.
-/
theorem campaign_granted {e : Event} {n : Nat} {rn rn' : RawNode}
    (fresh : FreshRun σ (events ++ [e]))
    (before : ((run σ events).hosts n).node = some rn)
    (polling : rn.raft.state = .statePreCandidate)
    (after : ((run σ (events ++ [e])).hosts n).node = some rn')
    (candidate : rn'.raft.state = .stateCandidate)
    (term : rn'.raft.term = rn.raft.term + 1)
    : ∃ votes, rn.raft.trk.config.voters.voteResult votes = .voteWon
      ∧ ∀ id, votes.get? id = some true
        → Granted σ (events ++ [e]) n id (rn.raft.term + 1) := by
  obtain ⟨earlier, last⟩ := freshRun_append.mp fresh
  exact (counts_step last (counts_run earlier) n).2 rn rn' before after polling candidate term

instance (σ : Setup) (events : List Event) : Decidable (Cluster.FreshRun σ events) := by
  unfold Cluster.FreshRun
  infer_instance

end Cluster

end

-----------------------------------------------------------------------------------------
-- A grant that is counted too late
-----------------------------------------------------------------------------------------

attribute [local instance] Codec.wire

def threeVoters : Setup where
  boot := { confState := { voters := [1, 2, 3] } }

def preVoteConfig : Config where
  id := 1
  electionTick := 10
  heartbeatTick := 1
  storage := {}
  maxSizePerMsg := 1000
  maxInflightMsgs := 256
  preVote := true

/-- Node 1 polls in term 0, nodes 2 and 3 grant their pre-votes. -/
def firstPoll : List Event :=
  [.host 1 (.start preVoteConfig), .host 2 (.start preVoteConfig), .host 3 (.start preVoteConfig),
    .host 1 .campaign, .host 1 .ready, .host 1 .persist, .deliver 0, .deliver 1, .host 2 .ready,
    .host 2 .persist, .host 3 .ready, .host 3 .persist, .host 1 .apply, .host 1 .advance]

/-- The grant of node 2 makes node 1 a candidate. It polls again, in term 1, and receives
the grant of node 3 only now.
-/
def secondPoll : List Event :=
  firstPoll ++ [.deliver 2, .host 1 .campaign, .host 1 .ready, .host 1 .persist, .host 1 .apply,
    .deliver 3]

/-- The grants of one voter are no quorum of three. -/
theorem exists_other_voter {votes : IdMap Bool} {voters : JointConfig}
    (members : voters.incoming.keys = [1, 2, 3])
    (won : voters.voteResult votes = .voteWon)
    : ∃ id, id ≠ 1 ∧ votes.get? id = some true := by
  have most := (JointConfig.voteResult_eq_voteWon.mp won).1
  unfold MajorityConfig.Agrees at most
  rw [← IdMap.length_keys, members] at most
  by_contra alone
  have two : votes.get? 2 ≠ some true := fun yes => alone ⟨2, by decide, yes⟩
  have three : votes.get? 3 ≠ some true := fun yes => alone ⟨3, by decide, yes⟩
  have count : [1, 2, 3].countP (fun id => votes.get? id == some true) ≤ 1 := by
    simp only [List.countP_cons, List.countP_nil, beq_iff_eq, if_neg two, if_neg three]
    split <;> simp
  have := most (by decide)
  simp only [List.length_cons, List.length_nil] at this
  omega

/-- Node 1 moves on to the election of term 2, for which nobody else has granted it
anything.
-/
theorem stale_grant_counted
    : ∃ rn rn', ((Cluster.run threeVoters secondPoll).hosts 1).node = some rn
        ∧ rn.raft.state = .statePreCandidate
        ∧ ((Cluster.run threeVoters (secondPoll ++ [.host 1 .advance])).hosts 1).node = some rn'
        ∧ rn'.raft.state = .stateCandidate ∧ rn'.raft.term = rn.raft.term + 1
        ∧ ¬∃ votes, rn.raft.trk.config.voters.voteResult votes = .voteWon
          ∧ ∀ id, votes.get? id = some true
            → Cluster.Granted threeVoters (secondPoll ++ [.host 1 .advance]) 1 id
                (rn.raft.term + 1) := by
  have before : ((Cluster.run threeVoters secondPoll).hosts 1).node.map
      (fun rn => (rn.raft.state, rn.raft.term, rn.raft.trk.config.voters.incoming.keys))
      = some (.statePreCandidate, 1, [1, 2, 3]) := by
    decide +kernel
  have after : ((Cluster.run threeVoters (secondPoll ++ [.host 1 .advance])).hosts 1).node.map
      (fun rn => (rn.raft.state, rn.raft.term)) = some (.stateCandidate, 2) := by
    decide +kernel
  have net : ∀ m ∈ (Cluster.run threeVoters (secondPoll ++ [.host 1 .advance])).net,
      ¬(m.type = .msgPreVoteResp ∧ m.term = 2) := by
    decide +kernel
  obtain ⟨rn, node, known⟩ := Option.map_eq_some_iff.mp before
  obtain ⟨rn', node', known'⟩ := Option.map_eq_some_iff.mp after
  simp only [Prod.mk.injEq] at known known'
  obtain ⟨state, term, members⟩ := known
  obtain ⟨state', term'⟩ := known'
  refine ⟨rn, rn', node, state, node', state', by rw [term, term'], ?_⟩
  rintro ⟨votes, won, granted⟩
  obtain ⟨id, other, yes⟩ := exists_other_voter members won
  obtain ⟨m, grant, _, _, sameTerm, sent | ⟨own, _⟩⟩ := granted id yes
  · rw [term] at sameTerm
    exact net m sent.mem_net ⟨grant.1, sameTerm⟩
  · exact other own

/-- The first poll succeeds with fresh grants. -/
theorem campaign_granted_first
    : ∃ rn rn', ((Cluster.run threeVoters firstPoll).hosts 1).node = some rn
        ∧ ((Cluster.run threeVoters (firstPoll ++ [.deliver 2])).hosts 1).node = some rn'
        ∧ Cluster.FreshRun threeVoters (firstPoll ++ [.deliver 2])
        ∧ rn.raft.state = .statePreCandidate ∧ rn'.raft.state = .stateCandidate
        ∧ rn'.raft.term = rn.raft.term + 1
        ∧ ∃ votes, rn.raft.trk.config.voters.voteResult votes = .voteWon
          ∧ ∀ id, votes.get? id = some true
            → Cluster.Granted threeVoters (firstPoll ++ [.deliver 2]) 1 id (rn.raft.term + 1) := by
  have fresh : Cluster.FreshRun threeVoters (firstPoll ++ [.deliver 2]) := by decide +kernel
  have before : ((Cluster.run threeVoters firstPoll).hosts 1).node.map
      (fun rn => (rn.raft.state, rn.raft.term)) = some (.statePreCandidate, 0) := by
    decide +kernel
  have after : ((Cluster.run threeVoters (firstPoll ++ [.deliver 2])).hosts 1).node.map
      (fun rn => (rn.raft.state, rn.raft.term)) = some (.stateCandidate, 1) := by
    decide +kernel
  obtain ⟨rn, node, known⟩ := Option.map_eq_some_iff.mp before
  obtain ⟨rn', node', known'⟩ := Option.map_eq_some_iff.mp after
  simp only [Prod.mk.injEq] at known known'
  obtain ⟨state, term⟩ := known
  obtain ⟨state', term'⟩ := known'
  have next : rn'.raft.term = rn.raft.term + 1 := by rw [term, term']
  exact ⟨rn, rn', node, node', fresh, state, state', next,
    Cluster.campaign_granted fresh node state node' state' next⟩

end EtcdRaft
