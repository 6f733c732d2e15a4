import TransactionManager.Raft.Cluster

/-!
# The moves of a cluster

A step of a cluster is a short sequence of moves: a handler first steps down to the term of a
message, then gives its vote or stores entries, and so on. What holds along runs is proved
move by move. A `Law` collects what the steps of a run are known to respect; the moves it is
about carry it.
-/

namespace TransactionManager.Raft
open Lib List Function Cluster

variable {F : FSM}

/-- The steps on which a run may be restricted: `Propose` appends only on a leader; only the
last entry of a message meets a conflict; the `Success` of a delivery that cut the log is not
taken; no log is compacted; `Propose` appends only these commands. -/
structure Law where
  leads : Prop
  clean : Prop
  honest : Prop
  plain : Prop
  client : Command → Prop

def Answer.Idle (a : Answer) : Prop :=
  match a.reply with
  | .vote reply => reply.voteGranted = false
  | .append reply => reply.success = false
  | .install _ => True

namespace Cluster

variable (s : Cluster F)

@[simp] theorem nodes_set_self (id : NodeID) (n : Node F) : (s.set id n).nodes id = n := update_self ..

theorem nodes_set_of_ne {id other : NodeID} (n : Node F) (ne : other ≠ id) :
    (s.set id n).nodes other = s.nodes other := update_of_ne ne ..

/-- What holds of the node that was set and of the others holds of every node. -/
@[elab_as_elim]
theorem nodes_set_elim {motive : NodeID → Node F → Prop} {s : Cluster F} {id : NodeID} {n : Node F}
    (other : NodeID) (self : motive id n) (others : other ≠ id → motive other (s.nodes other)) :
    motive other ((s.set id n).nodes other) := by
  by_cases here : other = id
  · rw [here, nodes_set_self]
    exact self
  · rw [nodes_set_of_ne _ _ here]
    exact others here

@[simp] theorem set_set (id : NodeID) (n n' : Node F) : (s.set id n).set id n' = s.set id n' := by
  unfold set
  rw [update_idem]

@[simp] theorem set_self (id : NodeID) : s.set id (s.nodes id) = s := by
  unfold set
  rw [update_eq_self]

@[simp] theorem nodes_send_self (id : NodeID) (calls : List (Call F)) :
    (s.send id calls).nodes id = { s.nodes id with
      waiting := (s.nodes id).waiting ++ List.range' s.calls.length calls.length } :=
  nodes_set_self ..

@[elab_as_elim]
theorem nodes_send_elim {motive : NodeID → Node F → Prop} {s : Cluster F} {id : NodeID} {calls : List (Call F)}
    (other : NodeID)
    (self : motive id { s.nodes id with waiting := (s.nodes id).waiting ++ List.range' s.calls.length calls.length })
    (others : other ≠ id → motive other (s.nodes other)) : motive other ((s.send id calls).nodes other) :=
  nodes_set_elim other self others

end Cluster

/-- What is left as it is by the parts of a node that no election and no entry depends on. -/
structure Quiet (n n' : Node F) : Prop where
  term : n'.term = n.term
  votedFor : n'.votedFor = n.votedFor
  role : n'.role = n.role
  log : n'.log = n.log
  saved : n'.saved = n.saved
  commitIndex : n'.commitIndex = n.commitIndex
  matchIndex : n'.matchIndex = n.matchIndex
  votesReceived : n'.votesReceived = n.votesReceived
  snapshotIndex : n'.snapshotIndex = n.snapshotIndex
  snapshotData : n'.snapshotData = n.snapshotData
  waiting : n'.waiting = n.waiting
  phase : n'.phase = n.phase ∨ ∀ index, n'.phase ≠ .picked index

theorem Quiet.of_fields (n : Node F) (nextIndex : GoMap NodeID Nat) (lastApplied : Nat)
    (fsm : F.State) (proposing : List Command) (installing : List (Nat × InstallPhase)) :
    Quiet n { n with nextIndex, lastApplied, fsm, proposing, installing } :=
  ⟨rfl, rfl, rfl, rfl, rfl, rfl, rfl, rfl, rfl, rfl, rfl, .inl rfl⟩

/-- A move that casts no vote and creates no entry. -/
inductive Silent (L : Law) (m : Membership) (s : Cluster F) : Cluster F → Prop where
  | quiet (id : NodeID) (n' : Node F) (quiet : Quiet (s.nodes id) n') : Silent L m s (s.set id n')
  | forget (id : NodeID) (c : Nat) : Silent L m s (s.set id ((s.nodes id).stopWaiting c))
  | stepDown (id : NodeID) (term : Nat) (later : (s.nodes id).term < term) :
      Silent L m s (s.set id ((s.nodes id).becomeFollower term))
  | yield (id : NodeID) (candidate : (s.nodes id).role = .candidate) :
      Silent L m s (s.set id { s.nodes id with role := .follower })
  | restart (id : NodeID) : Silent L m s (s.set id (s.nodes id).restart)
  | answer (a : Answer) (idle : a.Idle) : Silent L m s (s.answer a)
  | count (c : Nat) (call : Call F) (args : RequestVoteArgs) (a : Answer) (reply : RequestVoteReply)
      (made : s.calls[c]? = some call) (asked : call.request = .vote args)
      (waits : c ∈ (s.nodes call.src).waiting) (answered : a ∈ s.answers) (own : a.call = c)
      (granted : a.reply = .vote reply) (yes : reply.voteGranted = true)
      (candidate : (s.nodes call.src).role = .candidate)
      (same : (s.nodes call.src).term = args.term) :
      Silent L m s (s.set call.src ((s.nodes call.src).stopWaiting c).count)
  | winCrash (id : NodeID) (candidate : (s.nodes id).role = .candidate)
      (votes : Node.majority (m.peers id) ≤ (s.nodes id).votesReceived)
      (panic : (s.nodes id).log.entries = []) :
      Silent L m s ((s.set id { s.nodes id with role := .leader }.restart).record (.elected id (s.nodes id).term))
  | send (id peer : NodeID) (nextIdx last : Nat) (member : peer ∈ m.peers id)
      (leader : (s.nodes id).role = .leader) (newer : (s.nodes id).snapshotIndex < nextIdx)
      (index : (s.nodes id).log.lastIndex = some last) :
      Silent L m s (s.send id [⟨id, peer, .append ((s.nodes id).appendArgs id nextIdx last)⟩])
  | sendSnapshot (id peer : NodeID) (args : InstallSnapshotArgs F) (member : peer ∈ m.peers id)
      (data : (s.nodes id).snapshotData ≠ none) :
      Silent L m s (s.send id [⟨id, peer, .install args⟩])
  | store (c : Nat) (call : Call F) (args : AppendEntriesArgs) (commit : Nat)
      (made : s.calls[c]? = some call) (asked : call.request = .append args)
      (same : (s.nodes call.dst).term = args.term) (follows : (s.nodes call.dst).role ≠ .candidate)
      (prev : (s.nodes call.dst).prevMatches args = true)
      (clean : L.clean → ∀ e ∈ args.entries.dropLast, (s.nodes call.dst).log.conflicts e = false)
      (committed : commit = (s.nodes call.dst).commitIndex ∨
        ∃ last, ((s.nodes call.dst).log.storeEntries args.entries).lastIndex = some last ∧
          commit = min args.leaderCommit last) :
      Silent L m s ((s.set call.dst { (s.nodes call.dst).store args.entries with commitIndex := commit }).answer
        { call := c, reply := .append { term := args.term, success := true }
          cut := (s.nodes call.dst).log.cuts args.entries })
  | storeCrash (c : Nat) (call : Call F) (args : AppendEntriesArgs)
      (made : s.calls[c]? = some call) (asked : call.request = .append args)
      (same : (s.nodes call.dst).term = args.term) (follows : (s.nodes call.dst).role ≠ .candidate)
      (prev : (s.nodes call.dst).prevMatches args = true)
      (clean : L.clean → ∀ e ∈ args.entries.dropLast, (s.nodes call.dst).log.conflicts e = false) :
      Silent L m s (s.set call.dst ((s.nodes call.dst).store args.entries).restart)
  | matched (c : Nat) (call : Call F) (args : AppendEntriesArgs) (a : Answer) (reply : AppendEntriesReply)
      (made : s.calls[c]? = some call) (asked : call.request = .append args)
      (answered : a ∈ s.answers) (own : a.call = c) (replied : a.reply = .append reply)
      (yes : reply.success = true) (honest : L.honest → a.cut = false)
      (leader : (s.nodes call.src).role = .leader) (same : (s.nodes call.src).term = args.term) :
      Silent L m s (s.set call.src ((s.nodes call.src).matched call.dst args))
  | installed (c : Nat) (call : Call F) (args : InstallSnapshotArgs F) (nextIndex matchIndex : GoMap NodeID Nat)
      (made : s.calls[c]? = some call) (asked : call.request = .install args) :
      Silent L m s (s.set call.src { s.nodes call.src with nextIndex, matchIndex })
  | advance (id : NodeID) (index : Nat) (leader : (s.nodes id).role = .leader)
      (enough : (s.nodes id).replicated (m.peers id) index = true) :
      Silent L m s (s.set id { s.nodes id with commitIndex := index })
  | pick (id : NodeID) (left : (s.nodes id).lastApplied < (s.nodes id).commitIndex) :
      Silent L m s (s.set id { s.nodes id with phase := .picked ((s.nodes id).lastApplied + 1) })
  | pass (id : NodeID) (index : Nat) (e : Entry) (picked : (s.nodes id).phase = .picked index)
      (found : (s.nodes id).log.get index = some e) :
      Silent L m s ((s.set id { s.nodes id with
        fsm := F.apply e (s.nodes id).fsm, phase := .applied index }).record (.applied id e))
  | compact (id : NodeID) (data : F.Data) (plain : ¬ L.plain) :
      Silent L m s (s.set id { (s.nodes id).compact data with phase := .idle })
  | finishInstall (id : NodeID) (c : Nat) (args : InstallSnapshotArgs F)
      (installing : List (Nat × InstallPhase)) (asked : s.request? c = some (.install args)) :
      Silent L m s (s.set id { (s.nodes id).finishInstall args with installing })

inductive Move (L : Law) (m : Membership) (s : Cluster F) : Cluster F → Prop where
  | silent (move : Silent L m s s') : Move L m s s'
  | campaign (id : NodeID) (lastIndex lastTerm : Nat) (s' : Cluster F) (member : id ∈ m.ids)
      (follows : (s.nodes id).role ≠ .leader)
      (index : (s.nodes id).log.lastIndex = some lastIndex)
      (term : (s.nodes id).log.lastTerm = some lastTerm)
      (ran : s' = s.set id ((s.nodes id).campaign id)) :
      Move L m s (s'.send id (s'.ballots m id lastIndex lastTerm))
  | campaignCrash (id : NodeID) (member : id ∈ m.ids) (follows : (s.nodes id).role ≠ .leader)
      (panic : (s.nodes id).log.entries = []) :
      Move L m s (s.set id ((s.nodes id).campaign id).restart)
  | grant (c : Nat) (call : Call F) (args : RequestVoteArgs) (lastTerm lastIndex : Nat)
      (made : s.calls[c]? = some call) (asked : call.request = .vote args)
      (same : (s.nodes call.dst).term = args.term)
      (term : (s.nodes call.dst).log.lastTerm = some lastTerm)
      (index : (s.nodes call.dst).log.lastIndex = some lastIndex)
      (free : (s.nodes call.dst).votedFor = [] ∨ (s.nodes call.dst).votedFor = args.candidateID)
      (upToDate : lastTerm < args.lastLogTerm ∨ args.lastLogTerm = lastTerm ∧ lastIndex ≤ args.lastLogIndex) :
      Move L m s ((s.set call.dst ((s.nodes call.dst).vote args.candidateID)).answer
        { call := c, reply := .vote ⟨args.term, true⟩ })
  | win (id : NodeID) (last : Nat) (candidate : (s.nodes id).role = .candidate)
      (votes : Node.majority (m.peers id) ≤ (s.nodes id).votesReceived)
      (index : (s.nodes id).log.lastIndex = some last) :
      Move L m s ((s.set id ((s.nodes id).lead (m.peers id) last)).record (.elected id (s.nodes id).term))
  | propose (id : NodeID) (cmd : Command) (last : Nat) (leads : L.leads → (s.nodes id).role = .leader)
      (index : (s.nodes id).log.lastIndex = some last) (client : L.client cmd) :
      Move L m s (s.set id ((s.nodes id).extend ⟨last + 1, (s.nodes id).term, cmd⟩))

/-- The command that a step appends for a client. -/
def Cluster.appends (s : Cluster F) : Action → List Command
  | .proposeAppend id proposal => ((s.nodes id).proposing[proposal]?).toList
  | _ => []

/-- `Propose` appends only on a leader. -/
def ProposesAsLeader (s : Cluster F) : Action → Prop
  | .proposeAppend id _ => (s.nodes id).role = .leader
  | _ => True

/-- An accepted `AppendEntries` has at most its last entry in conflict with the log that receives it. -/
def ConflictsLast (s : Cluster F) : Action → Prop
  | .deliver c => match s.calls[c]? with
    | some ⟨_, dst, .append args⟩ => (s.nodes dst).accepts args = true →
        ∀ e ∈ args.entries.dropLast, (s.nodes dst).log.conflicts e = false
    | _ => True
  | _ => True

/-- The leader does not get the reply of a delivery that cut the log. -/
def LosesCutReply (s : Cluster F) : Action → Prop
  | .receive _ k => match s.answers[k]? with
    | some a => a.cut = false
    | none => True
  | _ => True

def NoCompaction (s : Cluster F) : Action → Prop
  | .apply id => match (s.nodes id).phase with
    | .taken _ => False
    | _ => True
  | _ => True

section
variable {L : Law} {m : Membership} {s s' : Cluster F} {id : NodeID} {c : Nat} {call : Call F}
  {args : RequestVoteArgs} {a : Answer}

abbrev Moves (L : Law) (m : Membership) : Cluster F → Cluster F → Prop := Relation.ReflTransGen (Move L m)

theorem Move.once (move : Move L m s s') : Moves L m s s' := .single move

theorem Silent.once (move : Silent L m s s') : Moves L m s s' := (Move.silent move).once

theorem moves_refl_set (id : NodeID) : Moves L m s (s.set id (s.nodes id)) := by
  rw [set_self]

theorem moves_set_set {n n' : Node F} (first : Moves L m s (s.set id n))
    (second : ∀ s₁ : Cluster F, s₁.nodes id = n → s₁.calls = s.calls → s₁.answers = s.answers →
      Moves L m s₁ (s₁.set id n')) : Moves L m s (s.set id n') := by
  have later := second (s.set id n) (Cluster.nodes_set_self ..) rfl rfl
  rw [Cluster.set_set] at later
  exact first.trans later

theorem moves_catchUp (id : NodeID) (term : Nat) : Moves L m s (s.set id ((s.nodes id).catchUp term)) := by
  unfold Node.catchUp
  split
  · exact (Silent.stepDown id term ‹_›).once
  · rw [set_self]

theorem Node.term_catchUp {n : Node F} {term : Nat} (fresh : ¬ term < n.term) : (n.catchUp term).term = term := by
  unfold catchUp
  split
  · rfl
  · omega

theorem Node.get_forPeers (peers : List NodeID) (v : Nat) : ∀ peer k, (forPeers peers v).get peer = some k → k = v := by
  refine foldlRecOn (motive := fun known : GoMap NodeID Nat => ∀ peer k, known.get peer = some k → k = v)
    peers _ (nofun) fun known old first _ peer k at' => ?_
  rw [GoMap.get_set] at at'
  split at at'
  · exact (Option.some.inj at').symm
  · exact old peer k at'

variable (n : Node F)

theorem Node.log_catchUp (term : Nat) : (n.catchUp term).log = n.log := by
  unfold catchUp
  split <;> rfl

theorem Node.term_yield : n.yield.term = n.term := by
  unfold yield
  split <;> rfl

theorem Node.log_yield : n.yield.log = n.log := by
  unfold yield
  split <;> rfl

theorem Node.role_yield : n.yield.role ≠ .candidate := by
  unfold yield
  split
  · nofun
  · assumption

theorem moves_yield (id : NodeID) : Moves L m s (s.set id (s.nodes id).yield) := by
  unfold Node.yield
  split
  · exact (Silent.yield id ‹_›).once
  · rw [set_self]

theorem moves_becomeLeader (id : NodeID) (candidate : (s.nodes id).role = .candidate)
    (votes : Node.majority (m.peers id) ≤ (s.nodes id).votesReceived) :
    Moves L m s (s.becomeLeader m id) := by
  unfold becomeLeader Node.becomeLeader
  cases index : (s.nodes id).log.lastIndex with
  | none => exact (Silent.winCrash id candidate votes (by simpa [RaftLog.lastIndex] using index)).once
  | some last => exact (Move.win id last candidate votes index).once

theorem moves_becomeCandidate (id : NodeID) (member : id ∈ m.ids)
    (follows : (s.nodes id).role ≠ .leader) : Moves L m s (s.becomeCandidate m id) := by
  unfold becomeCandidate
  simp only [nodes_set_self]
  have same : ((s.nodes id).campaign id).log = (s.nodes id).log := rfl
  split
  · rename_i lastIndex lastTerm index term
    have run := (Move.campaign (L := L) id lastIndex lastTerm _ member follows index term rfl).once
    split
    · rename_i alone
      refine run.trans (moves_becomeLeader id ?_ alone.2)
      rw [nodes_send_self, nodes_set_self]
      rfl
    · exact run
  · rename_i panic
    rw [Cluster.set_set]
    refine (Move.campaignCrash id member follows ?_).once
    by_contra full
    have last := getLast?_eq_some_getLast full
    exact panic _ _ (congrArg (Option.map Entry.index) last) (congrArg (Option.map Entry.term) last)

theorem respond_set (s : Cluster F) (id : NodeID) {α : Type} (answer : α → Answer)
    (o : Outcome F α) : (s.set id n).respond id answer o = s.respond id answer o := by
  cases o <;> simp [respond]

theorem moves_refuse (id : NodeID) {α : Type} (answer : α → Answer) (result : α)
    (idle : (answer result).Idle) : Moves L m s (s.respond id answer (.done (s.nodes id) result)) := by
  show Moves L m s ((s.set id (s.nodes id)).answer _)
  rw [set_self]
  exact (Silent.answer _ idle).once

section
variable (made : s.calls[c]? = some call)
include made

/-- The vote is decided in the term of the request. -/
theorem moves_decideVote (asked : call.request = .vote args) (same : (s.nodes call.dst).term = args.term) :
    Moves L m s (s.respond call.dst (fun reply => { call := c, reply := .vote reply })
      ((s.nodes call.dst).decideVote args)) := by
  unfold Node.decideVote
  split
  · rename_i lastTerm lastIndex term index
    split
    · rename_i ok
      have grant := Move.grant (L := L) (m := m) c call args lastTerm lastIndex made asked same term index ok.1 ok.2
      rw [same]
      exact grant.once
    · exact moves_refuse _ _ _ rfl
  · exact (Silent.restart call.dst).once

theorem moves_handleRequestVote (asked : call.request = .vote args) :
    Moves L m s (s.respond call.dst (fun reply => { call := c, reply := .vote reply })
      ((s.nodes call.dst).handleRequestVote args)) := by
  unfold Node.handleRequestVote
  split
  · exact moves_refuse _ _ _ rfl
  rename_i fresh
  have first := moves_catchUp (L := L) (m := m) (s := s) call.dst args.term
  have second := moves_decideVote (L := L) (m := m)
    (s := s.set call.dst ((s.nodes call.dst).catchUp args.term)) made asked (by
      rw [nodes_set_self, Node.term_catchUp fresh])
  rw [nodes_set_self, respond_set] at second
  exact first.trans second

omit made in
/-- The entries are stored in the term of the request. -/
theorem moves_takeEntries {args : AppendEntriesArgs} (cut : Bool)
    (made : s.calls[c]? = some call) (asked : call.request = .append args)
    (same : (s.nodes call.dst).term = args.term) (follows : (s.nodes call.dst).role ≠ .candidate)
    (clean : L.clean → (s.nodes call.dst).prevMatches args = true →
      ∀ e ∈ args.entries.dropLast, (s.nodes call.dst).log.conflicts e = false)
    (cuts : (s.nodes call.dst).prevMatches args = true → cut = (s.nodes call.dst).log.cuts args.entries) :
    Moves L m s (s.respond call.dst (fun reply => { call := c, reply := .append reply, cut })
      ((s.nodes call.dst).takeEntries args)) := by
  unfold Node.takeEntries
  split
  · rename_i prev
    have store (commit : Nat) := Silent.store (L := L) (m := m) c call args commit made asked same
      follows prev fun c => clean c prev
    rw [cuts prev]
    unfold Node.followCommit
    split
    · split
      · exact (Silent.storeCrash c call args made asked same follows prev fun c => clean c prev).once
      · rename_i last index
        have stored := store (min args.leaderCommit last) (.inr ⟨last, index, rfl⟩)
        rw [← same] at stored
        exact stored.once
    · have stored := store (s.nodes call.dst).commitIndex (.inl rfl)
      rw [← same] at stored
      exact stored.once
  · split
    · exact (Silent.restart call.dst).once
    · refine moves_refuse _ _ _ ?_
      unfold Node.conflictReply
      split <;> rfl

theorem moves_handleAppendEntries {args : AppendEntriesArgs} (asked : call.request = .append args)
    (clean : L.clean → (s.nodes call.dst).accepts args = true →
      ∀ e ∈ args.entries.dropLast, (s.nodes call.dst).log.conflicts e = false) :
    Moves L m s (s.respond call.dst
      (fun reply => { call := c, reply := .append reply
                      cut := (s.nodes call.dst).accepts args && (s.nodes call.dst).log.cuts args.entries })
      ((s.nodes call.dst).handleAppendEntries args)) := by
  unfold Node.handleAppendEntries
  split
  · exact moves_refuse _ _ _ rfl
  rename_i fresh
  have first := moves_catchUp (L := L) (m := m) (s := s) call.dst args.term
  have second := moves_yield (L := L) (m := m) (s := s.set call.dst ((s.nodes call.dst).catchUp args.term)) call.dst
  rw [Cluster.nodes_set_self, Cluster.set_set] at second
  have log : ((s.nodes call.dst).catchUp args.term).yield.log = (s.nodes call.dst).log := by
    rw [Node.log_yield, Node.log_catchUp]
  have accepts (prev : ((s.nodes call.dst).catchUp args.term).yield.prevMatches args = true) :
      (s.nodes call.dst).accepts args = true := by
    unfold Node.prevMatches at prev
    unfold Node.accepts Node.prevMatches
    rw [log] at prev
    simp only [prev, and_true, decide_eq_true_eq]
    omega
  have third := moves_takeEntries (L := L) (m := m) (s := s.set call.dst ((s.nodes call.dst).catchUp args.term).yield)
    ((s.nodes call.dst).accepts args && (s.nodes call.dst).log.cuts args.entries) made asked
    (by rw [nodes_set_self, Node.term_yield, Node.term_catchUp fresh])
    (by rw [nodes_set_self]; exact Node.role_yield _)
    (by
      rw [nodes_set_self, log]
      exact fun c prev => clean c (accepts prev))
    (by
      rw [nodes_set_self, log]
      intro prev
      rw [accepts prev, Bool.true_and])
  rw [nodes_set_self, respond_set] at third
  exact (first.trans second).trans third

omit made in
theorem moves_tryAdvanceCommitIndex (id : NodeID) :
    Moves L m s (s.set id ((s.nodes id).tryAdvanceCommitIndex (m.peers id)).alive) := by
  unfold Node.tryAdvanceCommitIndex
  split
  · exact moves_refl_set id
  rename_i leader
  split
  · exact (Silent.restart id).once
  · split
    · exact moves_refl_set id
    · rename_i index found
      exact (Silent.advance id index (not_not.1 leader) (find?_some found)).once

theorem moves_receiveVote {reply : RequestVoteReply} (asked : call.request = .vote args)
    (waits : c ∈ (s.nodes call.src).waiting) (answered : a ∈ s.answers) (own : a.call = c)
    (replied : a.reply = .vote reply) : Moves L m s (s.receive m c call (.vote reply)) := by
  have forget := (Silent.forget (L := L) (m := m) (s := s) call.src c).once
  unfold receive Node.receiveVote
  rw [asked]
  dsimp only
  split
  · rename_i later
    refine moves_set_set forget fun s₁ here _ _ => ?_
    rw [← here] at later ⊢
    exact (Silent.stepDown call.src reply.term later).once
  · split
    · exact forget
    rename_i candidate
    have candidate := not_or.1 candidate
    split
    · rename_i yes
      have count := Silent.count (L := L) (m := m) c call args a reply made asked waits answered
        own replied yes (not_not.1 candidate.1) (not_not.1 candidate.2)
      split
      · rename_i wins
        refine count.once.trans (moves_becomeLeader call.src ?_ ?_)
        · rw [nodes_set_self]
          exact not_not.1 candidate.1
        · rw [nodes_set_self]
          exact of_decide_eq_true wins
      · exact count.once
    · exact forget

theorem moves_receiveAppend {args : AppendEntriesArgs}
    {reply : AppendEntriesReply} (asked : call.request = .append args)
    (answered : a ∈ s.answers) (own : a.call = c) (replied : a.reply = .append reply)
    (honest : L.honest → a.cut = false) : Moves L m s (s.receive m c call (.append reply)) := by
  unfold receive
  rw [asked]
  refine moves_set_set (Silent.forget call.src c).once fun s₁ here calls answers => ?_
  rw [← calls] at made
  rw [← answers] at answered
  rw [← here]
  unfold Node.receiveAppend
  split
  · exact (Silent.stepDown call.src reply.term ‹_›).once
  split
  · exact moves_refl_set _
  rename_i leader
  have leader := not_or.1 leader
  split
  · rename_i yes
    refine moves_set_set (Silent.matched c call args a reply made asked answered own replied yes
      honest (not_not.1 leader.1) (not_not.1 leader.2)).once fun s₂ here _ _ => ?_
    rw [← here]
    exact moves_tryAdvanceCommitIndex call.src
  · split
    · exact (Silent.quiet call.src _ (.of_fields _ _ _ _ _ _)).once
    · split
      · exact (Silent.quiet call.src _ (.of_fields _ _ _ _ _ _)).once
      · exact moves_refl_set _

theorem moves_receiveInstall {args : InstallSnapshotArgs F} {reply : InstallSnapshotReply}
    (asked : call.request = .install args) : Moves L m s (s.receive m c call (.install reply)) := by
  unfold receive
  rw [asked]
  refine moves_set_set (Silent.forget call.src c).once fun s₁ here calls answers => ?_
  rw [← calls] at made
  rw [← here]
  unfold Node.receiveInstall
  split
  · exact (Silent.stepDown call.src reply.term ‹_›).once
  · split
    · exact (Silent.installed c call args _ _ made asked).once
    · exact moves_refl_set _

theorem moves_receive (waits : c ∈ (s.nodes call.src).waiting) (answered : a ∈ s.answers) (own : a.call = c)
    (honest : L.honest → a.cut = false) : Moves L m s (s.receive m c call a.reply) := by
  have other : Moves L m s (s.set call.src ((s.nodes call.src).stopWaiting c)) := (Silent.forget call.src c).once
  cases asked : call.request <;> cases replied : a.reply
  case vote.vote => exact moves_receiveVote made asked waits answered own replied
  case append.append => exact moves_receiveAppend made asked answered own replied honest
  case install.install => exact moves_receiveInstall made asked
  -- an answer to another question
  all_goals
    unfold receive
    rw [asked]
    exact other

theorem moves_deliver (clean : L.clean → ∀ args, call.request = .append args → (s.nodes call.dst).accepts args = true →
      ∀ e ∈ args.entries.dropLast, (s.nodes call.dst).log.conflicts e = false) :
    Moves L m s (s.deliver c call) := by
  unfold deliver
  cases asked : call.request with
  | vote => exact moves_handleRequestVote made asked
  | append args => exact moves_handleAppendEntries made asked fun c => clean c args asked
  | install args =>
    dsimp only
    unfold Node.startInstall
    split
    · rename_i n started
      split at started
      · cases started
      · cases started
        refine moves_set_set (moves_catchUp call.dst args.term) fun s₁ here _ _ => ?_
        rw [← here]
        exact (Silent.quiet call.dst _ (.of_fields _ _ _ _ _ _)).once
    · rename_i n refused
      split at refused
      · cases refused
        rw [set_self]
        refine (Silent.answer _ ?_).once
        trivial
      · cases refused

end

theorem moves_replicate {peer : NodeID} (taken : s.next m (.replicate id peer) = some s') : Moves L m s s' := by
  unfold Cluster.next at taken
  dsimp only at taken
  split at taken
  · rename_i member
    cases sent : (s.nodes id).replicateToPeer id peer with
    | panic n =>
      rw [sent] at taken
      cases taken
      have same : n = s.nodes id := by
        unfold Node.replicateToPeer at sent
        split at sent
        · cases sent
        split at sent
        · cases sent
          rfl
        split at sent
        · cases sent
        · split at sent
          · cases sent
            rfl
          · cases sent
      rw [same]
      exact (Silent.restart id).once
    | done n result =>
      rw [sent] at taken
      cases result with
      | none =>
        cases taken
        exact .refl
      | some =>
        cases taken
        unfold Node.replicateToPeer at sent
        split at sent
        · cases sent
        rename_i leader
        split at sent
        · cases sent
        split at sent
        · cases data : (s.nodes id).snapshotData with
          | none =>
            rw [data] at sent
            cases sent
          | some =>
            rw [data] at sent
            cases sent
            exact (Silent.sendSnapshot id peer _ member (by rw [data]; rintro ⟨⟩)).once
        · rename_i newer
          split at sent
          · cases sent
          · rename_i last index
            cases sent
            exact (Silent.send id peer _ last member (not_not.1 leader) (not_le.1 newer) index).once
  · cases taken

theorem moves_proposeAppend {cmd : Command} {proposing : List Command} (leads : L.leads → (s.nodes id).role = .leader)
    (client : L.client cmd) :
    Moves L m s (s.set id ({ s.nodes id with proposing }.proposeAppend cmd).alive) := by
  refine moves_set_set (Silent.quiet id { s.nodes id with proposing }
    (.of_fields _ _ _ _ _ _)).once fun s₁ here _ _ => ?_
  have leads : L.leads → (s₁.nodes id).role = .leader := by rwa [here]
  rw [← here]
  unfold Node.proposeAppend
  split
  · exact (Silent.restart id).once
  · exact (Move.propose id cmd _ leads ‹_› client).once

theorem moves_applyStep (plain : L.plain → ∀ data, (s.nodes id).phase ≠ .taken data)
    (taken : s.applyStep id = some s') : Moves L m s s' := by
  have rest (lastApplied : Nat) {phase : ApplyPhase F} (other : ∀ index, phase ≠ .picked index) :
      Moves L m s (s.set id { s.nodes id with lastApplied, phase }) :=
    (Silent.quiet id { s.nodes id with lastApplied, phase }
      ⟨rfl, rfl, rfl, rfl, rfl, rfl, rfl, rfl, rfl, rfl, rfl, .inr other⟩).once
  unfold applyStep at taken
  dsimp only at taken
  split at taken
  · obtain ⟨_, rfl⟩ := of_guard taken
    exact (Silent.pick id ‹_›).once
  · rename_i index picked
    split at taken
    · cases taken
      exact rest _ (nofun)
    · rename_i e found
      cases taken
      exact (Silent.pass id index e picked found).once
  · cases taken
    refine rest _ ?_
    split <;> rintro _ ⟨⟩
  · cases taken
    refine rest _ ?_
    split <;> rintro _ ⟨⟩
  · rename_i data due
    cases taken
    exact (Silent.compact id data fun p => plain p data due).once

theorem moves_installStep {handler : Nat} (taken : s.installStep id handler = some s') : Moves L m s s' := by
  unfold installStep at taken
  dsimp only at taken
  split at taken
  · cases taken
  split at taken
  · cases taken
    exact (Silent.quiet id _ (.of_fields _ _ _ _ _ _)).once
  · rename_i args asked _
    cases taken
    exact (Silent.finishInstall id _ args _ asked).once
  · cases taken
    have first := (Silent.quiet (L := L) (m := m) id _
      (.of_fields (s.nodes id) (s.nodes id).nextIndex (s.nodes id).lastApplied (s.nodes id).fsm
        (s.nodes id).proposing ((s.nodes id).installing.eraseIdx handler))).once
    refine first.trans (Silent.answer _ ?_).once
    trivial
  · cases taken

/-- Every step is a sequence of moves, which respect what the step respects. -/
theorem moves_of_next {a : Action} (leads : L.leads → ProposesAsLeader s a)
    (clean : L.clean → ConflictsLast s a) (honest : L.honest → LosesCutReply s a)
    (plain : L.plain → NoCompaction s a) (client : ∀ cmd ∈ s.appends a, L.client cmd)
    (taken : s.next m a = some s') : Moves L m s s' := by
  cases a with
  | timeout id =>
    obtain ⟨can, rfl⟩ := of_guard taken
    exact moves_becomeCandidate id can.1 can.2
  | replicate => exact moves_replicate taken
  | deliver c =>
    obtain ⟨call, made, rfl⟩ := Option.map_eq_some_iff.1 taken
    refine moves_deliver made fun c args asked => ?_
    have last := clean c
    unfold ConflictsLast at last
    dsimp only at last
    rw [made] at last
    obtain ⟨src, dst, request⟩ := call
    cases asked
    exact last
  | receive c k =>
    unfold Cluster.next at taken
    dsimp only at taken
    split at taken
    · rename_i call a made answered
      obtain ⟨own, rfl⟩ := of_guard taken
      refine moves_receive made own.2 (mem_of_getElem? answered) own.1 fun h => ?_
      have lost := honest h
      unfold LosesCutReply at lost
      dsimp only at lost
      rwa [answered] at lost
    · cases taken
  | proposeTest id cmd =>
    obtain ⟨_, rfl⟩ := of_guard taken
    exact (Silent.quiet id _ (.of_fields _ _ _ _ _ _)).once
  | proposeAppend =>
    obtain ⟨cmd, found, rfl⟩ := Option.map_eq_some_iff.1 taken
    exact moves_proposeAppend leads (client cmd (Option.mem_toList.2 found))
  | advance id =>
    obtain ⟨_, rfl⟩ := of_guard taken
    exact moves_tryAdvanceCommitIndex id
  | apply id =>
    refine moves_applyStep (fun p data due => ?_) taken
    have no := plain p
    unfold NoCompaction at no
    dsimp only at no
    rw [due] at no
    exact no
  | install => exact moves_installStep taken
  | restart id =>
    cases taken
    exact (Silent.restart id).once

theorem Moves.invariant {Inv : Cluster F → Prop} (moves : Moves L m s s')
    (keep : ∀ s s', Inv s → Move L m s s' → Inv s') (inv : Inv s) : Inv s' := by
  induction moves with
  | refl => exact inv
  | tail _ move ih => exact keep _ _ ih move

end

end TransactionManager.Raft
