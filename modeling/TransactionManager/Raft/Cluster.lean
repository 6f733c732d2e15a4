import TransactionManager.Raft.Node
import TransactionManager.Lib.Run

/-!
# A Raft cluster

The nodes of a fixed membership and the network between them. A call has a number; its request
may reach the peer any number of times or never, every delivery adds an answer, and the
goroutine that made the call takes at most one answer to its own request, at any later time,
unless its process has ended. The clients' `Propose` calls, the timers and the apply loops of
the nodes interleave with this at their critical sections. A node that is down takes no steps
until it restarts. The history records who was elected and what was passed to the FSM.
-/

namespace TransactionManager.Raft

/-- The common membership. `main` refuses an empty ID. -/
structure Membership where
  ids : List NodeID
  nodup : ids.Nodup
  named : [] ∉ ids

/-- `peers` of a node: `main` takes the node itself out. -/
def Membership.peers (m : Membership) (id : NodeID) : List NodeID := m.ids.erase id

inductive Request (F : FSM) where
  | vote (args : RequestVoteArgs)
  | append (args : AppendEntriesArgs)
  | install (args : InstallSnapshotArgs F)

inductive Reply where
  | vote (reply : RequestVoteReply)
  | append (reply : AppendEntriesReply)
  | install (reply : InstallSnapshotReply)
  deriving DecidableEq

structure Call (F : FSM) where
  src : NodeID
  dst : NodeID
  request : Request F

/-- A reply to the call of this number. No node sees `cut`: the delivery met a conflicting
entry and cut the log. -/
structure Answer where
  call : Nat
  reply : Reply
  cut : Bool := false
  deriving DecidableEq

inductive Event where
  | elected (id : NodeID) (term : Nat)
  | applied (id : NodeID) (e : Entry)
  deriving DecidableEq

/-- The nodes, every call made and every answer given so far, and the history. -/
structure Cluster (F : FSM) where
  nodes : NodeID → Node F := fun _ => {}
  calls : List (Call F) := []
  answers : List Answer := []
  history : List Event := []

/-- One step of a node, a goroutine or the network. -/
inductive Action where
  | timeout (id : NodeID)
  | replicate (id peer : NodeID)
  | deliver (call : Nat)
  | receive (call answer : Nat)
  | proposeTest (id : NodeID) (cmd : Command)
  | proposeAppend (id : NodeID) (proposal : Nat)
  | advance (id : NodeID)
  | apply (id : NodeID)
  | install (id : NodeID) (handler : Nat)
  | restart (id : NodeID)
  deriving DecidableEq

variable {F : FSM}

/-- The node that goes on: a panic ends its process. -/
def Outcome.alive {α : Type} : Outcome F α → Node F
  | .done n _ => n
  | .panic n => n.restart

/-- The arguments of `AppendEntries` for a peer that lacks the entries from `nextIdx` on. -/
def Node.appendArgs (n : Node F) (id : NodeID) (nextIdx last : Nat) : AppendEntriesArgs where
  term := n.term
  leaderID := id
  prevLogIndex := nextIdx - 1
  prevLogTerm :=
    if nextIdx - 1 = 0 then 0
    else match n.log.get (nextIdx - 1) with
      | some e => e.term
      | none => if nextIdx - 1 = n.snapshotIndex then n.snapshotTerm else 0
  entries := n.log.range nextIdx last
  leaderCommit := n.commitIndex

/-- `replicateToPeer` up to its send; the result is `none` when it returns without. -/
def Node.replicateToPeer (n : Node F) (id peer : NodeID) : Outcome F (Option (Request F)) :=
  if n.role ≠ .leader then .done n none
  else match (n.nextIndex.get peer).or (n.log.lastIndex.map (· + 1)) with
    | none => .panic n
    | some nextIdx =>
      if nextIdx ≤ n.snapshotIndex then
        .done n (n.snapshotData.map fun data =>
          .install ⟨n.term, id, n.snapshotIndex, n.snapshotTerm, data⟩)
      else match n.log.lastIndex with
        | none => .panic n
        | some last => .done n (some (.append (n.appendArgs id nextIdx last)))

namespace Cluster

def set (s : Cluster F) (id : NodeID) (n : Node F) : Cluster F := { s with nodes := Function.update s.nodes id n }

/-- Make calls; their goroutines wait for the replies. -/
def send (s : Cluster F) (id : NodeID) (calls : List (Call F)) : Cluster F :=
  { s.set id { s.nodes id with
      waiting := (s.nodes id).waiting ++ List.range' s.calls.length calls.length } with
    calls := s.calls ++ calls }

def answer (s : Cluster F) (a : Answer) : Cluster F := { s with answers := s.answers ++ [a] }

def record (s : Cluster F) (e : Event) : Cluster F := { s with history := s.history ++ [e] }

/-- A handler ends with a reply or a panic. -/
def respond (s : Cluster F) (id : NodeID) {α : Type} (answer : α → Answer) : Outcome F α → Cluster F
  | .done n result => (s.set id n).answer (answer result)
  | .panic n => s.set id n.restart

def becomeLeader (s : Cluster F) (m : Membership) (id : NodeID) : Cluster F :=
  (s.set id ((s.nodes id).becomeLeader (m.peers id)).alive).record (.elected id (s.nodes id).term)

/-- The requests that `becomeCandidate` sends. -/
def ballots (s : Cluster F) (m : Membership) (id : NodeID) (lastIndex lastTerm : Nat) : List (Call F) :=
  (m.peers id).map fun peer => ⟨id, peer, .vote ((s.nodes id).voteArgs id lastIndex lastTerm)⟩

def becomeCandidate (s : Cluster F) (m : Membership) (id : NodeID) : Cluster F :=
  let s := s.set id ((s.nodes id).campaign id)
  match (s.nodes id).log.lastIndex, (s.nodes id).log.lastTerm with
  | some lastIndex, some lastTerm =>
    let s := s.send id (s.ballots m id lastIndex lastTerm)
    if m.peers id = [] ∧ Node.majority (m.peers id) ≤ (s.nodes id).votesReceived then
      s.becomeLeader m id
    else s
  | _, _ => s.set id (s.nodes id).restart

/-- A copy of a request is handled by its peer. -/
def deliver (s : Cluster F) (c : Nat) (call : Call F) : Cluster F :=
  let n := s.nodes call.dst
  match call.request with
  | .vote args =>
    s.respond call.dst (fun reply => { call := c, reply := .vote reply }) (n.handleRequestVote args)
  | .append args =>
    s.respond call.dst (fun reply => { call := c, reply := .append reply
                                       cut := n.accepts args && n.log.cuts args.entries })
      (n.handleAppendEntries args)
  | .install args =>
    match n.startInstall args with
    | (n, true) => s.set call.dst { n with installing := n.installing ++ [(c, .restore)] }
    | (n, false) => (s.set call.dst n).answer { call := c, reply := .install ⟨n.term⟩ }

/-- The goroutine of a call gets a reply. -/
def receive (s : Cluster F) (m : Membership) (c : Nat) (call : Call F) (reply : Reply) : Cluster F :=
  let n := (s.nodes call.src).stopWaiting c
  match call.request, reply with
  | .vote args, .vote reply =>
    let (n, wins) := n.receiveVote (m.peers call.src) args reply
    if wins then (s.set call.src n).becomeLeader m call.src else s.set call.src n
  | .append args, .append reply =>
    s.set call.src (n.receiveAppend (m.peers call.src) call.dst args reply).alive
  | .install args, .install reply => s.set call.src (n.receiveInstall call.dst args reply)
  -- a reply of another type does not decode
  | _, _ => s.set call.src n

def applyStep (s : Cluster F) (id : NodeID) : Option (Cluster F) :=
  let n := s.nodes id
  match n.phase with
  | .idle =>
    if n.lastApplied < n.commitIndex then
      some (s.set id { n with phase := .picked (n.lastApplied + 1) })
    else none
  | .picked index =>
    match n.log.get index with
    | none => some (s.set id { n with phase := .idle })
    | some e =>
      some ((s.set id { n with fsm := F.apply e n.fsm, phase := .applied index }).record (.applied id e))
  | .applied index =>
    let n := { n with lastApplied := index }
    some (s.set id { n with phase := if n.shouldSnapshot then .due else .idle })
  | .due =>
    some (s.set id { n with phase := match F.snapshot n.fsm with
      | some data => .taken data
      | none => .idle })
  | .taken data => some (s.set id { n.compact data with phase := .idle })

def request? (s : Cluster F) (c : Nat) : Option (Request F) := (s.calls[c]?).map (·.request)

/-- One step of a goroutine in `handleInstallSnapshot`. -/
def installStep (s : Cluster F) (id : NodeID) (handler : Nat) : Option (Cluster F) :=
  let n := s.nodes id
  match n.installing[handler]? with
  | none => none
  | some (c, phase) =>
    match phase, s.request? c with
    | .restore, some (.install args) =>
      let (restored, fsm) := F.restore args.data n.fsm
      some (s.set id { n with
        fsm, installing := n.installing.set handler (c, if restored then .update else .reply) })
    | .update, some (.install args) =>
      some (s.set id { n.finishInstall args with installing := n.installing.set handler (c, .reply) })
    | .reply, _ =>
      some ((s.set id { n with installing := n.installing.eraseIdx handler }).answer
        { call := c, reply := .install ⟨n.term⟩ })
    | _, _ => none

def next (m : Membership) (s : Cluster F) : Action → Option (Cluster F)
  | .timeout id =>
    if id ∈ m.ids ∧ (s.nodes id).role ≠ .leader then some (s.becomeCandidate m id) else none
  | .replicate id peer =>
    if peer ∈ m.peers id then
      match (s.nodes id).replicateToPeer id peer with
      | .done _ (some request) => some (s.send id [⟨id, peer, request⟩])
      | .done _ none => some s
      | .panic n => some (s.set id n.restart)
    else none
  | .deliver c => (s.calls[c]?).map fun call => s.deliver c call
  | .receive c k =>
    match s.calls[c]?, s.answers[k]? with
    | some call, some a =>
      if a.call = c ∧ c ∈ (s.nodes call.src).waiting then some (s.receive m c call a.reply) else none
    | _, _ => none
  | .proposeTest id cmd =>
    if (s.nodes id).role = .leader then
      some (s.set id { s.nodes id with proposing := (s.nodes id).proposing ++ [cmd] })
    else none
  | .proposeAppend id proposal =>
    let n := s.nodes id
    (n.proposing[proposal]?).map fun cmd =>
      s.set id ({ n with proposing := n.proposing.eraseIdx proposal }.proposeAppend cmd).alive
  | .advance id =>
    if m.peers id = [] then
      some (s.set id ((s.nodes id).tryAdvanceCommitIndex (m.peers id)).alive)
    else none
  | .apply id => s.applyStep id
  | .install id handler => s.installStep id handler
  | .restart id => some (s.set id (s.nodes id).restart)

end Cluster

end TransactionManager.Raft
