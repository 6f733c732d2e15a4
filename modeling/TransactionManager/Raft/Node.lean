import TransactionManager.Raft.Log
import TransactionManager.Lib.GoMap

/-!
# A Raft node

`internal/raft/node.go`: the state of a node and its critical sections under `n.mu`, each as
a function. A panic (the log end of an empty log) ends the process; what it had saved is kept.
Timers only decide when a step is taken and are left out, as are the leader a node knows of
and the channels of pending proposals. Disk writes succeed.
-/

namespace TransactionManager.Raft
open Lib TransactionManager.Types

/-- `NodeID`. No node has the empty one, `main` refuses it. -/
abbrev NodeID := GoString

inductive Role where
  | follower | candidate | leader
  deriving DecidableEq

/-- The interface `FSM`; `seed` is the state a new process starts it in. -/
structure FSM where
  State : Type
  Data : Type
  seed : State
  apply : Entry → State → State
  snapshot : State → Option Data
  restore : Data → State → Bool × State

structure PersistentState where
  currentTerm : Nat := 0
  votedFor : NodeID := []
  deriving DecidableEq

structure RequestVoteArgs where
  term : Nat
  candidateID : NodeID
  lastLogIndex : Nat
  lastLogTerm : Nat
  deriving DecidableEq

structure RequestVoteReply where
  term : Nat
  voteGranted : Bool := false
  deriving DecidableEq

structure AppendEntriesArgs where
  term : Nat
  leaderID : NodeID
  prevLogIndex : Nat
  prevLogTerm : Nat
  entries : List Entry
  leaderCommit : Nat
  deriving DecidableEq

structure AppendEntriesReply where
  term : Nat
  success : Bool := false
  conflictTerm : Nat := 0
  conflictIndex : Nat := 0
  deriving DecidableEq

structure InstallSnapshotArgs (F : FSM) where
  term : Nat
  leaderID : NodeID
  lastIncludedIndex : Nat
  lastIncludedTerm : Nat
  data : F.Data

structure InstallSnapshotReply where
  term : Nat
  deriving DecidableEq

/-- Where the goroutine of `applyLoop` stands. -/
inductive ApplyPhase (F : FSM) where
  | idle
  | picked (index : Nat)
  | applied (index : Nat)
  | due
  | taken (data : F.Data)

/-- Where a goroutine in `handleInstallSnapshot` stands after its first critical section. -/
inductive InstallPhase where
  | restore | update | reply
  deriving DecidableEq

/-- `Node`, with the goroutines of its process: the calls whose replies they wait for, the `Propose` calls between
their test and their append, the apply loop, and the snapshots being installed. -/
structure Node (F : FSM) where
  term : Nat := 0
  votedFor : NodeID := []
  role : Role := .follower
  log : RaftLog := {}
  saved : PersistentState := {}
  commitIndex : Nat := 0
  lastApplied : Nat := 0
  nextIndex : GoMap NodeID Nat := ∅
  matchIndex : GoMap NodeID Nat := ∅
  votesReceived : Nat := 0
  snapshotIndex : Nat := 0
  snapshotTerm : Nat := 0
  snapshotData : Option F.Data := none
  fsm : F.State := F.seed
  waiting : List Nat := []
  proposing : List Command := []
  phase : ApplyPhase F := .idle
  installing : List (Nat × InstallPhase) := []

/-- How a critical section ends. -/
inductive Outcome (F : FSM) (α : Type) where
  | done (n : Node F) (result : α)
  | panic (n : Node F)

variable {F : FSM}

namespace Node

/-- A new process on the data directory of the old one: `NewNode`. -/
def restart (n : Node F) : Node F where
  term := n.saved.currentTerm
  votedFor := n.saved.votedFor
  saved := n.saved
  log := n.log.reopen

def persistState (n : Node F) : Node F := { n with saved := ⟨n.term, n.votedFor⟩ }

def becomeFollower (n : Node F) (term : Nat) : Node F := { n with role := .follower, term, votedFor := [] }.persistState

/-- The state part of `becomeCandidate`. -/
def campaign (n : Node F) (id : NodeID) : Node F :=
  { n with
    role := .candidate, term := n.term + 1, votedFor := id, votesReceived := 1 }.persistState

/-- The arguments that `becomeCandidate` sends. -/
def voteArgs (n : Node F) (id : NodeID) (lastIndex lastTerm : Nat) : RequestVoteArgs :=
  ⟨n.term, id, lastIndex, lastTerm⟩

/-- A majority of the node and its peers. -/
def majority (peers : List NodeID) : Nat := (1 + peers.length) / 2 + 1

/-- A map with one value for every peer. -/
def forPeers (peers : List NodeID) (v : Nat) : GoMap NodeID Nat := peers.foldl (fun m peer => m.set peer v) ∅

/-- The state part of `becomeLeader`. -/
def lead (n : Node F) (peers : List NodeID) (last : Nat) : Node F :=
  { n with
    role := .leader
    nextIndex := forPeers peers (last + 1)
    matchIndex := forPeers peers 0
    log := n.log.append { index := last + 1, term := n.term } }

def becomeLeader (n : Node F) (peers : List NodeID) : Outcome F Unit :=
  match n.log.lastIndex with
  | none => .panic { n with role := .leader }
  | some last => .done (n.lead peers last) ()

/-- A handler that sees a higher term steps down to it. -/
def catchUp (n : Node F) (term : Nat) : Node F := if n.term < term then n.becomeFollower term else n

/-- A vote is saved before it is given. -/
def vote (n : Node F) (candidate : NodeID) : Node F := { n with votedFor := candidate }.persistState

/-- The part of `handleRequestVote` after the terms. -/
def decideVote (n : Node F) (args : RequestVoteArgs) : Outcome F RequestVoteReply :=
  match n.log.lastTerm, n.log.lastIndex with
  | some lastTerm, some lastIndex =>
    if (n.votedFor = [] ∨ n.votedFor = args.candidateID) ∧ (lastTerm < args.lastLogTerm ∨
        args.lastLogTerm = lastTerm ∧ lastIndex ≤ args.lastLogIndex) then
      .done (n.vote args.candidateID) { term := n.term, voteGranted := true }
    else .done n { term := n.term }
  | _, _ => .panic n

def handleRequestVote (n : Node F) (args : RequestVoteArgs) : Outcome F RequestVoteReply :=
  if args.term < n.term then .done n { term := n.term }
  else (n.catchUp args.term).decideVote args

/-- The goroutine of a call has its reply. -/
def stopWaiting (n : Node F) (c : Nat) : Node F := { n with waiting := n.waiting.erase c }

def count (n : Node F) : Node F := { n with votesReceived := n.votesReceived + 1 }

/-- What `becomeCandidate` does with the reply to one of its requests; whether the node wins. -/
def receiveVote (n : Node F) (peers : List NodeID) (args : RequestVoteArgs)
    (reply : RequestVoteReply) : Node F × Bool :=
  if n.term < reply.term then (n.becomeFollower reply.term, false)
  else if n.role ≠ .candidate ∨ n.term ≠ args.term then (n, false)
  else if reply.voteGranted then (n.count, majority peers ≤ n.count.votesReceived)
  else (n, false)

/-- The test of `PrevLogIndex` and `PrevLogTerm` in `handleAppendEntries`. -/
def prevMatches (n : Node F) (args : AppendEntriesArgs) : Bool :=
  args.prevLogIndex = 0 ∨ (n.log.get args.prevLogIndex).any (·.term = args.prevLogTerm)

/-- A candidate gives up when it hears from a leader of its term. -/
def yield (n : Node F) : Node F := if n.role = .candidate then { n with role := .follower } else n

/-- `handleAppendEntries` gets to its append loop. -/
def accepts (n : Node F) (args : AppendEntriesArgs) : Bool := n.term ≤ args.term ∧ n.prevMatches args

/-- The reply that gives the leader its hint. -/
def conflictReply (n : Node F) (args : AppendEntriesArgs) (lastIndex : Nat) : AppendEntriesReply :=
  match n.log.get args.prevLogIndex with
  | none => { term := n.term, conflictIndex := lastIndex + 1 }
  | some prev =>
    { term := n.term, conflictTerm := prev.term
      conflictIndex := n.log.firstOfTerm prev.term args.prevLogIndex (lastIndex + 1) }

/-- The append loop of `handleAppendEntries`. -/
def store (n : Node F) (es : List Entry) : Node F := { n with log := n.log.storeEntries es }

/-- The end of `handleAppendEntries`: the commit index and the reply. -/
def followCommit (n : Node F) (leaderCommit : Nat) : Outcome F AppendEntriesReply :=
  if n.commitIndex < leaderCommit then
    match n.log.lastIndex with
    | none => .panic n
    | some last => .done { n with commitIndex := min leaderCommit last } { term := n.term, success := true }
  else .done n { term := n.term, success := true }

/-- The part of `handleAppendEntries` after the terms. -/
def takeEntries (n : Node F) (args : AppendEntriesArgs) : Outcome F AppendEntriesReply :=
  if n.prevMatches args then (n.store args.entries).followCommit args.leaderCommit
  else match n.log.lastIndex with
    | none => .panic n
    | some last => .done n (n.conflictReply args last)

def handleAppendEntries (n : Node F) (args : AppendEntriesArgs) : Outcome F AppendEntriesReply :=
  if args.term < n.term then .done n { term := n.term }
  else (n.catchUp args.term).yield.takeEntries args

/-- The entries that peers are known to have, in `tryAdvanceCommitIndex`. -/
def replicated (n : Node F) (peers : List NodeID) (index : Nat) : Bool := (n.log.get index).any (·.term = n.term) ∧
    majority peers ≤ 1 + (peers.filter fun p => index ≤ (n.matchIndex.get p).getD 0).length

def tryAdvanceCommitIndex (n : Node F) (peers : List NodeID) : Outcome F Unit :=
  if n.role ≠ .leader then .done n ()
  else match n.log.lastIndex with
    | none => .panic n
    | some last =>
      match (List.range' (n.commitIndex + 1) (last - n.commitIndex)).reverse.find? (n.replicated peers) with
      | none => .done n ()
      | some index => .done { n with commitIndex := index } ()

/-- A peer is known to have the entries of a request. -/
def matched (n : Node F) (peer : NodeID) (args : AppendEntriesArgs) : Node F :=
  let stored := max (args.prevLogIndex + args.entries.length) ((n.matchIndex.get peer).getD 0)
  { n with
    matchIndex := n.matchIndex.set peer stored
    nextIndex := n.nextIndex.set peer (stored + 1) }

/-- The next request to a peer starts at another index. -/
def backtrack (n : Node F) (peer : NodeID) (index : Nat) : Node F := { n with nextIndex := n.nextIndex.set peer index }

/-- What `replicateToPeer` does with the reply to `AppendEntries`. -/
def receiveAppend (n : Node F) (peers : List NodeID) (peer : NodeID) (args : AppendEntriesArgs)
    (reply : AppendEntriesReply) : Outcome F Unit :=
  if n.term < reply.term then .done (n.becomeFollower reply.term) ()
  else if n.role ≠ .leader ∨ n.term ≠ args.term then .done n ()
  else if reply.success then (n.matched peer args).tryAdvanceCommitIndex peers
  else if 0 < reply.conflictIndex then .done (n.backtrack peer reply.conflictIndex) ()
  else if 0 < args.prevLogIndex then .done (n.backtrack peer args.prevLogIndex) ()
  else .done n ()

/-- What `replicateToPeer` does with the reply to `InstallSnapshot`. -/
def receiveInstall (n : Node F) (peer : NodeID) (args : InstallSnapshotArgs F)
    (reply : InstallSnapshotReply) : Node F :=
  if n.term < reply.term then n.becomeFollower reply.term
  else if n.role = .leader then
    { n.backtrack peer (args.lastIncludedIndex + 1) with
      matchIndex := n.matchIndex.set peer args.lastIncludedIndex }
  else n

def extend (n : Node F) (e : Entry) : Node F := { n with log := n.log.append e }

/-- The locked part of `Propose`. -/
def proposeAppend (n : Node F) (cmd : Command) : Outcome F Unit :=
  match n.log.lastIndex with
  | none => .panic n
  | some last => .done (n.extend ⟨last + 1, n.term, cmd⟩) ()

/-- The first critical section of `handleInstallSnapshot`; whether it goes on. -/
def startInstall (n : Node F) (args : InstallSnapshotArgs F) : Node F × Bool :=
  if args.term < n.term then (n, false)
  else (n.catchUp args.term, true)

/-- The last critical section of `handleInstallSnapshot`. -/
def finishInstall (n : Node F) (args : InstallSnapshotArgs F) : Node F :=
  { n with
    log := n.log.truncateBefore args.lastIncludedIndex
    snapshotIndex := args.lastIncludedIndex
    snapshotTerm := args.lastIncludedTerm
    commitIndex := max n.commitIndex args.lastIncludedIndex
    lastApplied := max n.lastApplied args.lastIncludedIndex }

/-- The locked part of `triggerSnapshot`. -/
def compact (n : Node F) (data : F.Data) : Node F :=
  { n with
    snapshotIndex := n.lastApplied
    snapshotTerm := ((n.log.get n.lastApplied).map (·.term)).getD 0
    snapshotData := some data
    log := n.log.truncateBefore n.lastApplied }

/-- A snapshot is due every 1000 entries. The subtraction wraps. -/
def shouldSnapshot (n : Node F) : Bool := 1000 ≤ (n.lastApplied + 2 ^ 64 - n.snapshotIndex) % 2 ^ 64

end Node

end TransactionManager.Raft
