import TransactionManager.Raft.Move

/-!
# One node and what is committed

A node as its cluster sees it: entries are appended to its log and cut off its end, its commit index
grows, snapshots arrive, its apply loop and the handlers of the snapshots take their steps, and its
process ends and starts again. `chosen` is the sequence of entries that the cluster commits. The
other nodes keep to it: an index that is known to be committed is not cut off, what is appended or
committed there is the chosen entry, and the snapshot of an index is one of the state after the
entries up to it.
-/

namespace TransactionManager.Raft
open Lib Option Cluster

/-- The state after the first `k` committed entries. -/
def FSM.effects (F : FSM) (chosen : Nat → Entry) : Nat → F.State
  | 0 => F.seed
  | k + 1 => F.apply (chosen (k + 1)) (F.effects chosen k)

/-- A node, the largest index it has known to be committed, in whichever process, and the snapshots sent to it. -/
structure NodeRun (F : FSM) where
  node : Node F := {}
  settled : Nat := 0
  sent : List (InstallSnapshotArgs F) := []

/-- One step. `deliver` is the arrival of a snapshot, `install` a step of the handler of this number. -/
inductive NodeAction where
  | append (e : Entry)
  | truncateAfter (index : Nat)
  | commit (index : Nat)
  | apply
  | deliver (term : Nat) (leader : NodeID) (index snapshotTerm : Nat)
  | install (handler : Nat)
  | restart
  deriving DecidableEq

variable {F : FSM}

namespace NodeRun

def cluster (s : NodeRun F) : Cluster F where
  nodes _ := s.node
  calls := s.sent.map fun args => ⟨[], [], .install args⟩

def setNode (s : NodeRun F) (n : Node F) : NodeRun F := { s with node := n }

def apply (s : NodeRun F) : Option (NodeRun F) := (s.cluster.applyStep []).map fun c => s.setNode (c.nodes [])

def install (s : NodeRun F) (handler : Nat) : Option (NodeRun F) := (s.cluster.installStep [] handler).map fun c =>
    { s.setNode (c.nodes []) with settled := max s.settled (c.nodes []).commitIndex }

def next (chosen : Nat → Entry) (s : NodeRun F) : NodeAction → Option (NodeRun F)
  | .append e =>
    match s.node.log.lastIndex with
    -- the end of an empty log is a panic
    | none => some (s.setNode s.node.restart)
    | some last =>
      if e.index = last + 1 ∧ (e.index ≤ s.settled → e = chosen e.index) then
        some (s.setNode (s.node.extend e))
      else none
  | .truncateAfter index =>
    if s.settled ≤ index then some (s.setNode { s.node with log := s.node.log.truncateAfter index }) else none
  | .commit index =>
    -- only the end of the log is looked at, not whether everything before it is there
    if s.node.commitIndex < index ∧ (∃ last ∈ s.node.log.lastIndex, index ≤ last) ∧
        ∀ j ∈ List.range' (s.node.commitIndex + 1) (index - s.node.commitIndex),
          ∀ e ∈ s.node.log.get j, e = chosen j then
      some { s.setNode { s.node with commitIndex := index } with settled := max s.settled index }
    else none
  | .apply => s.apply
  | .deliver term leader index snapshotTerm =>
    (F.snapshot (F.effects chosen index)).map fun data =>
      let args := ⟨term, leader, index, snapshotTerm, data⟩
      { s with
        node := (s.cluster.deliver s.sent.length ⟨[], [], .install args⟩).nodes []
        sent := s.sent ++ [args] }
  | .install handler => s.install handler
  | .restart => some (s.setNode s.node.restart)

end NodeRun

inductive ApplyStep (n : Node F) : Node F → Prop where
  | pick (phase : n.phase = .idle) (left : n.lastApplied < n.commitIndex) :
      ApplyStep n { n with phase := .picked (n.lastApplied + 1) }
  | stall (index : Nat) (phase : n.phase = .picked index) (missing : n.log.get index = none) :
      ApplyStep n { n with phase := .idle }
  | pass (index : Nat) (e : Entry) (phase : n.phase = .picked index) (found : n.log.get index = some e) :
      ApplyStep n { n with fsm := F.apply e n.fsm, phase := .applied index }
  | store (index : Nat) (next : ApplyPhase F) (phase : n.phase = .applied index) (due : next = .due ∨ next = .idle) :
      ApplyStep n { n with lastApplied := index, phase := next }
  | snapshot (next : ApplyPhase F) (phase : n.phase = .due) (taken : (∃ data, next = .taken data) ∨ next = .idle) :
      ApplyStep n { n with phase := next }
  | compact (data : F.Data) (phase : n.phase = .taken data) : ApplyStep n { n.compact data with phase := .idle }

def Node.applyStep (n : Node F) : Option (Node F) :=
  match n.phase with
  | .idle => if n.lastApplied < n.commitIndex then some { n with phase := .picked (n.lastApplied + 1) } else none
  | .picked index =>
    match n.log.get index with
    | none => some { n with phase := .idle }
    | some e => some { n with fsm := F.apply e n.fsm, phase := .applied index }
  | .applied index =>
    let n := { n with lastApplied := index }
    some { n with phase := if n.shouldSnapshot then .due else .idle }
  | .due => some { n with phase := match F.snapshot n.fsm with
      | some data => .taken data
      | none => .idle }
  | .taken data => some { n.compact data with phase := .idle }

theorem NodeRun.apply_eq (s : NodeRun F) : s.apply = s.node.applyStep.map s.setNode := by
  unfold NodeRun.apply applyStep Node.applyStep
  dsimp only [NodeRun.cluster]
  cases s.node.phase with
  | idle =>
    dsimp only
    split
    · rw [map_some, nodes_set_self, map_some]
    · rfl
  | picked index =>
    dsimp only
    cases s.node.log.get index with
    | none => rw [map_some, nodes_set_self, map_some]
    | some e =>
      exact congrArg (fun n => some (s.setNode n)) (nodes_set_self s.cluster [] _)
  | applied _ | taken _ => rw [map_some, nodes_set_self, map_some]
  | due =>
    cases F.snapshot s.node.fsm with
    | none | some data => rw [map_some, nodes_set_self, map_some]

theorem Node.applyStep_cases {n n' : Node F} (step : n.applyStep = some n') : ApplyStep n n' := by
  unfold Node.applyStep at step
  split at step
  · rename_i phase
    obtain ⟨left, rfl⟩ := of_guard step
    exact .pick phase left
  · rename_i index phase
    split at step
    · rename_i missing
      cases step
      exact .stall index phase missing
    · rename_i e found
      cases step
      exact .pass index e phase found
  · rename_i index phase
    cases step
    refine .store index _ phase ?_
    split
    · exact .inl rfl
    · exact .inr rfl
  · rename_i phase
    cases step
    refine .snapshot _ phase ?_
    split
    · exact .inl ⟨_, rfl⟩
    · exact .inr rfl
  · rename_i data phase
    cases step
    exact .compact data phase

theorem NodeRun.applyStep {s s' : NodeRun F} (taken : s.apply = some s') :
    ∃ n', s' = s.setNode n' ∧ ApplyStep s.node n' := by
  rw [s.apply_eq] at taken
  obtain ⟨n', step, rfl⟩ := map_eq_some_iff.1 taken
  exact ⟨n', rfl, Node.applyStep_cases step⟩

inductive InstallStep (s : NodeRun F) (handler : Nat) : Node F → Prop where
  | restore (c : Nat) (args : InstallSnapshotArgs F)
      (here : s.node.installing[handler]? = some (c, .restore)) (sent : s.sent[c]? = some args) :
      InstallStep s handler { s.node with
        fsm := (F.restore args.data s.node.fsm).2
        installing := s.node.installing.set handler
          (c, if (F.restore args.data s.node.fsm).1 then .update else .reply) }
  | update (c : Nat) (args : InstallSnapshotArgs F)
      (here : s.node.installing[handler]? = some (c, .update)) (sent : s.sent[c]? = some args) :
      InstallStep s handler { s.node.finishInstall args with
        installing := s.node.installing.set handler (c, .reply) }
  | reply (c : Nat) (here : s.node.installing[handler]? = some (c, .reply)) :
      InstallStep s handler { s.node with installing := s.node.installing.eraseIdx handler }

theorem NodeRun.request_cluster {s : NodeRun F} {c : Nat} {args : InstallSnapshotArgs F}
    (asked : s.cluster.request? c = some (.install args)) : s.sent[c]? = some args := by
  unfold request? NodeRun.cluster at asked
  simp only [List.getElem?_map, map_map, map_eq_some_iff, Function.comp_apply] at asked
  obtain ⟨args', found, eq⟩ := asked
  cases eq
  exact found

theorem NodeRun.installStep {s s' : NodeRun F} {handler : Nat} (taken : s.install handler = some s') :
    ∃ n', s' = { s.setNode n' with settled := max s.settled n'.commitIndex } ∧ InstallStep s handler n' := by
  obtain ⟨c, step, rfl⟩ := map_eq_some_iff.1 taken
  refine ⟨_, rfl, ?_⟩
  unfold Cluster.installStep at step
  dsimp only at step
  split at step
  · cases step
  rename_i k phase here
  split at step
  · rename_i args asked
    cases step
    exact .restore k args here (NodeRun.request_cluster asked)
  · rename_i args asked
    cases step
    exact .update k args here (NodeRun.request_cluster asked)
  · cases step
    exact .reply k here
  · cases step

/-- What the arrival of a snapshot leaves as it is. -/
structure Delivered (n n' : Node F) (c : Nat) : Prop where
  log : n'.log = n.log
  fsm : n'.fsm = n.fsm
  lastApplied : n'.lastApplied = n.lastApplied
  commitIndex : n'.commitIndex = n.commitIndex
  phase : n'.phase = n.phase
  installing : n'.installing = n.installing ∨ n'.installing = n.installing ++ [(c, .restore)]

theorem NodeRun.delivered (s : NodeRun F) (c : Nat) (args : InstallSnapshotArgs F) :
    Delivered s.node ((s.cluster.deliver c ⟨[], [], .install args⟩).nodes []) c := by
  unfold deliver
  dsimp only [Node.startInstall]
  split
  · rename_i n eq
    split at eq
    · cases eq
    · cases eq
      unfold Node.catchUp
      split
      · exact ⟨rfl, rfl, rfl, rfl, rfl, .inr rfl⟩
      · exact ⟨rfl, rfl, rfl, rfl, rfl, .inr rfl⟩
  · rename_i n eq
    split at eq
    · cases eq
      exact ⟨rfl, rfl, rfl, rfl, rfl, .inl rfl⟩
    · cases eq

def countingFSM : FSM where
  State := Nat
  Data := Nat
  seed := 0
  apply _ n := n + 1
  snapshot n := some n
  restore data _ := (true, data)

/-- After the sentinel every entry is an empty one of term 1. -/
def noops : Nat → Entry
  | 0 => dummy
  | k + 1 => { index := k + 1, term := 1 }

end TransactionManager.Raft
