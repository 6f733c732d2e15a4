import TransactionManager.Lib.Acyclic
import TransactionManager.Lib.GoMap

/-!
# The wait-for graph

`internal/deadlock/graph.go`. The set of nodes that a node waits for is a list without
repetitions. A search of the detector may meet the nodes and the edges of each in any order.
-/

namespace TransactionManager.Deadlock
open Lib List GoMap

structure WaitForGraph where
  edges : GoMap Nat (List Nat) := ∅

namespace WaitForGraph

/-- `g.edges[v]`; a node that is not in the map waits for nobody. -/
def successors (g : WaitForGraph) (v : Nat) : List Nat := (g.edges.get v).getD []

/-- `AddEdge`. The node waited for is entered too. -/
def addEdge (g : WaitForGraph) (src dst : Nat) : WaitForGraph :=
  let edges := g.edges.set src ((g.successors src).insert dst)
  { edges := if (edges.get dst).isNone then edges.set dst [] else edges }

/-- `RemoveEdges`: edges that end in the node stay. -/
def removeEdges (g : WaitForGraph) (txnID : Nat) : WaitForGraph := { edges := g.edges.delete txnID }

variable {g : WaitForGraph} {a b src dst : Nat}

theorem successors_addEdge (g : WaitForGraph) (src dst a : Nat) : (g.addEdge src dst).successors a =
    if a = src then (g.successors src).insert dst else g.successors a := by
  unfold addEdge
  generalize (g.successors src).insert dst = targets
  simp only [successors]
  by_cases free : ((g.edges.set src targets).get dst).isNone = true
  · rw [if_pos free, get_set]
    rw [get_set] at free
    split
    · rename_i same
      subst same
      split at free
      · cases free
      · rename_i other
        rw [if_neg other, Option.isNone_iff_eq_none.1 free]
        rfl
    · rw [get_set]
      split <;> rfl
  · rw [if_neg free, get_set]
    split <;> rfl

theorem mem_successors_addEdge : b ∈ (g.addEdge src dst).successors a ↔ a = src ∧ b = dst ∨ b ∈ g.successors a := by
  rw [successors_addEdge]
  split
  · rename_i own
    subst own
    simp [mem_insert_iff]
  · rename_i own
    simp [own]

theorem mem_successors_foldl (dsts : List Nat) : b ∈ (dsts.foldl (fun g dst => g.addEdge src dst) g).successors a ↔
      a = src ∧ b ∈ dsts ∨ b ∈ g.successors a := by
  induction dsts generalizing g with
  | nil => simp
  | cons dst dsts ih =>
    rw [foldl_cons, ih, mem_successors_addEdge, mem_cons]
    tauto

theorem successors_removeEdges (g : WaitForGraph) (t a : Nat) :
    (g.removeEdges t).successors a = if a = t then [] else g.successors a := by
  simp only [removeEdges, successors, get_delete]
  split <;> rfl

/-- An order in which `range` meets the nodes of the graph and the edges of each. -/
structure Iteration (g : WaitForGraph) extends Listing Nat where
  vertices_perm : vertices.Perm g.edges.keys
  succ_perm : ∀ v, (succ v).Perm (g.successors v)

instance (g : WaitForGraph) : Inhabited g.Iteration where
  default :=
    { vertices := g.edges.keys
      succ := g.successors
      succ_nil v unknown := by
        rw [mem_keys_iff, not_exists] at unknown
        rw [successors, Option.eq_none_iff_forall_ne_some.2 unknown, Option.getD_none]
      vertices_perm := .refl _
      succ_perm _ := .refl _ }

def selectVictim (cycle : List Nat) : Nat := cycle.foldl max 0

/-- `FindCycle`. The gray nodes are the path of the search, as `parent` leads back from the last of them. -/
def findCycle (g : WaitForGraph) (o : g.Iteration) : Option (Nat × List Nat) :=
  match o.search [] [] o.vertices with
  | .ok _ => none
  | .error (start, path) =>
    let cycle := (path.takeWhile (· ≠ start)).reverse ++ [start, start]
    some (selectVictim cycle, cycle)

/-- The search finds nothing only where no transaction waits for itself, and what it reports is a cycle, with the node
where it closes twice at its end. The victim is the youngest on it. -/
theorem findCycle_exact (g : WaitForGraph) (o : g.Iteration) :
    match g.findCycle o with
    | none => Acyclic fun a b => b ∈ g.successors a
    | some (victim, cycle) => (victim ∈ cycle ∧ ∀ t ∈ cycle, t ≤ victim) ∧ ∃ start nodes,
        cycle = nodes ++ [start, start] ∧ IsChain (fun a b => b ∈ g.successors a) (start :: nodes ++ [start]) := by
  have exact := o.search_exact
  have edges : flip o.Succ = fun a b => b ∈ g.successors a := by
    funext a b
    exact propext (o.succ_perm a).mem_iff
  rw [edges] at exact
  unfold findCycle
  cases found : o.search [] [] o.vertices with
  | ok done => rwa [found] at exact
  | error back =>
    rw [found] at exact
    refine ⟨?_, back.1, _, rfl, exact⟩
    rw [← max?_eq_some_iff]
    cases (back.2.takeWhile (· ≠ back.1)).reverse <;> simp [selectVictim, max?_cons', -max?_cons]

end WaitForGraph

end TransactionManager.Deadlock
