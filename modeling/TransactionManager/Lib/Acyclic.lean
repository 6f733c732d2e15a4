import Mathlib.Data.Finset.Card
import Mathlib.Data.List.Chain
import Mathlib.Order.WellFounded

/-!
# Acyclic dependency graphs

A dependency graph is serializable when it has no cycle: every edge goes forward in one numbering
(`acyclic_of_lt`), or the edges that do not go from the end of one transaction to the start of the
next are anti-dependencies, and no two in a row lead to the first transaction to end
(`acyclic_of_no_pivot`). A depth-first search finds a cycle if there is one (`search_exact`).
-/

namespace TransactionManager.Lib
open List Relation

variable {α : Type*}

/-- No path of positive length leads from a vertex back to itself. -/
def Acyclic (r : α → α → Prop) : Prop := ∀ a, ¬ TransGen r a a

theorem acyclic_of_lt {r : α → α → Prop} (time : α → Nat) (mono : ∀ a b, r a b → time a < time b) :
    Acyclic r := by
  have path : ∀ a b, TransGen r a b → time a < time b := by
    intro a b h
    induction h with
    | single h => exact mono _ _ h
    | tail _ h ih => exact ih.trans (mono _ _ h)
  exact fun a h => (path a a h).false

theorem exists_pred_of_cycle {r : α → α → Prop} {a b : α}
    (out : TransGen r a b) (back : TransGen r b a) :
    ∃ p, r p b ∧ TransGen r a p ∧ TransGen r p a := by
  rcases TransGen.tail'_iff.1 out with ⟨p, reach, edge⟩
  rcases reflTransGen_iff_eq_or_transGen.1 reach with same | path
  · subst same
    exact ⟨p, edge, out.trans back, .trans (.single edge) back⟩
  · exact ⟨p, edge, path, .trans (.single edge) back⟩

/-- Of the transactions on a cycle take the first to end, `w`. Its predecessor `p` ended later, so their edge is an
anti-dependency and `p` started before `w` ended; so the predecessor of `p` did not end before `p` started, and that
edge is an anti-dependency too. -/
theorem acyclic_of_no_pivot {dep anti : α → α → Prop} {start finish : α → Nat}
    (lifetime : ∀ a b, dep a b ∨ anti a b → start a < finish a ∧ start b < finish b)
    (forward : ∀ a b, dep a b → finish a < start b) (overlap : ∀ a b, anti a b → start a < finish b)
    (nopivot : ∀ r p w, anti r p → anti p w → finish w ≤ finish r → finish w ≤ finish p → False) :
    Acyclic fun a b => dep a b ∨ anti a b := by
  intro a cycle
  let onCycle : α → Prop := fun b =>
    TransGen (fun a b => dep a b ∨ anti a b) a b ∧ TransGen (fun a b => dep a b ∨ anti a b) b a
  obtain ⟨w, ⟨outW, backW⟩, least⟩ := (measure finish).wf.has_min {b | onCycle b} ⟨a, cycle, cycle⟩
  have first : ∀ b, onCycle b → finish w ≤ finish b := fun b hb => not_lt.1 (least b hb)
  obtain ⟨p, edgeW, outP, backP⟩ := exists_pred_of_cycle outW backW
  obtain ⟨r, edgeP, outR, backR⟩ := exists_pred_of_cycle outP backP
  have lateP := first p ⟨outP, backP⟩
  have lateR := first r ⟨outR, backR⟩
  rcases edgeW with depW | antiW
  · have := forward _ _ depW
    have := (lifetime _ _ (.inl depW)).2
    omega
  · have := overlap _ _ antiW
    rcases edgeP with depP | antiP
    · have := forward _ _ depP
      omega
    · exact nopivot r p w antiP antiW lateR lateP

/-- A finite graph, in the order in which a search meets its vertices and the edges of each. -/
structure Listing (α : Type*) where
  vertices : List α
  succ : α → List α
  succ_nil : ∀ a ∉ vertices, succ a = []

namespace Listing
variable [DecidableEq α] (G : Listing α)

def Succ (b a : α) : Prop := b ∈ G.succ a

/-- Depth-first search of the vertices `todo`, with the path that led to them, last vertex first, and those that are
done. It ends at the first edge back into the path. -/
def search (path done : List α) : List α → Except (α × List α) (List α)
  | [] => .ok done
  | w :: todo =>
    if w ∈ path then .error (w, path)
    else if w ∈ done then search path done todo
    else match search (w :: path) done (G.succ w) with
      | .error back => .error back
      | .ok done => search path (w :: done) todo
termination_by todo => ((G.vertices.toFinset \ path.toFinset).card, todo.length)
decreasing_by
  · decreasing_tactic
  · rw [toFinset_cons, Finset.sdiff_insert]
    by_cases known : w ∈ G.vertices
    · exact .left _ _ (Finset.card_erase_lt_of_mem (by simp [*]))
    · rw [Finset.erase_eq_of_notMem (by simp [known]), G.succ_nil w known]
      exact .right _ (Nat.succ_pos _)
  · decreasing_tactic

/-- No path leads from a vertex that is done to a cycle. -/
theorem search_spec (path done todo : List α) (acc : ∀ a ∈ done, Acc G.Succ a)
    (chain : ∀ w ∈ todo, IsChain G.Succ (w :: path)) :
    match G.search path done todo with
    | .ok done' => ∀ a, a ∈ done' ∨ a ∈ todo → Acc G.Succ a
    | .error (w, path') => w ∈ path' ∧ IsChain G.Succ (w :: path') := by
  fun_induction search with
  | case1 => grind
  | case2 path done w todo back => exact ⟨back, chain w mem_cons_self⟩
  | case3 path done w todo new old ih =>
    have spec := ih acc fun v mem => chain v (mem_cons_of_mem _ mem)
    grind
  | case4 path done w todo new fresh back found ih =>
    have spec := ih acc fun v edge => .cons_cons edge (chain w mem_cons_self)
    rwa [found] at spec
  | case5 path done w todo new fresh done' found ih ih' =>
    have spec := ih acc fun v edge => .cons_cons edge (chain w mem_cons_self)
    rw [found] at spec
    have self : Acc G.Succ w := .intro w fun b edge => spec b (.inr edge)
    have rest := ih' (by grind) fun v mem => chain v (mem_cons_of_mem _ mem)
    grind

/-- A search of the whole graph finds that it has no cycle, or a cycle of it. -/
theorem search_exact : match G.search [] [] G.vertices with
    | .ok _ => Acyclic (flip G.Succ)
    | .error (w, path) => IsChain (flip G.Succ) (w :: (path.takeWhile (· ≠ w)).reverse ++ [w]) := by
  have spec := G.search_spec [] [] G.vertices (by simp) fun w _ => .singleton w
  split
  · rename_i found
    rw [found] at spec
    have wf : WellFounded G.Succ := by
      refine ⟨fun a => ?_⟩
      by_cases known : a ∈ G.vertices
      · exact spec a (.inr known)
      · exact ⟨a, fun b edge => by simp [Succ, G.succ_nil a known] at edge⟩
    exact fun a cycle => wf.transGen.irrefl.irrefl a (transGen_swap.2 cycle)
  · rename_i w _ found
    rw [found] at spec
    obtain ⟨since, before, rfl, new⟩ := eq_append_cons_of_mem spec.1
    have chain : IsChain G.Succ ((w :: since ++ [w]) ++ before) := by simpa using spec.2
    rw [takeWhile_append_of_pos (by grind), takeWhile_cons_of_neg (by simp), append_nil, ← isChain_reverse]
    simpa [flip] using chain.left_of_append

end Listing

end TransactionManager.Lib
