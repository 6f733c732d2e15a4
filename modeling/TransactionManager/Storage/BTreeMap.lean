import TransactionManager.Storage.BTreePages
import TransactionManager.Lib.GoMap
import TransactionManager.Lib.Run
import Mathlib.Data.List.Perm.Subperm

/-!
# The B+ tree as an ordered map

A tree that `NewBTree` made on an empty heap file, under any calls, over a reliable page store.
`Indexes` is the invariant: the pages below the root form one tree over all keys, whose entries are
those of the map. `Search`, `RangeAsc`, `AllKeys` and `Count` then answer as the map does.
-/

namespace TransactionManager.Storage
open Lib TransactionManager.Types BPlus List GoMap Option BTreeNode

namespace BTree
open PageProg
variable {s : PageStore} {t lo hi : GoString} {p d fuel : Nat} {a b : Seam GoString}
  {es es' : List (GoString × RowLocation)} {ps : List Nat}

/-- The range of `RangeAsc`: an empty bound is no bound. -/
def InRange (lo hi key : GoString) : Prop := (lo = [] ∨ ¬ key < lo) ∧ (hi = [] ∨ ¬ hi < key)

instance (lo hi key : GoString) : Decidable (InRange lo hi key) := inferInstanceAs (Decidable (_ ∧ _))

theorem findLeafPage_branch {keys : List GoString} {children : List Nat} (here : s.Holds t p (.branch keys children)) :
    (findLeafPage t lo (fuel + 1) p).run s = (findLeafPage t lo fuel
      (if lo = [] then children.getD 0 0 else internalFindChild keys children lo)).run s := by
  rw [findLeafPage.eq_2, run_bind, run_readNode here]
  rfl

/-- Without a lower bound `findLeafPage` ends at the first leaf. -/
theorem run_findLeafPage_nil (sub : Subtree (s.Holds t) d a b p es ps) (enough : d < fuel) :
    (findLeafPage t [] fuel p).run s = (.ok a.leaf, s) := by
  obtain ⟨fuel, rfl⟩ : ∃ f, fuel = f + 1 := ⟨fuel - 1, by omega⟩
  induction d generalizing a b p es ps fuel with
  | zero =>
    obtain ⟨rfl, rfl, here, -⟩ := sub
    rw [findLeafPage.eq_2, run_bind, run_readNode here]
    rfl
  | succ d ih =>
    obtain ⟨keys, cs, qs, here, bounds, row, rfl⟩ := sub
    obtain ⟨fuel, rfl⟩ : ∃ f, fuel = f + 1 := ⟨fuel - 1, by omega⟩
    rw [findLeafPage_branch here, if_pos rfl]
    cases row with
    | nil => cases bounds
    | cons first _ => exact ih first fuel (by omega)

/-- With one it ends at a leaf that has only smaller keys on its left. The chain of leaves goes on from
there. -/
theorem run_findLeafPage (sub : Subtree (s.Holds t) d a b p es ps) (low : a.bound.Le lo)
    (high : ¬ b.bound.Le lo) (some : lo ≠ []) (enough : d < fuel) :
    ∃ q es₁ es₂ n, (findLeafPage t lo fuel p).run s = (.ok q, s) ∧ es = es₁ ++ es₂ ∧
      (∀ e ∈ es₁, e.1 < lo) ∧ Leaves (s.Holds t) q b.leaf es₂ n ∧ n ≤ ps.length := by
  obtain ⟨fuel, rfl⟩ : ∃ f, fuel = f + 1 := ⟨fuel - 1, by omega⟩
  induction d generalizing a b p es ps fuel with
  | zero =>
    obtain ⟨n, le, chain⟩ := sub.leaves
    obtain ⟨rfl, rfl, here, -⟩ := sub
    refine ⟨a.leaf, [], es, n, ?_, rfl, by simp, chain, le⟩
    rw [findLeafPage.eq_2, run_bind, run_readNode here]
    rfl
  | succ d ih =>
    obtain ⟨keys, cs, qs, here, bounds, row, rfl⟩ := sub
    obtain ⟨fuel, rfl⟩ : ∃ f, fuel = f + 1 := ⟨fuel - 1, by omega⟩
    rw [findLeafPage_branch here, if_neg some]
    cases row.locate bounds low high with
    | @mk m₁ m₂ c cs₁ cs₂ es₁ es es₂ ps₁ ps ps₂ index low' high' left found right =>
      rw [show internalFindChild keys _ lo = c from getD_children index]
      obtain ⟨q, ea, eb, n, run, rfl, before, chain, le⟩ := ih found low' high' fuel (by omega)
      obtain ⟨n', le', chain'⟩ := right.leaves Subtree.leaves
      refine ⟨q, es₁ ++ ea, eb ++ es₂, n + n', run, by simp, fun e mem => ?_, chain.append chain', ?_⟩
      · rcases mem_append.1 mem with mem | mem
        · exact ((left.tidy Subtree.tidy).below low' e mem).1
        · exact before e mem
      · simp only [length_cons, length_append]
        omega

/-- The inner loop over two leaves in a row. -/
theorem rangeLeaf_append : rangeLeaf lo hi (es ++ es') = if (rangeLeaf lo hi es).2 then rangeLeaf lo hi es
    else ((rangeLeaf lo hi es).1 ++ (rangeLeaf lo hi es').1, (rangeLeaf lo hi es').2) := by
  induction es with
  | nil => rfl
  | cons e es ih =>
    rw [cons_append, rangeLeaf.eq_2, rangeLeaf.eq_2]
    by_cases skip : lo ≠ [] ∧ e.1 < lo
    · simp only [if_pos skip, ih]
    · by_cases stop : hi ≠ [] ∧ hi < e.1
      · simp only [if_neg skip, if_pos stop, if_true]
      · simp only [if_neg skip, if_neg stop, ih]
        split <;> rfl

/-- On sorted entries the inner loop keeps those in the range. -/
theorem rangeLeaf_sorted (sorted : Sorted es) : (rangeLeaf lo hi es).1 = es.filter (InRange lo hi ·.1) := by
  induction es with
  | nil => rfl
  | cons e es ih =>
    obtain ⟨after, sorted⟩ := pairwise_cons.1 sorted
    unfold rangeLeaf
    by_cases skip : lo ≠ [] ∧ e.1 < lo
    · have out : ¬ InRange lo hi e.1 := fun inside => inside.1.elim skip.1 fun ge => ge skip.2
      rw [if_pos skip, ih sorted, filter_cons_of_neg (by simpa using out)]
    by_cases stop : hi ≠ [] ∧ hi < e.1
    · rw [if_neg skip, if_pos stop]
      refine (filter_eq_nil_iff.2 fun e' mem => ?_).symm
      have gt : hi < e'.1 := by
        rcases mem_cons.1 mem with rfl | mem
        · exact stop.2
        · exact Std.lt_trans stop.2 (after e' mem)
      simpa using fun inside : InRange lo hi e'.1 => inside.2.elim stop.1 fun le => le gt
    · have inside : InRange lo hi e.1 := by
        unfold InRange
        tauto
      rw [if_neg skip, if_neg stop, filter_cons_of_pos (by simpa using inside), ← ih sorted]

/-- The loop over a chain of leaves to the end. -/
theorem run_rangeLoop {q n : Nat} (chain : Leaves (s.Holds t) q 0 es n) (enough : n ≤ fuel) :
    (rangeLoop t lo hi fuel q).run s = (.ok (rangeLeaf lo hi es).1, s) := by
  generalize stop : 0 = z at chain
  induction chain generalizing fuel with
  | nil p =>
    subst stop
    cases fuel <;> rfl
  | @cons p m q n es es' here _ ih =>
    obtain ⟨fuel, rfl⟩ : ∃ f, fuel = f + 1 := ⟨fuel - 1, by omega⟩
    have later := ih (by omega : n ≤ fuel) stop
    have zip : (es.map (·.1)).zip (es.map (·.2)) = es := by
      clear here
      induction es with
      | nil => rfl
      | cons e es ih => simp [ih]
    rw [rangeLoop.eq_2, if_neg here.1, run_bind, run_readNode here]
    dsimp only [ofNode]
    rw [run_bind, run_unpin, zip, rangeLeaf_append]
    cases done : (rangeLeaf lo hi es).2 with
    | true => rfl
    | false =>
      rw [if_neg Bool.false_ne_true, run_bind, later]
      rfl

/-- The pages below the root are one tree over all keys, with these entries. -/
def Indexes (bt : BTree) (s : PageStore) (es : List (GoString × RowLocation)) : Prop :=
  ∃ d first ps, Subtree (s.Holds bt.tableID) d ⟨.bot, first⟩ ⟨.top, 0⟩ bt.rootID es ps ∧ ps.Nodup

theorem length_pages (sub : Subtree (s.Holds t) d a b p es ps) (nodup : ps.Nodup) : ps.length ≤ s.last t := by
  have inside : ps ⊆ List.range' 1 (s.last t) := by
    intro q mem
    obtain ⟨n, held⟩ := sub.holds_page mem
    have := held.1
    have := held.2.1
    rw [mem_range'_1]
    omega
  simpa using (List.Nodup.subperm nodup inside).length_le

namespace Indexes
variable {bt : BTree}

section
variable (indexes : bt.Indexes s es)
include indexes

theorem sorted : Sorted es := by
  obtain ⟨d, first, ps, sub, -⟩ := indexes
  exact sub.tidy.sorted

theorem run_search (key : GoString) : ∃ r, (bt.search key).run s = (.ok r, s) ∧ ∀ v, r = some v ↔ (key, v) ∈ es := by
  obtain ⟨d, first, ps, sub, nodup⟩ := indexes
  have := sub.depth_lt
  have := length_pages sub nodup
  exact run_searchFrom sub trivial not_false (by omega)

theorem run_delete (key : GoString) : ∃ r s', (bt.delete key).run s = (.ok r, s') ∧ (r = true ↔ ∃ v, (key, v) ∈ es) ∧
      bt.Indexes s' (eraseEntry key es) := by
  obtain ⟨d, first, ps, sub, nodup⟩ := indexes
  have := sub.depth_lt
  have := length_pages sub nodup
  obtain ⟨r, s', run, spec, sub', -⟩ :=
    run_deleteRec sub nodup (show Bound.bot.Le key from trivial) not_false (by omega : d < s.last bt.tableID + 1)
  exact ⟨r, s', run, spec, d, first, ps, sub', nodup⟩

theorem run_rangeAsc (lo hi : GoString) : (bt.rangeAsc lo hi).run s = (.ok (es.filter (InRange lo hi ·.1)), s) := by
  have sorted := indexes.sorted
  obtain ⟨d, first, ps, sub, nodup⟩ := indexes
  have depth := sub.depth_lt
  have pages := length_pages sub nodup
  unfold rangeAsc
  rw [run_bind, run_last, run_bind]
  by_cases empty : lo = []
  · subst empty
    obtain ⟨n, le, chain⟩ := sub.leaves
    rw [run_findLeafPage_nil sub (by omega)]
    rw [run_rangeLoop chain (by omega), rangeLeaf_sorted sorted]
  · obtain ⟨q, es₁, es₂, n, run, rfl, before, chain, le⟩ :=
      run_findLeafPage sub trivial not_false empty (by omega : d < s.last bt.tableID + 1)
    rw [run]
    have skipped : es₁.filter (InRange lo hi ·.1) = [] := by
      refine filter_eq_nil_iff.2 fun e mem => ?_
      simpa using fun inside : InRange lo hi e.1 => inside.1.elim empty fun ge => ge (before e mem)
    rw [run_rangeLoop chain (by omega), rangeLeaf_sorted (pairwise_append.1 sorted).2.1, filter_append,
      skipped, nil_append]

/-- `Insert` adds the entry, under a new root if the old one was split. -/
theorem run_insert {key : GoString} {loc : RowLocation} (fits : loc.Fits) :
    (∃ e bt' s', (bt.insert key loc).run s = ((.error e, bt'), s') ∧ e ≠ .diverges) ∨
      ∃ bt' s', (bt.insert key loc).run s = ((.ok (), bt'), s') ∧ bt'.Indexes s' (insertEntry key loc es) := by
  obtain ⟨d, first, ps, sub, nodup⟩ := indexes
  have depth := sub.depth_lt
  have pages := length_pages sub nodup
  have inserted := run_insertRec sub nodup (show Bound.bot.Le key from trivial) not_false fits
    (by omega : d < s.last bt.tableID + 1)
  unfold insert
  rw [run_bind, run_last, run_bind]
  generalize (insertRec bt.tableID key loc (s.last bt.tableID + 1) bt.rootID).run s = r at inserted ⊢
  cases inserted with
  | @failed e s' ended => exact .inl ⟨e, bt, s', rfl, ended⟩
  | @kept s' ps' sub rewrote => exact .inr ⟨bt, s', rfl, d, first, ps', sub, rewrote.nodup⟩
  | @split s' m splitKey newRight es₁ es₂ ps₁ ps₂ bound new entries left right rewrote =>
    dsimp only
    rw [if_neg new.1, run_bind]
    rcases run_allocNode s' bt.tableID internalNode with failed | ⟨room, grown, allocated⟩
    · rw [failed]
      exact .inl ⟨.alloc, bt, s', rfl, by simp⟩
    rw [allocated]
    dsimp only
    have page_lt : s'.last bt.tableID < 2 ^ 64 := by
      unfold maxPages at room
      omega
    have root := page_le left _ left.mem_pages
    have node : {
        nodeType := internalNode
        keys := [splitKey]
        children := [bt.rootID, newRight]
        pageID := s'.last bt.tableID + 1 } =
          ofNode (s'.last bt.tableID + 1) (.branch [splitKey] [bt.rootID, newRight]) := rfl
    rw [node, run_bind]
    have shaped : (ofNode (s'.last bt.tableID + 1) (.branch [splitKey] [bt.rootID, newRight])).Shaped := by
      refine shaped_branch rfl fun c mem => ?_
      rcases mem_cons.1 mem with rfl | mem
      · omega
      · rcases mem_singleton.1 mem with rfl
        exact new.2
    rcases run_flushNode ⟨Nat.succ_ne_zero _, grown.ge⟩ shaped { id := s'.last bt.tableID + 1 } with
      ⟨e, flushed⟩ | ⟨s'', flushed, wrote⟩
    · rw [flushed]
      exact .inl ⟨_, bt, _, rfl, by simp⟩
    rw [flushed]
    have keep (q : Nat) (le : q ≤ s'.last bt.tableID) (n : TreeNode) (held : s'.Holds bt.tableID q n) :
        s''.Holds bt.tableID q n := wrote.others (by omega) held.new
    have lower := left.mono fun q mem => keep q (page_le left q mem)
    have upper := right.mono fun q mem => keep q (page_le right q mem)
    have row : Row (Subtree (s''.Holds bt.tableID) d) ⟨.bot, first⟩ ⟨.top, 0⟩
        [(.bot, bt.rootID), (m.bound, newRight)] (es₁ ++ (es₂ ++ [])) (ps₁ ++ (ps₂ ++ [])) :=
      .cons lower (.cons upper (.nil _))
    rw [bound, append_nil, append_nil, ← entries] at row
    refine .inr ⟨_, s'', rfl, d + 1, first, _, .branch wrote.holds rfl row, ?_⟩
    refine nodup_cons.2 ⟨fun mem => ?_, rewrote.nodup⟩
    rcases mem_append.1 mem with mem | mem
    · exact absurd (page_le left _ mem) (Nat.not_succ_le_self _)
    · exact absurd (page_le right _ mem) (Nat.not_succ_le_self _)

end

end Indexes

/-- `NewBTree` on an empty heap file makes an empty tree. -/
theorem run_newBTree (empty : s.last t = 0) :
    ∃ s', (newBTree t).run s = (.ok { tableID := t }, s') ∧ s'.last t = 1 ∧ s'.Holds t 1 (.leaf [] 0) := by
  have room : 1 < maxPages := by decide
  have fresh : (s.new t) = (some (1, { id := 1 }), (s.new t).2) := by simp [PageStore.new, empty, room]
  have grown : (s.new t).2.last t = 1 := by simp [PageStore.new, empty, room]
  have shaped : (ofNode 1 (.leaf [] 0)).Shaped := shaped_leaf (Nat.two_pow_pos 64) (by simp)
  have small : (ofNode 1 (.leaf [] 0)).size ≤ maxDataBytes := by decide
  obtain ⟨s', flushed, wrote⟩ := run_flushNode_of_size ⟨Nat.one_ne_zero, grown.ge⟩ shaped small { id := 1 }
  unfold newBTree initRoot
  rw [run_bind, run_last, if_pos empty, run_bind, run_bind, run_new, fresh]
  dsimp only
  rw [if_neg (by decide), show { nodeType := leafNode, pageID := 1 } = ofNode 1 (.leaf [] 0) from rfl, flushed]
  exact ⟨s', rfl, wrote.last.trans grown, wrote.holds⟩

theorem subtree_leaf {next : Nat} (held : s.Holds t 1 (.leaf es next)) (sorted : Sorted es) :
    Subtree (s.Holds t) 0 ⟨.bot, 1⟩ ⟨.top, next⟩ 1 es [1] :=
  .leaf rfl held ⟨fun _ le => le.elim, fun _ _ => trivial, fun _ _ => not_false, sorted⟩

end BTree

/-- A tree in use: its pages, and the map it stands for. -/
structure IndexRun where
  store : PageStore
  tree : BTree
  live : GoMap GoString RowLocation := ∅

inductive IndexAction where
  | insert (key : GoString) (loc : RowLocation)
  | delete (key : GoString)
  | search (key : GoString)
  | rangeAsc (lo hi : GoString)
  | allKeys
  | count

namespace IndexRun
open BTree

/-- One call. A run ends at an `Insert` that fails. -/
def next (s : IndexRun) : IndexAction → Option IndexRun
  | .insert key loc =>
    match (s.tree.insert key loc).run s.store with
    | ((.ok (), tree), store) => some { store, tree, live := s.live.set key loc }
    | ((.error _, _), _) => none
  | .delete key => some { s with store := ((s.tree.delete key).run s.store).2, live := s.live.delete key }
  | .search key => some { s with store := ((s.tree.search key).run s.store).2 }
  | .rangeAsc lo hi => some { s with store := ((s.tree.rangeAsc lo hi).run s.store).2 }
  | .allKeys => some { s with store := (s.tree.allKeys.run s.store).2 }
  | .count => some { s with store := (s.tree.count.run s.store).2 }

/-- `NewBTree` on a heap file. -/
def create (t : GoString) (store : PageStore) : Option IndexRun :=
  match (newBTree t).run store with
  | (.ok tree, store) => some { store, tree }
  | (.error _, _) => none

/-- The tree answers every call as the ordered map does. -/
structure Refines (s : IndexRun) : Prop where
  search : ∀ key, ((s.tree.search key).run s.store).1 = .ok (s.live.get key)
  rangeAsc : ∀ lo hi, ∃ entries, ((s.tree.rangeAsc lo hi).run s.store).1 = .ok entries ∧ Sorted entries ∧
    ∀ key loc, (key, loc) ∈ entries ↔ s.live.get key = some loc ∧ InRange lo hi key
  allKeys : ∃ keys, (s.tree.allKeys.run s.store).1 = .ok keys ∧ keys.Pairwise (· < ·) ∧
    ∀ key, key ∈ keys ↔ (s.live.get key).isSome
  count : (s.tree.count.run s.store).1 = .ok s.live.keys.length
  delete : ∀ key, ((s.tree.delete key).run s.store).1 = .ok (s.live.get key).isSome
  insert : ∀ key loc, loc.Fits → ((s.tree.insert key loc).run s.store).1.1 ≠ .error .diverges

/-- The condition on a call: the location fits its fields in a leaf. -/
def Fits (_ : IndexRun) : IndexAction → Prop
  | .insert _ loc => loc.Fits
  | _ => True

instance (s : IndexRun) (a : IndexAction) : Decidable (s.Fits a) := by
  unfold Fits
  split <;> infer_instance

/-- The entries of the tree are those of the map. -/
def Tracks (s : IndexRun) : Prop :=
  ∃ es, s.tree.Indexes s.store es ∧ ∀ key loc, (key, loc) ∈ es ↔ s.live.get key = some loc

variable {s s' : IndexRun}

theorem Tracks.refines (tracks : s.Tracks) : s.Refines := by
  obtain ⟨es, indexes, entries⟩ := tracks
  have all (lo hi : GoString) := congrArg Prod.fst (indexes.run_rangeAsc lo hi)
  have whole : es.filter (InRange [] [] ·.1) = es := filter_eq_self.2 fun e _ => decide_eq_true ⟨.inl rfl, .inl rfl⟩
  have keys : es.map (·.1) |>.Pairwise (· < ·) := pairwise_map.2 indexes.sorted
  have mem (key : GoString) : key ∈ es.map (·.1) ↔ (s.live.get key).isSome := by
    rw [isSome_iff_exists]
    constructor
    · intro found
      obtain ⟨e, here, rfl⟩ := mem_map.1 found
      exact ⟨e.2, (entries e.1 e.2).1 here⟩
    · rintro ⟨loc, found⟩
      exact mem_map.2 ⟨(key, loc), (entries key loc).2 found, rfl⟩
  constructor
  case search =>
    intro key
    obtain ⟨r, run, spec⟩ := indexes.run_search key
    rw [run]
    exact congrArg Except.ok (ext fun v => (spec v).trans (entries key v))
  case rangeAsc =>
    refine fun lo hi => ⟨_, all lo hi, indexes.sorted.filter _, fun key loc => ?_⟩
    rw [mem_filter, entries, decide_eq_true_iff]
  case allKeys =>
    refine ⟨es.map (·.1), ?_, keys, mem⟩
    rw [BTree.allKeys, PageProg.run_bind, indexes.run_rangeAsc, whole]
    rfl
  case count =>
    have same : (es.map (·.1)).Perm s.live.keys := by
      refine (perm_ext_iff_of_nodup (keys.imp fun lt => Std.ne_of_lt lt) s.live.keys_nodup).2 fun key => ?_
      rw [mem, mem_keys_iff, isSome_iff_exists]
    rw [BTree.count, PageProg.run_bind, indexes.run_rangeAsc, whole, ← same.length_eq, length_map]
    rfl
  case delete =>
    intro key
    obtain ⟨r, s', run, spec, -⟩ := indexes.run_delete key
    rw [run]
    refine congrArg Except.ok (Bool.eq_iff_iff.2 (spec.trans ?_))
    rw [isSome_iff_exists]
    exact exists_congr fun v => entries key v
  case insert =>
    intro key loc fits
    rcases indexes.run_insert fits with ⟨e, bt', s', run, ended⟩ | ⟨bt', s', run, -⟩
    · rw [run]
      exact fun eq => ended (Except.error.inj eq)
    · rw [run]
      simp

/-- One call keeps the entries of the tree and of the map the same. -/
theorem Tracks.next {a : IndexAction} (tracks : s.Tracks) (fits : s.Fits a) (taken : s.next a = some s') :
    s'.Tracks := by
  obtain ⟨es, indexes, entries⟩ := tracks
  cases a with
  | insert key loc =>
    dsimp only [IndexRun.next] at taken
    rcases indexes.run_insert fits with ⟨e, bt', store, run, -⟩ | ⟨bt', store, run, indexes'⟩
    · rw [run] at taken
      cases taken
    · rw [run] at taken
      cases taken
      refine ⟨_, indexes', fun key' loc' => ?_⟩
      rw [mem_insertEntry, get_set, entries]
      split <;> simp_all [eq_comm]
  | delete key =>
    obtain ⟨r, store, run, -, indexes'⟩ := indexes.run_delete key
    cases taken
    rw [run]
    refine ⟨_, indexes', fun key' loc' => ?_⟩
    rw [mem_eraseEntry, get_delete, entries]
    split <;> simp_all
  | search key =>
    obtain ⟨r, run, -⟩ := indexes.run_search key
    cases taken
    rw [run]
    exact ⟨es, indexes, entries⟩
  | rangeAsc =>
    cases taken
    rw [indexes.run_rangeAsc]
    exact ⟨es, indexes, entries⟩
  | allKeys =>
    cases taken
    rw [BTree.allKeys, PageProg.run_bind, indexes.run_rangeAsc]
    exact ⟨es, indexes, entries⟩
  | count =>
    cases taken
    rw [BTree.count, PageProg.run_bind, indexes.run_rangeAsc]
    exact ⟨es, indexes, entries⟩

theorem tracks_of_fits {t : GoString} {store : PageStore} (empty : store.last t = 0) {start : IndexRun}
    (made : create t store = some start) (reached : Reach next Fits start s) : s.Tracks := by
  obtain ⟨store', run, -, held⟩ := run_newBTree empty
  rw [create, run] at made
  cases made
  have indexes : (BTree.mk t 1).Indexes store' [] := ⟨0, 1, [1], subtree_leaf held .nil, nodup_singleton 1⟩
  exact reached.invariant ⟨[], indexes, by simp⟩ fun s a s' tracks fits taken => tracks.next fits taken

/-- A tree on an empty heap file is an ordered map, in every run whose locations fit. -/
theorem refines_of_fits (t : GoString) (store : PageStore) (empty : store.last t = 0) :
    ∃ start, create t store = some start ∧ ∀ s, Reach next Fits start s → s.Refines := by
  obtain ⟨store', run, -⟩ := run_newBTree empty
  have made : create t store = some { store := store', tree := { tableID := t } } := by rw [create, run]
  exact ⟨_, made, fun s reached => (tracks_of_fits empty made reached).refines⟩

/-- What `Search` returns for a key, and what the map has. -/
def answer (key : GoString) (s : IndexRun) : Except BTreeError (Option RowLocation) × Option RowLocation :=
  (((s.tree.search key).run s.store).1, s.live.get key)

theorem exists_of_calls (ok : IndexRun → IndexAction → Prop) [∀ s a, Decidable (ok s a)] (t : GoString)
    (store : PageStore) (calls : List IndexAction) (key : GoString)
    (b : Except BTreeError (Option RowLocation) × Option RowLocation)
    (run : ((create t store).bind fun start => (runActions (guarded next ok) start calls).map (answer key)) = some b) :
    ∃ start s, create t store = some start ∧ Reach next ok start s ∧ answer key s = b := by
  obtain ⟨start, made, rest⟩ := bind_eq_some_iff.1 run
  obtain ⟨s, last, seen⟩ := map_eq_some_iff.1 rest
  exact ⟨start, s, made, .of_actions last .refl, seen⟩

theorem refines_small_index : ∃ start s, create [105] {} = some start ∧ Reach next Fits start s ∧ s.Refines ∧
    answer [97] s = (.ok (some ⟨2, 7⟩), some ⟨2, 7⟩) := by
  obtain ⟨start, s, made, reached, seen⟩ := exists_of_calls Fits [105] {}
    [.insert [97] ⟨1, 0⟩, .insert [98] ⟨1, 1⟩, .delete [98], .insert [97] ⟨2, 7⟩] [97]
    (.ok (some ⟨2, 7⟩), some ⟨2, 7⟩) (by decide +kernel)
  obtain ⟨start', made', refines⟩ := refines_of_fits [105] {} rfl
  obtain rfl : start' = start := some.inj (made'.symm.trans made)
  exact ⟨start', s, made, reached, refines s reached, seen⟩

/-- A slot number that does not fit into 32 bits is cut off. -/
theorem not_refines_wide_slot : ∃ start s, create [105] {} = some start ∧ Reach next AnyStep start s ∧ ¬ s.Refines := by
  obtain ⟨start, s, made, reached, seen⟩ := exists_of_calls AnyStep [105] {}
    [.insert [97] ⟨1, 2 ^ 32⟩] [97] (.ok (some ⟨1, 0⟩), some ⟨1, 2 ^ 32⟩) (by decide +kernel)
  refine ⟨start, s, made, reached, fun refines => ?_⟩
  obtain ⟨found, live⟩ := Prod.mk.inj seen
  have := (refines.search [97]).symm.trans found
  rw [live] at this
  revert this
  decide

end IndexRun

end TransactionManager.Storage
