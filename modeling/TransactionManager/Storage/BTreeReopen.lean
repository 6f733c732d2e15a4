import TransactionManager.Storage.BTreeMap

/-!
# Reopening a B+ tree

All pages are flushed, the heap file is closed and opened again, and `NewBTree` is called on it. The
pages come back as they were, so a tree that is read from the same root answers as before. But
`NewBTree` takes page 1 for the root, and `Insert` puts a new root at the end of the file when the
root is split. From then on the reopened tree is what is left on page 1.
-/

namespace TransactionManager.Storage
open Lib TransactionManager.Types BPlus List BTreeNode PageProg

/-- The pages of the heap files as they are read back after a flush. -/
def PageStore.reopen (s : PageStore) : PageStore :=
  { s with page := fun t pid => (Page.deserialize (s.page t pid).serialize).getD { id := pid } }

/-- The two stores have the same nodes on the pages of a heap file. -/
structure PageStore.Alike (t : GoString) (s s' : PageStore) : Prop where
  last : s'.last t = s.last t
  page : ∀ pid, (s'.page t pid).payload = (s.page t pid).payload

theorem PageStore.alike_reopen (s : PageStore) (t : GoString) : Alike t s s.reopen := by
  refine ⟨rfl, fun pid => ?_⟩
  unfold reopen
  dsimp only
  rw [Page.deserialize_serialize, Option.getD_some]
  exact (s.page t pid).slice_serialize (Nat.le_refl pageHeaderSize)

namespace BTree
open PageStore
variable {s s' : PageStore} {t : GoString}

/-- The program only reads, and it has the same result on both stores. -/
def SameRun {α : Type} (s s' : PageStore) (x : PageProg α) : Prop := ∃ r, x.run s = (r, s) ∧ x.run s' = (r, s')

theorem SameRun.bind {α β : Type} {x : PageProg α} {f : α → PageProg β} (first : SameRun s s' x)
    (rest : ∀ a, SameRun s s' (f a)) : SameRun s s' (x >>= f) := by
  obtain ⟨a, run, run'⟩ := first
  unfold SameRun
  rw [run_bind, run_bind, run, run']
  exact rest a

theorem SameRun.same {α : Type} {x : PageProg α} (runs : SameRun s s' x) : (x.run s').1 = (x.run s).1 := by
  obtain ⟨r, run, run'⟩ := runs
  rw [run, run']

theorem SameRun.last (alike : Alike t s s') : SameRun s s' (last t) := ⟨s.last t, rfl, congrArg (·, s') alike.last⟩

/-- `readNode` finds the same node in both, though not the same page. -/
theorem SameRun.readNode (alike : Alike t s s') (p : Nat) {α : Type} {f : Except BTreeError (BTreeNode × Page) → PageProg α}
    (error : ∀ e, SameRun s s' (f (.error e)))
    (ok : ∀ n page page', ∃ r, (f (.ok (n, page))).run s = (r, s) ∧ (f (.ok (n, page'))).run s' = (r, s')) :
    SameRun s s' (readNode t p >>= f) := by
  unfold SameRun BTree.readNode
  rw [run_bind, run_bind, run_bind, run_bind, run_fetch, run_fetch]
  unfold PageStore.fetch
  rw [alike.last]
  by_cases absent : p = 0 ∨ s.last t < p
  · rw [if_pos absent, if_pos absent]
    exact error _
  rw [if_neg absent, if_neg absent]
  dsimp only
  rw [alike.page]
  cases decode p (s.page t p).payload with
  | error e => exact error _
  | ok n => exact ok n _ _

theorem readNode_cases (s : PageStore) (t : GoString) (p : Nat) :
    (∃ e, (readNode t p).run s = (.error e, s)) ∨ ∃ n page, (readNode t p).run s = (.ok (n, page), s) ∧
      decode p (s.page t p).payload = .ok n := by
  unfold readNode
  rw [run_bind, run_fetch]
  unfold PageStore.fetch
  by_cases absent : p = 0 ∨ s.last t < p
  · rw [if_pos absent]
    exact .inl ⟨_, rfl⟩
  · rw [if_neg absent]
    dsimp only
    cases decode p (s.page t p).payload with
    | error e => exact .inl ⟨_, rfl⟩
    | ok n => exact .inr ⟨n, _, rfl, rfl⟩

theorem sameRun_searchFrom (alike : Alike t s s') (key : GoString) (fuel p : Nat) :
    SameRun s s' (searchFrom t key fuel p) := by
  induction fuel generalizing p with
  | zero => exact ⟨_, rfl, rfl⟩
  | succ fuel ih =>
    rw [searchFrom.eq_2]
    refine .readNode alike p (fun _ => ⟨_, rfl, rfl⟩) fun n page page' => ?_
    dsimp only
    split
    · exact ⟨_, rfl, rfl⟩
    · exact ih _

theorem sameRun_findLeafPage (alike : Alike t s s') (lo : GoString) (fuel p : Nat) :
    SameRun s s' (findLeafPage t lo fuel p) := by
  induction fuel generalizing p with
  | zero => exact ⟨_, rfl, rfl⟩
  | succ fuel ih =>
    rw [findLeafPage.eq_2]
    refine .readNode alike p (fun _ => ⟨_, rfl, rfl⟩) fun n page page' => ?_
    dsimp only
    by_cases leaf : n.nodeType = leafNode
    · rw [if_pos leaf]
      exact ⟨_, rfl, rfl⟩
    · rw [if_neg leaf]
      exact ih _

theorem sameRun_rangeLoop (alike : Alike t s s') (lo hi : GoString) (fuel p : Nat) :
    SameRun s s' (rangeLoop t lo hi fuel p) := by
  induction fuel generalizing p with
  | zero => exact ⟨_, rfl, rfl⟩
  | succ fuel ih =>
    rw [rangeLoop.eq_2]
    split
    · exact ⟨_, rfl, rfl⟩
    refine .readNode alike p (fun _ => ⟨_, rfl, rfl⟩) fun n page page' => ?_
    dsimp only
    rw [run_bind, run_bind]
    by_cases done : (rangeLeaf lo hi (n.keys.zip n.values)).2
    · rw [if_pos done]
      exact ⟨_, rfl, rfl⟩
    · rw [if_neg done]
      exact (ih n.rightSibling).bind fun r => by cases r <;> exact ⟨_, rfl, rfl⟩

theorem run_search_alike {bt : BTree} (alike : Alike bt.tableID s s') (key : GoString) :
    ((bt.search key).run s').1 = ((bt.search key).run s).1 :=
  SameRun.last alike |>.bind (fun _ => sameRun_searchFrom alike key _ _) |>.same

theorem run_rangeAsc_alike {bt : BTree} (alike : Alike bt.tableID s s') (lo hi : GoString) :
    ((bt.rangeAsc lo hi).run s').1 = ((bt.rangeAsc lo hi).run s).1 := by
  refine SameRun.last alike |>.bind (fun fuel => (sameRun_findLeafPage alike lo _ _).bind fun r => ?_) |>.same
  cases r with
  | error e => exact ⟨_, rfl, rfl⟩
  | ok pid => exact sameRun_rangeLoop alike lo hi _ pid

end BTree

namespace PageProg
variable {α : Type}

/-- No call takes pages off a heap file. -/
theorem last_le_run (x : PageProg α) (s : PageStore) (t : GoString) : s.last t ≤ (x.run s).2.last t := by
  induction x generalizing s with
  | pure a => exact Nat.le_refl _
  | fetchPage u pid go ih => exact ih _ s
  | newPage u go ih =>
    refine Nat.le_trans ?_ (ih _ _)
    unfold PageStore.new
    dsimp only
    split
    · show s.last t ≤ Function.update s.last u (s.last u + 1) t
      by_cases same : t = u
      · subst same
        simp
      · rw [Function.update_of_ne same]
    · exact Nat.le_refl _
  | modify u pid page go ih => exact ih (s.put u pid page)
  | unpinPage _ _ _ _ ih => exact ih _
  | lastPageID u go ih => exact ih _ s

end PageProg

namespace IndexRun
open BTree

/-- The tree after its pages were flushed and `NewBTree` was called on the heap file again. -/
def reopened (s : IndexRun) : Except BTreeError BTree × PageStore := (newBTree s.tree.tableID).run s.store.reopen

/-- The reopened tree answers as the tree did before. -/
def Survives (s : IndexRun) : Prop := ∃ bt store, s.reopened = (.ok bt, store) ∧
  (∀ key, ((bt.search key).run store).1 = ((s.tree.search key).run s.store).1) ∧
  ∀ lo hi, ((bt.rangeAsc lo hi).run store).1 = ((s.tree.rangeAsc lo hi).run s.store).1

/-- The condition on an `Insert`: the root is a leaf that has the key or room for one more. -/
def Roomy (s : IndexRun) : IndexAction → Prop
  | .insert key _ => ∀ n, decode s.tree.rootID (s.store.page s.tree.tableID s.tree.rootID).payload = .ok n →
      n.nodeType = leafNode ∧ ((leafSearch n.keys key).2 = true ∨ n.keys.length < bTreeOrder)
  | _ => True

instance (s : IndexRun) (a : IndexAction) : Decidable (s.Roomy a) :=
  match a with
  | .insert key _ =>
    match decoded : decode s.tree.rootID (s.store.page s.tree.tableID s.tree.rootID).payload with
    | .ok n => decidable_of_iff (n.nodeType = leafNode ∧ ((leafSearch n.keys key).2 = true ∨ n.keys.length < bTreeOrder))
        ⟨fun room n' same => Except.ok.inj (decoded.symm.trans same) ▸ room, fun room => room n decoded⟩
    | .error e => isTrue fun n same => absurd (decoded.symm.trans same) (by simp)
  | .delete _ | .search _ | .rangeAsc _ _ | .allKeys | .count => isTrue trivial

variable {s s' : IndexRun}

/-- An insertion into a leaf that has the key or room for it makes no new page. -/
theorem right_of_insertRec {store store' : PageStore} {t key splitKey : GoString} {loc : RowLocation} {fuel p newRight : Nat}
    {n : BTreeNode} {page : Page} (read : (readNode t p).run store = (.ok (n, page), store))
    (leaf : n.nodeType = leafNode) (room : (leafSearch n.keys key).2 = true ∨ n.keys.length < bTreeOrder)
    (run : (insertRec t key loc (fuel + 1) p).run store = (.ok (splitKey, newRight), store')) : newRight = 0 := by
  rw [insertRec.eq_2, PageProg.run_bind, read] at run
  dsimp only at run
  rw [if_pos leaf] at run
  unfold insertLeaf at run
  dsimp only at run
  by_cases found : (leafSearch n.keys key).2 = true
  case' pos => rw [if_pos found] at run
  case' neg =>
    have small : (n.keys.insertIdx (leafSearch n.keys key).1 key).length ≤ bTreeOrder := by
      have := room.resolve_left found
      rw [length_insertIdx]
      split <;> omega
    rw [if_neg found, flushLeaf, if_pos small] at run
  all_goals
    rw [PageProg.run_bind] at run
    generalize PageProg.run _ store = flushed at run
    obtain ⟨_ | _, _⟩ := flushed <;> cases run
    rfl

/-- Such an `Insert` leaves the root where it is. -/
theorem tree_of_roomy {key : GoString} {loc : RowLocation} (roomy : s.Roomy (.insert key loc)) :
    ((s.tree.insert key loc).run s.store).1.2 = s.tree := by
  unfold BTree.insert
  rw [run_bind, run_last, run_bind]
  cases run : (insertRec s.tree.tableID key loc (s.store.last s.tree.tableID + 1) s.tree.rootID).run s.store with
  | mk result =>
    cases result with
    | error e => rfl
    | ok r =>
      obtain ⟨splitKey, newRight⟩ := r
      have none : newRight = 0 := by
        rcases readNode_cases s.store s.tree.tableID s.tree.rootID with ⟨e, read⟩ | ⟨n, page, read, decoded⟩
        · rw [insertRec.eq_2, run_bind, read] at run
          cases run
        · obtain ⟨leaf, room⟩ := roomy n decoded
          exact right_of_insertRec read leaf room run
      dsimp only
      rw [if_pos none]
      rfl

/-- The tree still has its root on page 1. -/
def AtFirstPage (s : IndexRun) : Prop := s.tree.rootID = 1 ∧ s.store.last s.tree.tableID ≠ 0

theorem AtFirstPage.survives (first : s.AtFirstPage) : s.Survives := by
  have same : BTree.mk s.tree.tableID 1 = s.tree := first.1 ▸ rfl
  have alike := s.store.alike_reopen s.tree.tableID
  refine ⟨s.tree, s.store.reopen, ?_, run_search_alike alike, run_rangeAsc_alike alike⟩
  unfold reopened newBTree
  rw [run_bind, run_last, if_neg (by rw [alike.last]; exact first.2)]
  show (Except.ok (BTree.mk s.tree.tableID 1), _) = _
  rw [same]

theorem AtFirstPage.next {a : IndexAction} (first : s.AtFirstPage) (roomy : s.Roomy a) (taken : s.next a = some s') :
    s'.AtFirstPage := by
  have grown {α : Type} (x : PageProg α) : (x.run s.store).2.last s.tree.tableID ≠ 0 := by
    have := x.last_le_run s.store s.tree.tableID
    have := first.2
    omega
  cases a with
  | insert key loc =>
    dsimp only [IndexRun.next] at taken
    have tree := tree_of_roomy roomy
    have last := grown (s.tree.insert key loc)
    split at taken
    · rename_i tree' store run
      cases taken
      rw [run] at tree last
      obtain rfl : tree' = s.tree := tree
      exact ⟨first.1, last⟩
    · cases taken
  | delete key | search key | rangeAsc lo hi | allKeys | count =>
    cases taken
    exact ⟨first.1, grown _⟩

/-- A tree whose root was never split is the same tree after it was reopened. -/
theorem survives_of_roomy (t : GoString) (store : PageStore) :
    ∃ start, create t store = some start ∧ ∀ s, Reach next Roomy start s → s.Survives := by
  obtain ⟨store', made, last⟩ : ∃ store', (newBTree t).run store = (.ok { tableID := t }, store') ∧
      store'.last t ≠ 0 := by
    by_cases empty : store.last t = 0
    · obtain ⟨store', made, last, -⟩ := run_newBTree empty
      exact ⟨store', made, last.symm ▸ Nat.one_ne_zero⟩
    · refine ⟨store, ?_, empty⟩
      unfold newBTree
      rw [run_bind, run_last, if_neg empty]
      rfl
  refine ⟨_, by rw [create, made], fun s reached => ?_⟩
  have first : s.AtFirstPage := reached.invariant ⟨rfl, last⟩ fun s a s' first roomy taken => first.next roomy taken
  exact first.survives

theorem survives_small_index : ∃ start s, create [105] {} = some start ∧ Reach next Roomy start s ∧ s.Survives ∧
    answer [97] s = (.ok (some ⟨2, 7⟩), some ⟨2, 7⟩) := by
  obtain ⟨start, s, made, reached, seen⟩ := exists_of_calls Roomy [105] {}
    [.insert [97] ⟨1, 0⟩, .insert [98] ⟨1, 1⟩, .delete [98], .insert [97] ⟨2, 7⟩] [97]
    (.ok (some ⟨2, 7⟩), some ⟨2, 7⟩) (by decide +kernel)
  obtain ⟨start', made', survives⟩ := survives_of_roomy [105] {}
  obtain rfl : start' = start := Option.some.inj (made'.symm.trans made)
  exact ⟨start', s, made, reached, survives s reached, seen⟩

end IndexRun

namespace BTree
open PageStore
variable {s : PageStore} {t key : GoString} {loc : RowLocation} {es : List (GoString × RowLocation)} {p next : Nat}

theorem insertRec_last (held : s.Holds t p (.leaf es next)) (after : ∀ e ∈ es, e.1 < key) (fuel : Nat) :
    (insertRec t key loc (fuel + 1) p).run s =
      (flushLeaf t (.ofNode p (.leaf (es ++ [(key, loc)]) next)) (s.page t p)).run s := by
  have missing : leafSearch ((es ++ ([] : List (GoString × RowLocation))).map (·.1)) key = (es.length, false) :=
    leafSearch_missing after (by simp)
  have keys := insertIdx_length (es.map (·.1)) [] key
  have values := insertIdx_length (es.map (·.2)) [] loc
  rw [append_nil, length_map] at keys values
  rw [append_nil] at missing
  rw [insertRec.eq_2, run_bind, run_readNode held]
  dsimp only [ofNode]
  rw [if_pos rfl]
  unfold insertLeaf
  dsimp only
  rw [missing]
  rw [if_neg Bool.false_ne_true, keys, values]
  simp

theorem size_leaf (single : ∀ e ∈ es, e.1.length = 1) : (ofNode p (.leaf es next)).size = 11 + 15 * es.length := by
  simp only [size, ofNode, tailBytes, if_true]
  induction es with
  | nil => rfl
  | cons e es ih =>
    have len := single e mem_cons_self
    have ih := ih fun e mem => single e (mem_cons_of_mem _ mem)
    simp only [map_cons, flatMap_cons, length_append, length_cons, keyBytes, locBytes, length_leBytes, len]
    omega

/-- Short keys leave room on the page for more than a leaf may have. -/
theorem small_leaf (single : ∀ e ∈ es, e.1.length = 1) (few : es.length ≤ 101) :
    (ofNode p (.leaf es next)).size ≤ maxDataBytes := by
  rw [size_leaf single]
  simp only [maxDataBytes, pageSize, pageHeaderSize]
  omega

/-- The root has room: the entry is added to it. -/
theorem run_insert_last (held : s.Holds t 1 (.leaf es 0)) (after : ∀ e ∈ es, e.1 < key)
    (single : ∀ e ∈ es ++ [(key, loc)], e.1.length = 1) (fit : ∀ e ∈ es ++ [(key, loc)], e.2.Fits)
    (room : es.length < bTreeOrder) :
    ∃ s', ((BTree.mk t 1).insert key loc).run s = ((.ok (), ⟨t, 1⟩), s') ∧ s'.last t = s.last t ∧
      s'.Holds t 1 (.leaf (es ++ [(key, loc)]) 0) := by
  have few : (es ++ [(key, loc)]).length ≤ bTreeOrder := by
    rw [length_append, length_singleton]
    omega
  obtain ⟨s', flushed, wrote⟩ := run_flushNode_of_size ⟨held.1, held.2.1⟩ (shaped_leaf (Nat.two_pow_pos 64) fit)
    (small_leaf single (few.trans (by decide))) (s.page t 1)
  refine ⟨s', ?_, wrote.last, wrote.holds⟩
  unfold BTree.insert
  rw [run_bind, run_last, run_bind, insertRec_last held after, flushLeaf, if_pos (by simpa [ofNode] using few),
    run_bind, flushed]
  rfl

theorem run_allocNode_few (few : s.last t < 100) (nodeType : UInt8) :
    (s.new t).2.last t = s.last t + 1 ∧ (allocNode t nodeType).run s =
      (.ok ({ nodeType, pageID := s.last t + 1 }, { id := s.last t + 1 }), (s.new t).2) := by
  rcases run_allocNode s t nodeType with failed | ⟨-, grown, allocated⟩
  · have room : s.last t + 1 < maxPages := by
      unfold maxPages
      omega
    simp [allocNode, run_bind, PageStore.new, room] at failed
  · exact ⟨grown, allocated⟩

/-- A leaf with one entry too many is split. -/
theorem run_flushLeaf_full (there : s.last t = 1) (single : ∀ e ∈ es, e.1.length = 1) (fit : ∀ e ∈ es, e.2.Fits)
    (full : es.length = 101) (page : Page) :
    ∃ splitKey s', (flushLeaf t (.ofNode 1 (.leaf es 0)) page).run s = (.ok (splitKey, 2), s') ∧
      splitKey.length = 1 ∧ s'.last t = 2 ∧ s'.Holds t 1 (.leaf (es.take 50) 2) := by
  obtain ⟨grown, allocated⟩ := run_allocNode_few (s := s) (t := t) (by omega) leafNode
  rw [there] at grown allocated
  have right : (es.drop 50).length = 51 := by simp [full]
  have left : (es.take 50).length = 50 := by simp [full]
  obtain ⟨s₁, flushed₁, wrote₁⟩ := run_flushNode_of_size (s := (s.new t).2) (t := t) (p := 2) (n := .leaf (es.drop 50) 0)
    ⟨by decide, grown.ge⟩ (shaped_leaf (by decide) fun e mem => fit e (mem_of_mem_drop mem))
    (small_leaf (fun e mem => single e (mem_of_mem_drop mem)) (by omega)) { id := 2 }
  obtain ⟨s₂, flushed₂, wrote₂⟩ := run_flushNode_of_size (s := s₁) (t := t) (p := 1) (n := .leaf (es.take 50) 2)
    ⟨by decide, by rw [wrote₁.last, grown]; decide⟩ (shaped_leaf (by decide) fun e mem => fit e (mem_of_mem_take mem))
    (small_leaf (fun e mem => single e (mem_of_mem_take mem)) (by omega)) page
  refine ⟨(es.map (·.1)).getD 50 [], s₂, ?_, ?_, wrote₂.last.trans (wrote₁.last.trans grown), wrote₂.holds⟩
  swap
  · have lt : 50 < es.length := by omega
    simpa [List.getD, lt] using single es[50] (getElem_mem lt)
  have tooMany : ¬ (ofNode 1 (.leaf es 0)).keys.length ≤ bTreeOrder := by
    simp [ofNode, full, bTreeOrder]
  unfold flushLeaf
  rw [if_neg tooMany, run_bind, allocated]
  dsimp only [ofNode]
  rw [length_map, full, ← map_take, ← map_take, ← map_drop, ← map_drop]
  unfold flushHalves
  rw [run_bind]
  have first := flushed₁
  dsimp only [ofNode] at first flushed₂
  rw [show 101 / 2 = 50 from rfl, first]
  rw [run_bind, flushed₂]
  rfl

/-- The root is full: half of its entries stay on page 1. -/
theorem run_insert_full (held : s.Holds t 1 (.leaf es 0)) (last : s.last t = 1) (after : ∀ e ∈ es, e.1 < key)
    (single : ∀ e ∈ es ++ [(key, loc)], e.1.length = 1) (fit : ∀ e ∈ es ++ [(key, loc)], e.2.Fits)
    (full : es.length = bTreeOrder) :
    ∃ s', ((BTree.mk t 1).insert key loc).run s = ((.ok (), ⟨t, 3⟩), s') ∧ s'.last t = 3 ∧
      s'.Holds t 1 (.leaf ((es ++ [(key, loc)]).take 50) 2) := by
  have len : (es ++ [(key, loc)]).length = 101 := by simp [full, bTreeOrder]
  obtain ⟨splitKey, s₁, run, short, last₁, page⟩ := run_flushLeaf_full last single fit len (s.page t 1)
  obtain ⟨grown, allocated⟩ := run_allocNode_few (s := s₁) (t := t) (by omega) internalNode
  rw [last₁] at grown allocated
  have shaped : (ofNode 3 (.branch [splitKey] [1, 2])).Shaped := by
    refine shaped_branch rfl fun c mem => ?_
    rcases mem_cons.1 mem with rfl | mem
    · decide
    · rcases mem_singleton.1 mem with rfl
      decide
  have small : (ofNode 3 (.branch [splitKey] [1, 2])).size ≤ maxDataBytes := by
    simp [size, ofNode, tailBytes, keyBytes, short, internalNode, leafNode, maxDataBytes, pageSize, pageHeaderSize]
  obtain ⟨s₂, flushed, wrote⟩ := run_flushNode_of_size ⟨by decide, grown.ge⟩ shaped small { id := 3 }
  refine ⟨s₂, ?_, wrote.last.trans grown, wrote.others (by decide) page.new⟩
  unfold BTree.insert
  rw [run_bind, run_last, run_bind, insertRec_last held after, run]
  dsimp only
  rw [if_neg (by decide), run_bind, allocated]
  rw [run_bind]
  dsimp only [ofNode] at flushed
  rw [flushed]
  rfl

end BTree

namespace IndexRun
open BTree PageStore

/-- Rows with keys of one byte, in ascending order. -/
def rowEntry (i : Nat) : GoString × RowLocation := ([UInt8.ofNat i], ⟨1, i⟩)

def rowEntries (n : Nat) : List (GoString × RowLocation) := (List.range n).map rowEntry

theorem rowEntries_succ (n : Nat) : rowEntries (n + 1) = rowEntries n ++ [rowEntry n] := by
  simp [rowEntries, range_succ]

theorem rowEntry_lt {i n : Nat} (lt : i < n) (small : n < 256) : (rowEntry i).1 < (rowEntry n).1 := by
  have : UInt8.ofNat i < UInt8.ofNat n := by
    rw [UInt8.lt_iff_toNat_lt]
    simp
    omega
  exact List.Lex.rel this

theorem of_mem_rowEntries {n : Nat} (small : n < 256) {e : GoString × RowLocation} (mem : e ∈ rowEntries n) :
    e.1.length = 1 ∧ e.2.Fits ∧ e.1 < (rowEntry n).1 := by
  obtain ⟨i, lt, rfl⟩ := mem_map.1 mem
  have lt := mem_range.1 lt
  refine ⟨rfl, ⟨by show 1 < 2 ^ 64; decide, by show i < 2 ^ 32; omega⟩, rowEntry_lt lt small⟩

theorem sorted_rowEntries {n : Nat} (small : n < 256) : Sorted (rowEntries n) := by
  induction n with
  | zero => exact .nil
  | succ n ih =>
    rw [rowEntries_succ]
    refine pairwise_append.2 ⟨ih (by omega), pairwise_singleton .., fun e mem e' last => ?_⟩
    rw [mem_singleton.1 last]
    exact (of_mem_rowEntries (by omega) mem).2.2

/-- As many rows as a leaf has room for. -/
theorem reach_rows {start : IndexRun} (made : create [105] {} = some start) {n : Nat} (few : n ≤ bTreeOrder) :
    ∃ s, Reach next Fits start s ∧ s.tree = ⟨[105], 1⟩ ∧ s.store.last [105] = 1 ∧
      s.store.Holds [105] 1 (.leaf (rowEntries n) 0) := by
  have order : bTreeOrder = 100 := rfl
  induction n with
  | zero =>
    obtain ⟨store', run, last, held⟩ := run_newBTree (s := {}) (t := [105]) rfl
    rw [create, run] at made
    cases made
    exact ⟨_, .refl, rfl, last, held⟩
  | succ n ih =>
    obtain ⟨s, reached, tree, last, held⟩ := ih (by omega)
    have each (e : GoString × RowLocation) (mem : e ∈ rowEntries n ++ [rowEntry n]) :=
      of_mem_rowEntries (by omega) (rowEntries_succ n ▸ mem)
    obtain ⟨store, run, last', held'⟩ := run_insert_last held
      (fun e mem => (of_mem_rowEntries (by omega) mem).2.2) (fun e mem => (each e mem).1)
      (fun e mem => (each e mem).2.1) (by simp [rowEntries]; omega)
    have taken : s.next (.insert (rowEntry n).1 ⟨1, n⟩) = some {
        store, tree := ⟨[105], 1⟩, live := s.live.set (rowEntry n).1 ⟨1, n⟩ } := by
      dsimp only [IndexRun.next]
      rw [tree, run]
    have fits : s.Fits (.insert (rowEntry n).1 ⟨1, n⟩) := (each (rowEntry n) (by simp)).2.1
    exact ⟨_, .step reached fits taken, rfl, last'.trans last, rowEntries_succ n ▸ held'⟩

/-- One row more, and the reopened tree has lost it. -/
theorem not_survives_split_root : ∃ start s, create [105] {} = some start ∧ Reach next AnyStep start s ∧ ¬ s.Survives := by
  obtain ⟨store', run, -⟩ := run_newBTree (s := {}) (t := [105]) rfl
  have made : create [105] {} = some { store := store', tree := { tableID := [105] } } := by rw [create, run]
  obtain ⟨s, reached, tree, last, held⟩ := reach_rows made (Nat.le_refl bTreeOrder)
  have each (e : GoString × RowLocation) (mem : e ∈ rowEntries bTreeOrder ++ [rowEntry bTreeOrder]) :=
    of_mem_rowEntries (by decide) (rowEntries_succ bTreeOrder ▸ mem)
  obtain ⟨store, run, last', held'⟩ := run_insert_full held last
    (fun e mem => (of_mem_rowEntries (by decide) mem).2.2) (fun e mem => (each e mem).1)
    (fun e mem => (each e mem).2.1) (by simp [rowEntries])
  have taken : s.next (.insert (rowEntry bTreeOrder).1 ⟨1, bTreeOrder⟩) = some {
      store, tree := ⟨[105], 3⟩, live := s.live.set (rowEntry bTreeOrder).1 ⟨1, bTreeOrder⟩ } := by
    dsimp only [IndexRun.next]
    rw [tree, run]
  have fits : s.Fits (.insert (rowEntry bTreeOrder).1 ⟨1, bTreeOrder⟩) := (each (rowEntry bTreeOrder) (by simp)).2.1
  have reached' := reached.step fits taken
  refine ⟨_, _, made, reached'.weaken fun _ _ _ => trivial, ?_⟩
  rintro ⟨bt, file, opened, search, -⟩
  have alike := store.alike_reopen [105]
  have kept : ¬ store.reopen.last [105] = 0 := by
    rw [alike.last, last']
    decide
  unfold reopened newBTree at opened
  rw [run_bind, run_last, if_neg kept] at opened
  cases opened
  -- the row is found before, and not among the rows that stayed on page 1
  have front : (rowEntries bTreeOrder ++ [rowEntry bTreeOrder]).take 50 = rowEntries 50 := by
    rfl
  replace held' : store.Holds [105] 1 (.leaf (rowEntries 50) 2) := front ▸ held'
  obtain ⟨r, found, spec⟩ := run_searchFrom (subtree_leaf held' (sorted_rowEntries (by decide)))
    (show Bound.bot.Le (rowEntry bTreeOrder).1 from trivial) not_false (Nat.succ_pos (store.last [105]))
  have before := (tracks_of_fits rfl made reached').refines.search (rowEntry bTreeOrder).1
  have after := run_search_alike (show Alike (BTree.mk [105] 1).tableID store store.reopen from alike)
    (rowEntry bTreeOrder).1
  have last : ((BTree.mk [105] 1).search (rowEntry bTreeOrder).1).run store = (.ok r, store) := by
    unfold BTree.search
    rw [run_bind, run_last]
    exact found
  rw [search (rowEntry bTreeOrder).1, before, last, GoMap.get_set, if_pos rfl] at after
  have mem := (spec ⟨1, bTreeOrder⟩).1 (Except.ok.inj after).symm
  exact Std.lt_irrefl (Std.lt_trans (of_mem_rowEntries (by decide) mem).2.2 (rowEntry_lt (by decide) (by decide)))

end IndexRun

end TransactionManager.Storage
