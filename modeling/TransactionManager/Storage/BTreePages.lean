import TransactionManager.Storage.BTree
import TransactionManager.Lib.BPlusTree
import Mathlib.Data.List.InsertIdx

/-!
# The B+ tree on the pages of its heap file

`PageStore.Holds` reads a node off a page. The tree's programs are then statements about the
subtrees of `Lib.BPlus`: what a lookup, an insertion and a deletion below a page do to the entries
of the subtree that begins there. An insertion may take new pages at the end of the file; the pages
of other subtrees it leaves alone.
-/

namespace TransactionManager.Storage
open Lib TransactionManager.Types BPlus List BTreeNode Subtree

/-- A node of the tree, without the page it is on. -/
abbrev TreeNode := BPlus.Node GoString RowLocation

/-- The place of an entry fits its fields in a leaf. -/
def RowLocation.Fits (loc : RowLocation) : Prop := loc.pageID < 2 ^ 64 ∧ loc.slotID < 2 ^ 32

instance (loc : RowLocation) : Decidable loc.Fits := inferInstanceAs (Decidable (_ ∧ _))

/-- The node as it is on page `p`. -/
def BTreeNode.ofNode (p : Nat) : TreeNode → BTreeNode
  | .leaf es next =>
    { nodeType := leafNode, keys := es.map (·.1), values := es.map (·.2), rightSibling := next, pageID := p }
  | .branch keys children => { nodeType := internalNode, keys, children, pageID := p }

@[simp] theorem BTreeNode.pageID_ofNode (p : Nat) (n : TreeNode) : (ofNode p n).pageID = p := by
  cases n <;> rfl

theorem BTreeNode.not_leaf (p : Nat) (keys : List GoString) (children : List Nat) :
    ¬ (ofNode p (.branch keys children)).nodeType = leafNode := by
  show ¬ internalNode = leafNode
  decide

theorem Page.payload_setPayload (p : Page) {enc : List UInt8} (fits : enc.length ≤ maxDataBytes) :
    ∃ rest, (p.setPayload enc).payload = enc ++ rest := by
  obtain ⟨more, len⟩ := Nat.exists_eq_add_of_le fits
  unfold payload setPayload
  rw [len, Bytes.slice_add, Bytes.slice_blit]
  exact ⟨_, rfl⟩

namespace PageStore
variable {s s' : PageStore} {t : GoString} {p q : Nat} {n m : TreeNode} {page : Page}

def Holds (s : PageStore) (t : GoString) (p : Nat) (n : TreeNode) : Prop :=
  p ≠ 0 ∧ p ≤ s.last t ∧ decode p (s.page t p).payload = .ok (.ofNode p n)

/-- A page was written, and nothing else happened to the file. -/
structure Wrote (s s' : PageStore) (t : GoString) (p : Nat) (n : TreeNode) : Prop where
  last : s'.last t = s.last t
  holds : s'.Holds t p n
  others : ∀ {q : Nat} {m : TreeNode}, q ≠ p → s.Holds t q m → s'.Holds t q m

theorem page_put_of_ne (ne : q ≠ p) : (s.put t p page).page t q = s.page t q := by
  simp [put, Function.update_of_ne ne]

theorem page_put (s : PageStore) (t : GoString) (p : Nat) (page : Page) : (s.put t p page).page t p = page := by
  simp [put]

theorem wrote_put (here : p ≠ 0 ∧ p ≤ s.last t) (shaped : (ofNode p n).Shaped) {enc : List UInt8}
    (encoded : (ofNode p n).encode = .ok enc) (fits : enc.length ≤ maxDataBytes) (page : Page) :
    Wrote s (s.put t p (page.setPayload enc)) t p n where
  last := rfl
  holds := by
    refine ⟨here.1, here.2, ?_⟩
    obtain ⟨rest, payload⟩ := page.payload_setPayload fits
    rw [page_put, payload]
    simpa using decode_encode shaped encoded rest
  others := by
    intro q m ne held
    exact ⟨held.1, held.2.1, by rw [page_put_of_ne ne]; exact held.2.2⟩

theorem Holds.new (held : s.Holds t p n) : (s.new t).2.Holds t p n := by
  have le := held.2.1
  unfold PageStore.new
  dsimp only
  split
  · refine ⟨held.1, ?_, ?_⟩
    · simp
      omega
    · rw [page_put_of_ne (by omega)]
      exact held.2.2
  · exact held

theorem Holds.shaped (held : s.Holds t p n) : (ofNode p n).Shaped := (shaped_of_decode held.2.2).1

theorem Holds.size_le (held : s.Holds t p n) : (ofNode p n).size ≤ maxDataBytes := by
  have size := (shaped_of_decode held.2.2).2
  rwa [Page.payload, Bytes.length_slice] at size

/-- The pages of a subtree were rewritten, with new ones from the end of the file at most. The other pages are as they
were. -/
structure Rewrote (s s' : PageStore) (t : GoString) (ps ps' : List Nat) : Prop where
  last : s.last t ≤ s'.last t
  nodup : ps'.Nodup
  pages : ∀ q ∈ ps', q ∈ ps ∨ s.last t < q ∧ q ≤ s'.last t
  others : ∀ {q : Nat} {m : TreeNode}, q ∉ ps → s.Holds t q m → s'.Holds t q m

namespace Rewrote
variable {ps ps' ps₁ ps₂ : List Nat}

theorem of_wrote (wrote : Wrote s s' t p n) (mem : p ∈ ps) (nodup : ps.Nodup) : Rewrote s s' t ps ps :=
  ⟨wrote.last.ge, nodup, fun _ mem => .inl mem, fun out held => wrote.others (fun eq => out (eq ▸ mem)) held⟩

theorem trans {s'' : PageStore} {ps'' : List Nat} (first : Rewrote s s' t ps ps')
    (second : Rewrote s' s'' t ps' ps'') : Rewrote s s'' t ps ps'' where
  last := first.last.trans second.last
  nodup := second.nodup
  pages q mem := by
    rcases second.pages q mem with old | new
    · exact (first.pages q old).imp id fun new => ⟨new.1, new.2.trans second.last⟩
    · exact .inr ⟨Nat.lt_of_le_of_lt first.last new.1, new.2⟩
  others {q m} out held := by
    refine second.others (fun mem => ?_) (first.others out held)
    rcases first.pages q mem with old | new
    · exact out old
    · have := held.2.1
      omega

theorem around (part : Rewrote s s' t ps ps') (nodup : (ps₁ ++ (ps ++ ps₂)).Nodup)
    (known : ∀ q ∈ ps₁ ++ (ps ++ ps₂), q ≤ s.last t) :
    Rewrote s s' t (ps₁ ++ (ps ++ ps₂)) (ps₁ ++ (ps' ++ ps₂)) := by
  obtain ⟨nodup₁, rest, apart₁⟩ := nodup_append.1 nodup
  obtain ⟨-, nodup₂, apart₂⟩ := nodup_append.1 rest
  have new (q : Nat) (mem : q ∈ ps') : (∀ q' ∈ ps₁, q' ≠ q) ∧ ∀ q' ∈ ps₂, q ≠ q' := by
    rcases part.pages q mem with old | new
    · exact ⟨fun q' mem' => apart₁ q' mem' q (mem_append_left _ old), apart₂ q old⟩
    constructor
    · intro q' mem'
      have := known q' (mem_append_left _ mem')
      omega
    · intro q' mem'
      have := known q' (mem_append_right _ (mem_append_right _ mem'))
      omega
  refine ⟨part.last, ?_, fun q mem => ?_, fun out => part.others fun mem => out (by simp [mem])⟩
  · refine nodup_append.2 ⟨nodup₁, nodup_append.2 ⟨part.nodup, nodup₂, fun q mem => (new q mem).2⟩, ?_⟩
    intro q mem q' mem'
    rcases mem_append.1 mem' with mem' | mem'
    · exact (new q' mem').1 q mem
    · exact apart₁ q mem q' (mem_append_right _ mem')
  · simp only [mem_append] at mem ⊢
    rcases mem with mem | mem | mem
    · exact .inl (.inl mem)
    · exact (part.pages q mem).imp (fun old => .inr (.inl old)) id
    · exact .inl (.inr (.inr mem))

end Rewrote

end PageStore

namespace BTree
open PageProg PageStore
variable {s : PageStore} {t : GoString} {p : Nat} {n : TreeNode}

theorem run_readNode (held : s.Holds t p n) : (readNode t p).run s = (.ok (.ofNode p n, s.page t p), s) := by
  have found : s.fetch t p = some (s.page t p) := by
    unfold PageStore.fetch
    rw [if_neg (by have := held.1; have := held.2.1; omega)]
  unfold readNode
  rw [run_bind, run_fetch, found]
  dsimp only
  rw [held.2.2]
  rfl

/-- `flushNode` writes the node, unless it is too large for a page. -/
theorem run_flushNode (here : p ≠ 0 ∧ p ≤ s.last t) (shaped : (ofNode p n).Shaped) (page : Page) :
    (∃ e, (flushNode t (.ofNode p n) page).run s = (.error (.node e), s)) ∨
      ∃ s', (flushNode t (.ofNode p n) page).run s = (.ok (), s') ∧ Wrote s s' t p n := by
  unfold flushNode
  cases encoded : (ofNode p n).encode with
  | error e => exact .inl ⟨e, rfl⟩
  | ok enc =>
    refine .inr ⟨_, rfl, ?_⟩
    rw [pageID_ofNode]
    exact wrote_put here shaped encoded (length_encode encoded) page

theorem run_flushNode_of_size (here : p ≠ 0 ∧ p ≤ s.last t) (shaped : (ofNode p n).Shaped)
    (small : (ofNode p n).size ≤ maxDataBytes) (page : Page) :
    ∃ s', (flushNode t (.ofNode p n) page).run s = (.ok (), s') ∧ Wrote s s' t p n := by
  rcases run_flushNode here shaped page with ⟨e, failed⟩ | done
  · rw [flushNode, encode_of_size small] at failed
    cases failed
  · exact done

theorem run_allocNode (s : PageStore) (t : GoString) (nodeType : UInt8) :
    (allocNode t nodeType).run s = (.error .alloc, s) ∨
      s.last t + 1 < maxPages ∧ (s.new t).2.last t = s.last t + 1 ∧ (allocNode t nodeType).run s =
          (.ok ({ nodeType, pageID := s.last t + 1 }, { id := s.last t + 1 }), (s.new t).2) := by
  unfold allocNode
  rw [run_bind, run_new]
  by_cases room : s.last t + 1 < maxPages
  · refine .inr ⟨room, ?_, ?_⟩
    · simp [PageStore.new, room]
    · simp only [PageStore.new, if_pos room]
      rfl
  · simp only [PageStore.new, if_neg room]
    exact .inl rfl

/-- The binary search ends at the first key that is not below the one looked for. -/
theorem leafSearchLoop_eq {keys : List GoString} {key : GoString} {l : Nat} {found : Bool}
    (below : ∀ i < l, keys.getD i [] < key) (here : found = true → keys.getD l [] = key)
    (above : ∀ i, l ≤ i → (found = true → l < i) → i < keys.length → key < keys.getD i []) (fuel : Nat) :
    ∀ lo hi, lo ≤ l → l ≤ hi → (found = true → l < hi) → hi ≤ keys.length → hi - lo ≤ fuel →
      leafSearchLoop keys key fuel lo hi = (l, found) := by
  induction fuel with
  | zero =>
    intro lo hi left right room len enough
    have : found = false := by
      cases found with
      | false => rfl
      | true => have := room rfl; omega
    rw [leafSearchLoop, this, show lo = l by omega]
  | succ fuel ih =>
    intro lo hi left right room len enough
    unfold leafSearchLoop
    split
    · dsimp only
      have side : (lo + hi) / 2 < l ∨ (found = true ∧ l = (lo + hi) / 2) ∨
          (l ≤ (lo + hi) / 2 ∧ (found = true → l < (lo + hi) / 2)) := by
        by_cases eq : found = true ∧ l = (lo + hi) / 2
        · exact .inr (.inl eq)
        · by_cases lt : (lo + hi) / 2 < l
          · exact .inl lt
          · exact .inr (.inr ⟨by omega, fun found => by have : l ≠ (lo + hi) / 2 := fun e => eq ⟨found, e⟩; omega⟩)
      rcases side with lt | ⟨rfl, eq⟩ | ⟨ge, gt⟩
      · have less := below _ lt
        rw [if_neg (by grind), if_pos less]
        exact ih _ hi (by omega) right room len (by omega)
      · rw [← eq, if_pos (here rfl)]
      · rw [if_neg (by grind), if_neg (by grind)]
        exact ih lo _ left ge gt (by omega) (by omega)
    · have : found = false := by
        cases found with
        | false => rfl
        | true => have := room rfl; omega
      rw [this, show lo = l by omega]

section
variable {left right : List (GoString × RowLocation)} {key : GoString}

/-- `leafSearch` on the keys of a leaf: the entry of the key, or where it belongs. -/
theorem leafSearch_found {v : RowLocation} (sorted : Sorted (left ++ (key, v) :: right)) :
    leafSearch ((left ++ (key, v) :: right).map (·.1)) key = (left.length, true) := by
  obtain ⟨-, after, across⟩ := pairwise_append.1 sorted
  obtain ⟨after, -⟩ := pairwise_cons.1 after
  refine leafSearchLoop_eq (fun i lt => ?_) (fun _ => ?_) (fun i _ gt len => ?_) _ 0 _ (Nat.zero_le _) ?_ ?_
    (Nat.le_refl _) (Nat.sub_le ..)
  · have : left[i] ∈ left := getElem_mem lt
    simpa [getD, getElem?_append_left, lt] using across _ this (key, v) mem_cons_self
  · simp [getD]
  · have gt := gt rfl
    obtain ⟨j, rfl⟩ := Nat.exists_eq_add_of_lt gt
    have lt : j < right.length := by simp at len; omega
    have : right[j] ∈ right := getElem_mem lt
    have later := after _ this
    simpa [getD, getElem?_append_right, Nat.add_assoc, lt] using later
  · simp
  · simp

theorem leafSearch_missing (before : ∀ e ∈ left, e.1 < key) (after : ∀ e ∈ right, key < e.1) :
    leafSearch ((left ++ right).map (·.1)) key = (left.length, false) := by
  have never {p : Prop} (eq : false = true) : p := absurd eq Bool.false_ne_true
  refine leafSearchLoop_eq (fun i lt => ?_) never (fun i ge _ len => ?_) _ 0 _ (Nat.zero_le _) ?_ never
    (Nat.le_refl _) (Nat.sub_le ..)
  · have : left[i] ∈ left := getElem_mem lt
    simpa [getD, getElem?_append_left, lt] using before _ this
  · obtain ⟨j, rfl⟩ := Nat.exists_eq_add_of_le ge
    have lt : j < right.length := by simp at len; omega
    have : right[j] ∈ right := getElem_mem lt
    simpa [getD, getElem?_append_right, lt] using after _ this
  · simp

end

section Descent
variable {d fuel c i next : Nat} {a b : Seam GoString} {key : GoString} {es : List (GoString × RowLocation)}
  {ps children : List Nat} {cs₁ cs₂ : List (Bound GoString × Nat)} {β : Bound GoString} {keys : List GoString}
  {loc : RowLocation}

/-- The child that a descent to a key takes. -/
theorem getD_children (index : cs₁.length = i) : ((cs₁ ++ (β, c) :: cs₂).map (·.2)).getD i 0 = c := by
  simp [← index, getD]

theorem not_mem_cut {left right : List (GoString × RowLocation)} (before : ∀ e ∈ left, e.1 < key)
    (after : ∀ e ∈ right, key < e.1) (v : RowLocation) : (key, v) ∉ left ∧ (key, v) ∉ right :=
  ⟨fun mem => Std.lt_irrefl (before _ mem), fun mem => Std.lt_irrefl (after _ mem)⟩

/-- Of a row only the part around the key can have an entry of it. -/
theorem mem_middle {es₁ es₂ : List (GoString × RowLocation)} (left : ∀ e ∈ es₁, e.1 < key ∧ ¬ key < e.1)
    (right : ∀ e ∈ es₂, key < e.1 ∧ ¬ e.1 < key) (v : RowLocation) :
    (key, v) ∈ es₁ ++ (es ++ es₂) ↔ (key, v) ∈ es := by
  obtain ⟨out₁, out₂⟩ := not_mem_cut (fun e mem => (left e mem).1) (fun e mem => (right e mem).1) v
  simp [out₁, out₂]

theorem searchFrom_leaf (here : s.Holds t p (.leaf es next)) : (searchFrom t key (fuel + 1) p).run s =
      (.ok (if (leafSearch (es.map (·.1)) key).2 then (es.map (·.2))[(leafSearch (es.map (·.1)) key).1]?
        else none), s) := by
  unfold searchFrom
  rw [run_bind, run_readNode here]
  rfl

theorem searchFrom_branch (here : s.Holds t p (.branch keys children)) : (searchFrom t key (fuel + 1) p).run s =
      (searchFrom t key fuel (internalFindChild keys children key)).run s := by
  rw [searchFrom.eq_2, run_bind, run_readNode here]
  rfl

/-- `search` below a page finds what the subtree has. -/
theorem run_searchFrom (sub : Subtree (s.Holds t) d a b p es ps) (low : a.bound.Le key)
    (high : ¬ b.bound.Le key) (enough : d < fuel) :
    ∃ r, (searchFrom t key fuel p).run s = (.ok r, s) ∧ ∀ v, r = some v ↔ (key, v) ∈ es := by
  obtain ⟨fuel, rfl⟩ : ∃ f, fuel = f + 1 := ⟨fuel - 1, by omega⟩
  induction d generalizing a b p es ps fuel with
  | zero =>
    obtain ⟨-, -, here, tidy⟩ := sub
    refine ⟨_, searchFrom_leaf here, fun v => ?_⟩
    obtain ⟨left, right, before, after, -, -, ⟨v', rfl⟩ | rfl⟩ := tidy.sorted.cut key
    · rw [leafSearch_found tidy.sorted]
      simp [not_mem_cut before after v, eq_comm]
    · rw [leafSearch_missing before after]
      simp [not_mem_cut before after v]
  | succ d ih =>
    obtain ⟨keys, cs, qs, here, bounds, row, -⟩ := sub
    obtain ⟨fuel, rfl⟩ : ∃ f, fuel = f + 1 := ⟨fuel - 1, by omega⟩
    rw [searchFrom_branch here]
    cases row.locate bounds low high with
    | mk index low' high' left found right =>
      rw [show internalFindChild keys _ key = _ from getD_children index]
      obtain ⟨r, run, spec⟩ := ih found low' high' fuel (by omega)
      refine ⟨r, run, fun v => (spec v).trans (mem_middle ?_ ?_ v).symm⟩
      · exact (left.tidy tidy).below low'
      · exact (right.tidy tidy).above high'

/-- The page of every node of a subtree is in the file. -/
theorem page_le (sub : Subtree (s.Holds t) d a b p es ps) : ∀ q ∈ ps, q ≤ s.last t := by
  intro q mem
  obtain ⟨n, held⟩ := sub.holds_page mem
  exact held.2.1

/-- A change below one child leaves the node and its other children alone. -/
theorem keep_around {s' : PageStore} {m₁ m₂ : Seam GoString} {es₁ es₂ : List (GoString × RowLocation)}
    {ps₁ ps₂ ps' : List Nat} (here : s.Holds t p n) (left : Row (Subtree (s.Holds t) d) a m₁ cs₁ es₁ ps₁)
    (right : Row (Subtree (s.Holds t) d) m₂ b cs₂ es₂ ps₂) (parts : (p :: ps₁ ++ (ps ++ ps₂)).Nodup)
    (rewrote : Rewrote s s' t ps ps') : s'.Holds t p n ∧ Row (Subtree (s'.Holds t) d) a m₁ cs₁ es₁ ps₁ ∧
      Row (Subtree (s'.Holds t) d) m₂ b cs₂ es₂ ps₂ := by
  obtain ⟨-, inner, apart₁⟩ := nodup_append.1 parts
  obtain ⟨-, -, apart₂⟩ := nodup_append.1 inner
  refine ⟨rewrote.others ?_ here, left.mono ?_, right.mono ?_⟩
  · exact fun mem => apart₁ p mem_cons_self p (mem_append_left _ mem) rfl
  · exact fun inside part => part.mono fun q mem n held => rewrote.others (fun mem' =>
      apart₁ q (mem_cons_of_mem _ (inside q mem)) q (mem_append_left _ mem') rfl) held
  · exact fun inside part => part.mono fun q mem n held => rewrote.others (fun mem' =>
      apart₂ q mem' q (inside q mem) rfl) held

theorem deleteRec_branch (here : s.Holds t p (.branch keys children)) : (deleteRec t key (fuel + 1) p).run s =
      (deleteRec t key fuel (children.getD (internalChildIdx keys key) 0)).run s := by
  rw [deleteRec.eq_2, run_bind, run_readNode here]
  rfl

/-- A leaf without one of its entries still has the shape of a node, and is smaller. -/
theorem leaf_erase {left right : List (GoString × RowLocation)} {e : GoString × RowLocation}
    (held : s.Holds t p (.leaf (left ++ e :: right) next)) :
    (ofNode p (.leaf (left ++ right) next)).Shaped ∧ (ofNode p (.leaf (left ++ right) next)).size ≤ maxDataBytes := by
  have size := held.size_le
  obtain ⟨-, -, fit⟩ := held.shaped.leaf rfl
  refine ⟨⟨held.shaped.sibling, fun _ => ⟨by simp [ofNode], rfl, fun loc mem => ?_⟩,
    fun internal => absurd rfl internal⟩, ?_⟩
  · refine fit loc ?_
    simp only [ofNode, map_append, map_cons, mem_append, mem_cons] at mem ⊢
    exact mem.imp id .inr
  · simp only [BTreeNode.size, BTreeNode.ofNode, BTreeNode.tailBytes, if_true, map_append, map_cons,
      flatMap_append, flatMap_cons, length_append] at size ⊢
    omega

theorem deleteRec_leaf (here : s.Holds t p (.leaf es next)) (sorted : Sorted es) :
    ∃ r s', (deleteRec t key (fuel + 1) p).run s = (.ok r, s') ∧ (r = true ↔ ∃ v, (key, v) ∈ es) ∧
      Wrote s s' t p (.leaf (eraseEntry key es) next) := by
  rw [deleteRec.eq_2, run_bind, run_readNode here]
  dsimp only [ofNode]
  rw [if_pos rfl]
  obtain ⟨left, right, before, after, -, erased, ⟨v, rfl⟩ | eq⟩ := sorted.cut key
  · rw [leafSearch_found sorted]
    rw [if_pos rfl]
    obtain ⟨shaped, small⟩ := leaf_erase here
    have node : {
        nodeType := leafNode
        keys := ((left ++ (key, v) :: right).map (·.1)).eraseIdx left.length
        values := ((left ++ (key, v) :: right).map (·.2)).eraseIdx left.length
        rightSibling := next
        pageID := p } = ofNode p (.leaf (left ++ right) next) := by
      simp [ofNode, eraseIdx_append_of_length_le]
    obtain ⟨s', flushed, wrote⟩ := run_flushNode_of_size ⟨here.1, here.2.1⟩ shaped small (s.page t p)
    rw [run_bind, node, flushed]
    exact ⟨true, s', rfl, ⟨fun _ => ⟨v, by simp⟩, fun _ => rfl⟩, erased ▸ wrote⟩
  · rw [erased, ← eq]
    subst eq
    rw [leafSearch_missing before after]
    refine ⟨false, s, rfl, ?_, rfl, here, fun _ held => held⟩
    simp [not_mem_cut before after]

/-- `deleteRec` below a page removes the entry of the key, and says whether there was one. -/
theorem run_deleteRec (sub : Subtree (s.Holds t) d a b p es ps) (nodup : ps.Nodup) (low : a.bound.Le key)
    (high : ¬ b.bound.Le key) (enough : d < fuel) :
    ∃ r s', (deleteRec t key fuel p).run s = (.ok r, s') ∧ (r = true ↔ ∃ v, (key, v) ∈ es) ∧
      Subtree (s'.Holds t) d a b p (eraseEntry key es) ps ∧ Rewrote s s' t ps ps ∧ s'.last t = s.last t := by
  obtain ⟨fuel, rfl⟩ : ∃ f, fuel = f + 1 := ⟨fuel - 1, by omega⟩
  induction d generalizing a b p es ps fuel with
  | zero =>
    obtain ⟨first, rfl, here, tidy⟩ := sub
    obtain ⟨r, s', run, spec, wrote⟩ := deleteRec_leaf here tidy.sorted
    exact ⟨r, s', run, spec, .leaf first wrote.holds tidy.erase,
      .of_wrote wrote (mem_singleton_self p) nodup, wrote.last⟩
  | succ d ih =>
    have known := page_le sub
    obtain ⟨keys, cs, qs, here, bounds, row, rfl⟩ := sub
    obtain ⟨fuel, rfl⟩ : ∃ f, fuel = f + 1 := ⟨fuel - 1, by omega⟩
    rw [deleteRec_branch here]
    cases row.locate bounds low high with
    | @mk m₁ m₂ c cs₁ cs₂ es₁ es es₂ ps₁ ps ps₂ index low' high' left found right =>
      rw [show getD _ (internalChildIdx keys key) 0 = _ from getD_children index]
      have parts : (p :: ps₁ ++ (ps ++ ps₂)).Nodup := nodup
      obtain ⟨nodup', -⟩ := nodup_append.1 (nodup_append.1 parts).2.1
      obtain ⟨r, s', run, spec, sub', rewrote, last⟩ := ih found nodup' low' high' fuel (by omega)
      have below := (left.tidy tidy).below low'
      have above := (right.tidy tidy).above high'
      obtain ⟨here', left', right'⟩ := keep_around here left right parts rewrote
      refine ⟨r, s', run, ?_, branch here' bounds ?_, rewrote.around parts known, last⟩
      · exact spec.trans (exists_congr fun v => (mem_middle below above v).symm)
      · rw [eraseEntry_middle below above]
        exact left'.append (.cons sub' right')

theorem shaped_leaf (sibling : next < 2 ^ 64) (fit : ∀ e ∈ es, e.2.Fits) : (ofNode p (.leaf es next)).Shaped := by
  refine ⟨sibling, fun _ => ⟨by simp [ofNode], rfl, fun loc mem => ?_⟩, fun internal => absurd rfl internal⟩
  obtain ⟨e, entry, rfl⟩ := mem_map.1 mem
  exact fit e entry

theorem shaped_branch (len : children.length = keys.length + 1)
    (fit : ∀ c ∈ children, c < 2 ^ 64) : (ofNode p (.branch keys children)).Shaped :=
  ⟨Nat.two_pow_pos 64, fun leaf => absurd (show internalNode = leafNode from leaf) (by decide),
    fun _ => ⟨len, rfl, fit⟩⟩

/-- What an insertion below a page leaves there: all entries under the same page, or under it and a new
one to its right. -/
inductive Inserted (s : PageStore) (t : GoString) (d : Nat) (a b : Seam GoString) (p : Nat)
    (es : List (GoString × RowLocation)) (ps : List Nat) :
    Except BTreeError (GoString × Nat) × PageStore → Prop where
  | failed {e : BTreeError} {s' : PageStore} (ended : e ≠ .diverges) : Inserted s t d a b p es ps (.error e, s')
  | kept {s' : PageStore} {ps' : List Nat} (sub : Subtree (s'.Holds t) d a b p es ps')
      (rewrote : Rewrote s s' t ps ps') : Inserted s t d a b p es ps (.ok ([], 0), s')
  | split {s' : PageStore} {m : Seam GoString} {splitKey : GoString} {newRight : Nat}
      {es₁ es₂ : List (GoString × RowLocation)} {ps₁ ps₂ : List Nat} (bound : m.bound = .key splitKey)
      (new : newRight ≠ 0 ∧ newRight < 2 ^ 64) (entries : es = es₁ ++ es₂)
      (left : Subtree (s'.Holds t) d a m p es₁ ps₁) (right : Subtree (s'.Holds t) d m b newRight es₂ ps₂)
      (rewrote : Rewrote s s' t ps (ps₁ ++ ps₂)) : Inserted s t d a b p es ps (.ok (splitKey, newRight), s')

/-- An insertion that goes on where another change of the same subtree ended. -/
theorem Inserted.after {s' : PageStore} {ps' : List Nat} {r : Except BTreeError (GoString × Nat) × PageStore}
    (inserted : Inserted s' t d a b p es ps' r) (before : Rewrote s s' t ps ps') : Inserted s t d a b p es ps r := by
  cases inserted with
  | failed ended => exact .failed ended
  | kept sub rewrote => exact .kept sub (before.trans rewrote)
  | split bound new entries left right rewrote => exact .split bound new entries left right (before.trans rewrote)

theorem insertIdx_length {α : Type} (left right : List α) (x : α) :
    (left ++ right).insertIdx left.length x = left ++ x :: right := by
  induction left with
  | nil => rfl
  | cons y left ih => simp [ih]

section
variable (there : p ≠ 0 ∧ p ≤ s.last t)
include there

theorem run_flushKept {es : List (GoString × RowLocation)}
    (shaped : (ofNode p n).Shaped) (mem : p ∈ ps) (nodup : ps.Nodup)
    (sub : ∀ {s' : PageStore}, Wrote s s' t p n → Subtree (s'.Holds t) d a b p es ps) (page : Page) :
    Inserted s t d a b p es ps (PageProg.run (do
      match ← flushNode t (.ofNode p n) page with
      | .error e => return .error e
      | .ok () => return .ok ([], 0)) s) := by
  rw [run_bind]
  rcases run_flushNode there shaped page with ⟨e, flushed⟩ | ⟨s', flushed, wrote⟩
  · rw [flushed]
    exact .failed (by simp)
  · rw [flushed]
    exact .kept (sub wrote) (.of_wrote wrote mem nodup)

/-- The two halves of a node are written to its page and to a new one. -/
theorem run_flushHalves {m : Seam GoString} {es₁ es₂ : List (GoString × RowLocation)} {ps₁ ps₂ : List Nat}
    {left right : TreeNode} {splitKey : GoString} (room : s.last t + 1 < maxPages)
    (shapedLeft : (ofNode p left).Shaped)
    (shapedRight : (ofNode (s.last t + 1) right).Shaped) (bound : m.bound = .key splitKey)
    (mem : p ∈ ps) (pages : (ps₁ ++ ps₂).Perm ((s.last t + 1) :: ps)) (nodup : ps.Nodup)
    (known : ∀ q ∈ ps, q ≤ s.last t)
    (sub : ∀ {s' : PageStore}, s'.Holds t p left → s'.Holds t (s.last t + 1) right →
      (∀ {q : Nat} {n : TreeNode}, q ≠ p → s.Holds t q n → s'.Holds t q n) →
      Subtree (s'.Holds t) d a m p es₁ ps₁ ∧ Subtree (s'.Holds t) d m b (s.last t + 1) es₂ ps₂)
    (page rightPage : Page) :
    Inserted s t d a b p (es₁ ++ es₂) ps
      ((flushHalves t (.ofNode p left) (.ofNode (s.last t + 1) right) page rightPage splitKey).run (s.new t).2) := by
  have grown : (s.new t).2.last t = s.last t + 1 := by simp [PageStore.new, room]
  unfold flushHalves
  rw [run_bind]
  rcases run_flushNode ⟨Nat.succ_ne_zero _, grown.ge⟩ shapedRight rightPage with
    ⟨e, flushed⟩ | ⟨s₁, flushed, wrote⟩
  · rw [flushed]
    exact .failed (by simp)
  rw [flushed]
  rw [run_bind]
  have last : s₁.last t = s.last t + 1 := wrote.last.trans grown
  have still : p ≤ s₁.last t := by omega
  rcases run_flushNode ⟨there.1, still⟩ shapedLeft page with ⟨e, flushed'⟩ | ⟨s₂, flushed', wrote'⟩
  · rw [flushed']
    exact .failed (by simp)
  rw [flushed', pageID_ofNode]
  have others {q : Nat} {n : TreeNode} (ne : q ≠ p) (held : s.Holds t q n) : s₂.Holds t q n := by
    have le := held.2.1
    exact wrote'.others ne (wrote.others (by omega) held.new)
  obtain ⟨lower, upper⟩ := sub wrote'.holds (wrote'.others (by omega) wrote.holds) others
  have small : s.last t + 1 < 2 ^ 64 := by
    unfold maxPages at room
    omega
  refine .split bound ⟨Nat.succ_ne_zero _, small⟩ rfl lower upper ⟨?_, ?_, fun q found => ?_, fun out => ?_⟩
  · rw [wrote'.last, last]
    exact Nat.le_succ _
  · refine pages.nodup_iff.2 (nodup_cons.2 ⟨fun found => ?_, nodup⟩)
    have := known _ found
    omega
  · rcases mem_cons.1 (pages.mem_iff.1 found) with rfl | old
    · exact .inr ⟨Nat.lt_succ_self _, (wrote'.last.trans last).ge⟩
    · exact .inl old
  · exact others fun eq => out (eq ▸ mem)

/-- A leaf with its new entry is written, or split in the middle. -/
theorem run_flushLeaf (first : a.leaf = p) (tidy : Tidy a b es)
    (sibling : b.leaf < 2 ^ 64) (fit : ∀ e ∈ es, e.2.Fits) (page : Page) :
    Inserted s t 0 a b p es [p] ((flushLeaf t (.ofNode p (.leaf es b.leaf)) page).run s) := by
  unfold flushLeaf
  by_cases small : (ofNode p (.leaf es b.leaf)).keys.length ≤ bTreeOrder
  · rw [if_pos small]
    exact run_flushKept there (shaped_leaf sibling fit) (mem_singleton_self p) (nodup_singleton p)
      (fun wrote => .leaf first wrote.holds tidy) page
  · rw [if_neg small, run_bind]
    rcases run_allocNode s t leafNode with failed | ⟨room, -, allocated⟩
    · rw [failed]
      exact .failed (by simp)
    rw [allocated]
    dsimp only [ofNode] at small ⊢
    rw [length_map] at small ⊢
    have lt : es.length / 2 < es.length := by
      omega
    have halves : es.take (es.length / 2) ++ es.drop (es.length / 2) = es := take_append_drop ..
    have head : (es.drop (es.length / 2)).head? = some es[es.length / 2] := by
      rw [head?_drop, getElem?_eq_getElem lt]
    obtain ⟨lower, upper⟩ := Tidy.split (halves.symm ▸ tidy) head (s.last t + 1)
    have splitKey : (es.map (·.1)).getD (es.length / 2) [] = es[es.length / 2].1 := by
      simp [getD, lt]
    have page_lt : s.last t + 1 < 2 ^ 64 := by
      unfold maxPages at room
      omega
    rw [splitKey, ← map_take, ← map_take, ← map_drop, ← map_drop]
    nth_rewrite 1 [← halves]
    refine run_flushHalves (m := ⟨.key es[es.length / 2].1, s.last t + 1⟩) there room
      (shaped_leaf page_lt fun e mem => fit e (mem_of_mem_take mem))
      (shaped_leaf sibling fun e mem => fit e (mem_of_mem_drop mem)) rfl
      (mem_singleton_self p) (show ([p] ++ [s.last t + 1]).Perm _ from .swap ..) (nodup_singleton p)
      (fun q mem => mem_singleton.1 mem ▸ there.2)
      (fun left right _ => ⟨.leaf first left lower, .leaf rfl right upper⟩) page _

omit there in
theorem run_insertLeaf (here : s.Holds t p (.leaf es b.leaf)) (first : a.leaf = p)
    (tidy : Tidy a b es) (low : a.bound.Le key) (high : ¬ b.bound.Le key) (fits : loc.Fits) (page : Page) :
    Inserted s t 0 a b p (insertEntry key loc es) [p]
      ((insertLeaf t key loc (.ofNode p (.leaf es b.leaf)) page).run s) := by
  have there := And.intro here.1 here.2.1
  have sibling : b.leaf < 2 ^ 64 := here.shaped.sibling
  have tidy' : Tidy a b (insertEntry key loc es) := tidy.insert low high
  have fit (e : GoString × RowLocation) (mem : e ∈ insertEntry key loc es) : e.2.Fits := by
    rcases mem_insertEntry.1 mem with ⟨-, same⟩ | ⟨-, old⟩
    · exact same ▸ fits
    · exact (here.shaped.leaf rfl).2.2 e.2 (mem_map_of_mem old)
  unfold insertLeaf
  dsimp only [ofNode]
  obtain ⟨left, right, before, after, inserted, -, ⟨v, rfl⟩ | rfl⟩ := tidy.sorted.cut key
  · rw [leafSearch_found tidy.sorted]
    have node : {
        nodeType := leafNode
        keys := (left ++ (key, v) :: right).map (·.1)
        values := ((left ++ (key, v) :: right).map (·.2)).set left.length loc
        rightSibling := b.leaf
        pageID := p } = ofNode p (.leaf (insertEntry key loc (left ++ (key, v) :: right)) b.leaf) := by
      simp [ofNode, inserted]
    rw [node]
    exact run_flushKept there (shaped_leaf sibling fit) (mem_singleton_self p) (nodup_singleton p)
      (fun wrote => .leaf first wrote.holds tidy') page
  · rw [leafSearch_missing before after]
    have node : {
        nodeType := leafNode
        keys := ((left ++ right).map (·.1)).insertIdx left.length key
        values := ((left ++ right).map (·.2)).insertIdx left.length loc
        rightSibling := b.leaf
        pageID := p } = ofNode p (.leaf (insertEntry key loc (left ++ right)) b.leaf) := by
      have keys := insertIdx_length (left.map (·.1)) (right.map (·.1)) key
      have values := insertIdx_length (left.map (·.2)) (right.map (·.2)) loc
      rw [length_map] at keys values
      simp [ofNode, inserted, keys, values]
    rw [node]
    exact run_flushLeaf there first tidy' sibling fit page

/-- An internal node with its new child is written, or split in the middle. -/
theorem run_flushInternal {cs : List (Bound GoString × Nat)} {qs : List Nat} (fit : ∀ c ∈ cs, c.2 < 2 ^ 64)
    (bounds : cs.map (·.1) = a.bound :: keys.map .key) (row : Row (Subtree (s.Holds t) d) a b cs es qs)
    (nodup : (p :: qs).Nodup) (known : ∀ q ∈ p :: qs, q ≤ s.last t) (page : Page) :
    Inserted s t (d + 1) a b p es (p :: qs)
      ((flushInternal t (.ofNode p (.branch keys (cs.map (·.2)))) page).run s) := by
  have fit' (c : Nat) (mem : c ∈ cs.map (·.2)) : c < 2 ^ 64 := by
    obtain ⟨e, found, rfl⟩ := mem_map.1 mem
    exact fit e found
  have len : cs.length = keys.length + 1 := by simpa using congrArg length bounds
  have out : p ∉ qs := (nodup_cons.1 nodup).1
  unfold flushInternal
  by_cases small : (ofNode p (.branch keys (cs.map (·.2)))).keys.length ≤ bTreeOrder
  · rw [if_pos small]
    refine run_flushKept there (shaped_branch (by simp [len]) fit') mem_cons_self nodup (fun wrote => ?_) page
    refine .branch wrote.holds bounds (row.mono fun inside part => part.mono fun q mem n held => ?_)
    exact wrote.others (fun eq => out (eq ▸ inside q mem)) held
  · rw [if_neg small, run_bind]
    rcases run_allocNode s t internalNode with failed | ⟨room, -, allocated⟩
    · rw [failed]
      exact .failed (by simp)
    rw [allocated]
    dsimp only [ofNode] at small ⊢
    have lt : keys.length / 2 < keys.length := by
      omega
    have cut : cs.take (keys.length / 2 + 1) ++ cs.drop (keys.length / 2 + 1) = cs := take_append_drop ..
    rw [← cut] at row
    obtain ⟨m, es₁, es₂, ps₁, ps₂, rfl, rfl, left, right⟩ := row.split
    have boundsLeft : (cs.take (keys.length / 2 + 1)).map (·.1) =
        a.bound :: (keys.take (keys.length / 2)).map .key := by
      rw [map_take, bounds, take_succ_cons, map_take]
    have boundsRight : (cs.drop (keys.length / 2 + 1)).map (·.1) =
        .key keys[keys.length / 2] :: (keys.drop (keys.length / 2 + 1)).map .key := by
      rw [map_drop, bounds, drop_succ_cons, ← map_drop, drop_eq_getElem_cons lt, map_cons]
    have bound : m.bound = .key keys[keys.length / 2] := by
      cases head : cs.drop (keys.length / 2 + 1) with
      | nil => simp [head] at boundsRight
      | cons =>
        rw [head] at right boundsRight
        exact right.bound_eq.trans (cons.inj boundsRight).1
    have splitKey : keys.getD (keys.length / 2) [] = keys[keys.length / 2] := by simp [getD, lt]
    rw [splitKey, ← map_take, ← map_drop]
    refine run_flushHalves there room
      (shaped_branch (by simp; omega) fun c mem => fit' c (mem_of_mem_take (map_take ▸ mem)))
      (shaped_branch (by simp; omega) fun c mem => fit' c (mem_of_mem_drop (map_drop ▸ mem)))
      bound mem_cons_self
      (show ((p :: ps₁) ++ ((s.last t + 1) :: ps₂)).Perm _ from perm_middle) nodup known
      (fun here right' others => ⟨.branch here boundsLeft (left.mono ?_),
        .branch right' (bound ▸ boundsRight) (right.mono ?_)⟩) page _
    · exact fun inside part => part.mono fun q mem n held =>
        others (fun eq => out (eq ▸ mem_append_left _ (inside q mem))) held
    · exact fun inside part => part.mono fun q mem n held =>
        others (fun eq => out (eq ▸ mem_append_right _ (inside q mem))) held

end

/-- The lists of an internal node that gets a key and a child. -/
theorem insertIdx_children {newRight : Nat} (index : cs₁.length = i) (splitKey : GoString) :
    ((cs₁ ++ (β, c) :: cs₂).map (·.2)).insertIdx (i + 1) newRight =
      (cs₁ ++ (β, c) :: (.key splitKey, newRight) :: cs₂).map (·.2) := by
  have insert := insertIdx_length ((cs₁ ++ [(β, c)]).map (·.2)) (cs₂.map (·.2)) newRight
  rw [length_map, length_append, index] at insert
  simpa using insert

theorem insertIdx_keys {newRight : Nat} (index : cs₁.length = i) (splitKey : GoString)
    (bounds : (cs₁ ++ (β, c) :: cs₂).map (·.1) = a.bound :: keys.map .key) :
    (cs₁ ++ (β, c) :: (.key splitKey, newRight) :: cs₂).map (·.1) =
      a.bound :: (keys.insertIdx i splitKey).map .key := by
  have insert := insertIdx_length ((cs₁ ++ [(β, c)]).map (·.1)) (cs₂.map (·.1)) (Bound.key splitKey)
  have same : (cs₁ ++ [(β, c)]).map (·.1) ++ cs₂.map (·.1) = a.bound :: keys.map .key := by simpa using bounds
  rw [same, length_map, length_append, index, length_singleton, insertIdx_succ_cons, ← map_insertIdx] at insert
  simpa using insert.symm

theorem insertRec_branch (here : s.Holds t p (.branch keys children)) :
    (insertRec t key loc (fuel + 1) p).run s = PageProg.run (do
      match ← insertRec t key loc fuel (children.getD (internalChildIdx keys key) 0) with
      | .error e => return .error e
      | .ok (splitKey, newRight) =>
        if newRight = 0 then return .ok ([], 0)
        else
          match ← readNode t p with
          | .error e => return .error e
          | .ok (n, page) =>
            flushInternal t { n with
              keys := n.keys.insertIdx (internalChildIdx keys key) splitKey
              children := n.children.insertIdx (internalChildIdx keys key + 1) newRight } page) s := by
  rw [insertRec.eq_2, run_bind, run_readNode here]
  rfl

theorem run_insertRec (sub : Subtree (s.Holds t) d a b p es ps) (nodup : ps.Nodup)
    (low : a.bound.Le key) (high : ¬ b.bound.Le key) (fits : loc.Fits) (enough : d < fuel) :
    Inserted s t d a b p (insertEntry key loc es) ps ((insertRec t key loc fuel p).run s) := by
  obtain ⟨fuel, rfl⟩ : ∃ f, fuel = f + 1 := ⟨fuel - 1, by omega⟩
  induction d generalizing a b p es ps fuel with
  | zero =>
    obtain ⟨first, rfl, here, tidy⟩ := sub
    rw [insertRec.eq_2, run_bind, run_readNode here]
    exact run_insertLeaf here first tidy low high fits _
  | succ d ih =>
    have known := page_le sub
    obtain ⟨keys, cs, qs, here, bounds, row, rfl⟩ := sub
    obtain ⟨fuel, rfl⟩ : ∃ f, fuel = f + 1 := ⟨fuel - 1, by omega⟩
    rw [insertRec_branch here, run_bind]
    have located := row.locate bounds low high
    generalize index' : Row.childIndex keys key = i at located
    cases located with
    | @mk m₁ m₂ c cs₁ cs₂ es₁ es es₂ ps₁ ps ps₂ index low' high' left found right =>
      rw [show getD _ (internalChildIdx keys key) 0 = c from getD_children (index.trans index'.symm)]
      have parts : (p :: ps₁ ++ (ps ++ ps₂)).Nodup := nodup
      obtain ⟨nodup', -⟩ := nodup_append.1 (nodup_append.1 parts).2.1
      have below := (left.tidy tidy).below low'
      have above := (right.tidy tidy).above high'
      rw [insertEntry_middle below above]
      have inserted := ih found nodup' low' high' fuel (by omega)
      generalize (insertRec t key loc (fuel + 1) c).run s = r at inserted ⊢
      cases inserted with
      | failed ended => exact .failed ended
      | kept sub rewrote =>
        obtain ⟨here', left', right'⟩ := keep_around here left right parts rewrote
        exact .kept (.branch here' bounds (left'.append (.cons sub right'))) (rewrote.around parts known)
      | @split s' m splitKey newRight ea eb pa pb bound new entries lower upper rewrote =>
        obtain ⟨here', left', right'⟩ := keep_around here left right parts rewrote
        dsimp only
        rw [if_neg new.1, run_bind, run_readNode here']
        dsimp only [ofNode]
        have node : {
            nodeType := internalNode
            keys := keys.insertIdx (internalChildIdx keys key) splitKey
            children := ((cs₁ ++ (m₁.bound, c) :: cs₂).map (·.2)).insertIdx (internalChildIdx keys key + 1) newRight
            pageID := p } = ofNode p (.branch (keys.insertIdx i splitKey)
              ((cs₁ ++ (m₁.bound, c) :: (.key splitKey, newRight) :: cs₂).map (·.2))) := by
          have at' : internalChildIdx keys key = i := index'
          rw [at', insertIdx_children index splitKey]
          rfl
        rw [node, entries]
        have row' : Row (Subtree (s'.Holds t) d) a b (cs₁ ++ (m₁.bound, c) :: (.key splitKey, newRight) :: cs₂)
            (es₁ ++ (ea ++ eb ++ es₂)) (ps₁ ++ (pa ++ pb ++ ps₂)) := by
          rw [append_assoc ea, append_assoc pa, ← bound]
          exact left'.append (.cons lower (.cons upper right'))
        have whole : Rewrote s s' t (p :: (ps₁ ++ (ps ++ ps₂))) (p :: (ps₁ ++ (pa ++ pb ++ ps₂))) :=
          rewrote.around parts known
        refine (run_flushInternal ⟨here'.1, here'.2.1⟩ ?_ (insertIdx_keys index splitKey bounds) row' whole.nodup
          ?_ _).after whole
        · intro e mem
          have fit := (here.shaped.internal (not_leaf p keys _)).2.2
          simp only [mem_append, mem_cons] at mem
          have : e = (.key splitKey, newRight) ∨ e ∈ cs₁ ++ (m₁.bound, c) :: cs₂ := by
            simp only [mem_append, mem_cons]
            tauto
          rcases this with rfl | old
          · exact new.2
          · exact fit e.2 (mem_map_of_mem old)
        · intro q mem
          rcases whole.pages q mem with old | new
          · exact (known q old).trans rewrote.last
          · exact new.2

end Descent

end BTree

end TransactionManager.Storage
