import TransactionManager.Storage.Page

/-!
# The nodes of a B+ tree on their pages

`btreeNode`, `encodeNode` and `decodeNode` of `internal/storage/btree.go`. A node takes the whole
page behind the page header. The encoding refuses a node that is too large; what it takes is read
back, whatever the rest of the page was.
-/

namespace TransactionManager.Storage
open Lib TransactionManager.Types List

structure RowLocation where
  pageID : Nat
  slotID : Nat
  deriving DecidableEq

/-- `LeafNode` and `InternalNode`. -/
def leafNode : UInt8 := 0

def internalNode : UInt8 := 1

structure BTreeNode where
  nodeType : UInt8
  keys : List GoString := []
  children : List Nat := []
  values : List RowLocation := []
  rightSibling : Nat := 0
  pageID : Nat
  deriving DecidableEq

def maxDataBytes : Nat := pageSize - pageHeaderSize

/-- What the encoding and the decoding of a node refuse, with the index they stop at. -/
inductive NodeError where
  | tooLargeKeys
  | tooLargeLeafValues
  | tooLargeChildren
  | tooShort (len : Nat)
  | truncatedKeyLength (i : Nat)
  | truncatedKeyBytes (i : Nat)
  | truncatedLeafValue (i : Nat)
  | truncatedChild (i : Nat)
  deriving DecidableEq

namespace BTreeNode
variable {keys : List GoString} {n : BTreeNode} {b : List UInt8} {i count : Nat}

def keyBytes (key : GoString) : List UInt8 := leBytes 2 key.length ++ key

def locBytes (loc : RowLocation) : List UInt8 := leBytes 8 loc.pageID ++ leBytes 4 loc.slotID

/-- Type, key count and right sibling. -/
def headBytes (n : BTreeNode) : List UInt8 := n.nodeType :: (leBytes 2 n.keys.length ++ leBytes 8 n.rightSibling)

/-- The locations of a leaf, the children of an internal node. -/
def tailBytes (n : BTreeNode) : List UInt8 :=
  if n.nodeType = leafNode then n.values.flatMap locBytes else n.children.flatMap (leBytes 8)

def encode (n : BTreeNode) : Except NodeError (List UInt8) :=
  let front := n.headBytes ++ n.keys.flatMap keyBytes
  if maxDataBytes < front.length then .error .tooLargeKeys
  else if maxDataBytes < (front ++ n.tailBytes).length then
    .error (if n.nodeType = leafNode then .tooLargeLeafValues else .tooLargeChildren)
  else .ok (front ++ n.tailBytes)

/-- The loop over the keys, from key `i` on, with `count` keys left. -/
def decodeKeys (i : Nat) : Nat → List UInt8 → Except NodeError (List GoString × List UInt8)
  | 0, b => .ok ([], b)
  | count + 1, b =>
    if b.length < 2 then .error (.truncatedKeyLength i)
    else
      let klen := leNat (b.take 2)
      let body := b.drop 2
      if body.length < klen then .error (.truncatedKeyBytes i)
      else (decodeKeys (i + 1) count (body.drop klen)).map fun (keys, rest) =>
        (body.take klen :: keys, rest)

/-- The loop over the locations of a leaf. -/
def decodeValues (i : Nat) : Nat → List UInt8 → Except NodeError (List RowLocation)
  | 0, _ => .ok []
  | count + 1, b =>
    if b.length < 12 then .error (.truncatedLeafValue i)
    else (decodeValues (i + 1) count (b.drop 12)).map fun values =>
      ⟨leNat (b.take 8), leNat ((b.drop 8).take 4)⟩ :: values

/-- The loop over the children of an internal node. -/
def decodeChildren (i : Nat) : Nat → List UInt8 → Except NodeError (List Nat)
  | 0, _ => .ok []
  | count + 1, b =>
    if b.length < 8 then .error (.truncatedChild i)
    else (decodeChildren (i + 1) count (b.drop 8)).map fun children => leNat (b.take 8) :: children

def decode (pageID : Nat) (data : List UInt8) : Except NodeError BTreeNode :=
  if data.length < 11 then .error (.tooShort data.length)
  else
    let nodeType := data.headD 0
    let keyCount := leNat ((data.drop 1).take 2)
    let rightSibling := leNat ((data.drop 3).take 8)
    match decodeKeys 0 keyCount (data.drop 11) with
    | .error e => .error e
    | .ok (keys, rest) =>
      if nodeType = leafNode then
        (decodeValues 0 keyCount rest).map fun values => { nodeType, keys, values, rightSibling, pageID }
      else
        (decodeChildren 0 (keyCount + 1) rest).map fun children =>
          { nodeType, keys, children, rightSibling, pageID }

/-- A node whose numbers fit their fields: as many locations as keys, or one more child. -/
structure Shaped (n : BTreeNode) : Prop where
  sibling : n.rightSibling < 2 ^ 64
  leaf : n.nodeType = leafNode → n.values.length = n.keys.length ∧ n.children = [] ∧
    ∀ loc ∈ n.values, loc.pageID < 2 ^ 64 ∧ loc.slotID < 2 ^ 32
  internal : n.nodeType ≠ leafNode → n.children.length = n.keys.length + 1 ∧ n.values = [] ∧
    ∀ c ∈ n.children, c < 2 ^ 64

theorem decodeKeys_encode (short : ∀ k ∈ keys, k.length < 2 ^ 16) (i : Nat)
    (rest : List UInt8) : decodeKeys i keys.length (keys.flatMap keyBytes ++ rest) = .ok (keys, rest) := by
  induction keys generalizing i with
  | nil => rfl
  | cons k ks ih =>
    have len : leNat ((leBytes 2 k.length ++ (k ++ (ks.flatMap keyBytes ++ rest))).take 2) = k.length :=
      leNat_take_append (short k mem_cons_self) _
    have step := ih (fun k' mem => short k' (mem_cons_of_mem _ mem)) (i + 1)
    simp only [flatMap_cons, keyBytes, append_assoc, length_cons, decodeKeys, len, drop_leBytes_append]
    rw [if_neg (by rw [length_append, length_leBytes]; omega),
      if_neg (by rw [length_append]; omega), drop_left, take_left, step]
    rfl

theorem decodeValues_encode {values : List RowLocation}
    (fit : ∀ loc ∈ values, loc.pageID < 2 ^ 64 ∧ loc.slotID < 2 ^ 32) (i : Nat) (rest : List UInt8) :
    decodeValues i values.length (values.flatMap locBytes ++ rest) = .ok values := by
  induction values generalizing i with
  | nil => rfl
  | cons v vs ih =>
    obtain ⟨page, slot⟩ : v.pageID < 256 ^ 8 ∧ v.slotID < 256 ^ 4 := fit v mem_cons_self
    have step := ih (fun v' mem => fit v' (mem_cons_of_mem _ mem)) (i + 1)
    have split : (leBytes 8 v.pageID ++ (leBytes 4 v.slotID ++ (vs.flatMap locBytes ++ rest))).drop 12 =
        vs.flatMap locBytes ++ rest := by
      rw [← append_assoc]
      exact drop_left' (by simp)
    simp only [flatMap_cons, locBytes, append_assoc, length_cons, decodeValues, split, drop_leBytes_append]
    rw [if_neg (by simp only [length_append, length_leBytes]; omega), step, leNat_take_append page,
      leNat_take_append slot]
    rfl

theorem decodeChildren_encode {children : List Nat} (fit : ∀ c ∈ children, c < 2 ^ 64) (i : Nat) (rest : List UInt8) :
    decodeChildren i children.length (children.flatMap (leBytes 8) ++ rest) = .ok children := by
  induction children generalizing i with
  | nil => rfl
  | cons c cs ih =>
    have first : c < 256 ^ 8 := fit c mem_cons_self
    have step := ih (fun c' mem => fit c' (mem_cons_of_mem _ mem)) (i + 1)
    simp only [flatMap_cons, append_assoc, length_cons, decodeChildren, drop_leBytes_append]
    rw [if_neg (by rw [length_append, length_leBytes]; omega), step, leNat_take_append first]
    rfl

/-- A key takes at least its length. -/
theorem length_le_of_mem {k : GoString} (mem : k ∈ keys) : k.length ≤ (keys.flatMap keyBytes).length := by
  obtain ⟨before, after, rfl⟩ := append_of_mem mem
  simp only [flatMap_append, flatMap_cons, keyBytes, length_append]
  omega

/-- What was encoded is decoded, with any bytes behind it. -/
theorem decode_encode (shaped : n.Shaped) (encoded : n.encode = .ok b)
    (rest : List UInt8) : decode n.pageID (b ++ rest) = .ok n := by
  unfold encode at encoded
  dsimp only at encoded
  split at encoded
  · cases encoded
  rename_i small
  split at encoded
  · cases encoded
  cases encoded
  have size : (n.keys.flatMap keyBytes).length ≤ 4064 := by
    rw [length_append] at small
    simp only [maxDataBytes, pageSize, pageHeaderSize] at small
    omega
  have short (k : GoString) (mem : k ∈ n.keys) : k.length < 2 ^ 16 := by
    have := length_le_of_mem mem
    omega
  have count : n.keys.length < 256 ^ 2 := by
    have : n.keys.length ≤ (n.keys.flatMap keyBytes).length := by
      induction n.keys with
      | nil => simp
      | cons k ks ih =>
        rw [flatMap_cons, length_append, length_cons]
        have : (keyBytes k).length = 2 + k.length := by simp [keyBytes]
        omega
    omega
  have data : n.headBytes ++ n.keys.flatMap keyBytes ++ n.tailBytes ++ rest =
      n.nodeType :: (leBytes 2 n.keys.length ++ (leBytes 8 n.rightSibling ++
        (n.keys.flatMap keyBytes ++ (n.tailBytes ++ rest)))) := by
    simp [headBytes]
  rw [data]
  unfold decode
  have sibling : (n.nodeType :: (leBytes 2 n.keys.length ++ (leBytes 8 n.rightSibling ++
      (n.keys.flatMap keyBytes ++ (n.tailBytes ++ rest))))).drop 3 =
        leBytes 8 n.rightSibling ++ (n.keys.flatMap keyBytes ++ (n.tailBytes ++ rest)) := by
    rw [drop_succ_cons, drop_leBytes_append]
  have body : (n.nodeType :: (leBytes 2 n.keys.length ++ (leBytes 8 n.rightSibling ++
      (n.keys.flatMap keyBytes ++ (n.tailBytes ++ rest))))).drop 11 =
        n.keys.flatMap keyBytes ++ (n.tailBytes ++ rest) := by
    rw [show (11 : Nat) = 3 + 8 from rfl, ← drop_drop, sibling, drop_leBytes_append]
  have right : n.rightSibling < 256 ^ 8 := shaped.sibling
  rw [if_neg (by simp only [length_cons, length_append, length_leBytes]; omega)]
  simp only [sibling, body, drop_succ_cons, drop_zero, headD_cons,
    leNat_take_append count, leNat_take_append right, decodeKeys_encode short]
  unfold tailBytes
  split
  · rename_i leaf
    obtain ⟨values, children, fit⟩ := shaped.leaf leaf
    rw [← values, decodeValues_encode fit]
    cases n
    simp_all [Except.map]
  · rename_i internal
    obtain ⟨children, values, fit⟩ := shaped.internal internal
    rw [← children, decodeChildren_encode fit]
    cases n
    simp_all [Except.map]

/-- What was encoded is decoded from its page: all but the field that a node of its type has no use for. -/
theorem decode_padded (pageID : Nat) (lengths : if n.nodeType = leafNode then n.values.length = n.keys.length
      else n.children.length = n.keys.length + 1) (slots : ∀ loc ∈ n.values, loc.slotID < 2 ^ 32)
    (wide : n.rightSibling < 2 ^ 64 ∧ (∀ loc ∈ n.values, loc.pageID < 2 ^ 64) ∧ ∀ c ∈ n.children, c < 2 ^ 64)
    (encoded : n.encode = .ok b) : decode pageID (b ++ replicate (maxDataBytes - b.length) 0) =
      .ok (if n.nodeType = leafNode then { n with children := [], pageID } else { n with values := [], pageID }) := by
  obtain ⟨sibling, pages, children⟩ := wide
  split at lengths
  · rename_i leaf
    have same : encode { n with children := [], pageID } = n.encode := by simp [encode, headBytes, tailBytes, leaf]
    rw [if_pos leaf]
    refine decode_encode (n := { n with children := [], pageID }) ⟨sibling, fun _ => ?_, (absurd leaf ·)⟩
      (same.trans encoded) _
    exact ⟨lengths, rfl, fun loc mem => ⟨pages loc mem, slots loc mem⟩⟩
  · rename_i internal
    have same : encode { n with values := [], pageID } = n.encode := by simp [encode, headBytes, tailBytes, internal]
    rw [if_neg internal]
    exact decode_encode (n := { n with values := [], pageID }) ⟨sibling, (absurd · internal), fun _ => ⟨lengths, rfl, children⟩⟩
      (same.trans encoded) _

/-- A leaf with one row, decoded from a page. -/
theorem decode_padded_leaf : ∃ b, encode ⟨leafNode, [[97]], [], [⟨1, 2⟩], 3, 4⟩ = .ok b ∧
    decode 4 (b ++ replicate (maxDataBytes - b.length) 0) = .ok ⟨leafNode, [[97]], [], [⟨1, 2⟩], 3, 4⟩ := by
  exact ⟨_, rfl, decode_padded (n := ⟨leafNode, [[97]], [], [⟨1, 2⟩], 3, 4⟩) 4 (by decide) (by decide) (by decide) rfl⟩

/-- The bytes a node takes. -/
def size (n : BTreeNode) : Nat := 11 + (n.keys.flatMap keyBytes).length + n.tailBytes.length

theorem encode_of_size (small : n.size ≤ maxDataBytes) :
    n.encode = .ok (n.headBytes ++ n.keys.flatMap keyBytes ++ n.tailBytes) := by
  have head : n.headBytes.length = 11 := by simp [headBytes]
  unfold size at small
  unfold encode
  rw [if_neg (by rw [length_append]; omega), if_neg (by simp only [length_append]; omega)]

theorem length_encode (encoded : n.encode = .ok b) : b.length ≤ maxDataBytes := by
  unfold encode at encoded
  dsimp only at encoded
  split at encoded
  · cases encoded
  split at encoded
  · cases encoded
  · rename_i small
    cases encoded
    exact Nat.le_of_not_lt small

theorem of_map_ok {ε α β : Type} {x : Except ε α} {f : α → β} {y : β} (done : x.map f = .ok y) :
    ∃ a, x = .ok a ∧ f a = y := by
  cases x with
  | error e => cases done
  | ok a => exact ⟨a, rfl, Except.ok.inj done⟩

theorem decodeKeys_size {rest : List UInt8} (decoded : decodeKeys i count b = .ok (keys, rest)) :
    keys.length = count ∧ b.length = (keys.flatMap keyBytes).length + rest.length := by
  induction count generalizing i b keys with
  | zero =>
    cases decoded
    simp
  | succ count ih =>
    dsimp only [decodeKeys] at decoded
    split at decoded
    · cases decoded
    split at decoded
    · cases decoded
    obtain ⟨r, tail, ⟨⟩⟩ := of_map_ok decoded
    obtain ⟨len, size⟩ := ih tail
    simp only [length_drop] at *
    refine ⟨by simp [len], ?_⟩
    simp only [flatMap_cons, length_append, keyBytes, length_leBytes, length_take, length_drop]
    omega

theorem decodeValues_size {values : List RowLocation} (decoded : decodeValues i count b = .ok values) :
    values.length = count ∧ (values.flatMap locBytes).length ≤ b.length ∧
      ∀ loc ∈ values, loc.pageID < 2 ^ 64 ∧ loc.slotID < 2 ^ 32 := by
  induction count generalizing i b values with
  | zero =>
    cases decoded
    simp
  | succ count ih =>
    dsimp only [decodeValues] at decoded
    split at decoded
    · cases decoded
    obtain ⟨values', tail, rfl⟩ := of_map_ok decoded
    obtain ⟨len, size, fit⟩ := ih tail
    rw [length_drop] at size
    have page := leNat_lt (b.take 8)
    have slot := leNat_lt ((b.drop 8).take 4)
    rw [length_take, Nat.min_eq_left (by omega)] at page
    rw [length_take, length_drop, Nat.min_eq_left (by omega)] at slot
    refine ⟨by simp [len], ?_, forall_mem_cons.2 ⟨⟨page, slot⟩, fit⟩⟩
    simp only [flatMap_cons, length_append, locBytes, length_leBytes]
    omega

theorem decodeChildren_size {children : List Nat} (decoded : decodeChildren i count b = .ok children) :
    children.length = count ∧ (children.flatMap (leBytes 8)).length ≤ b.length ∧ ∀ c ∈ children, c < 2 ^ 64 := by
  induction count generalizing i b children with
  | zero =>
    cases decoded
    simp
  | succ count ih =>
    dsimp only [decodeChildren] at decoded
    split at decoded
    · cases decoded
    obtain ⟨children', tail, rfl⟩ := of_map_ok decoded
    obtain ⟨len, size, fit⟩ := ih tail
    rw [length_drop] at size
    have child := leNat_lt (b.take 8)
    rw [length_take, Nat.min_eq_left (by omega)] at child
    refine ⟨by simp [len], ?_, forall_mem_cons.2 ⟨child, fit⟩⟩
    simp only [flatMap_cons, length_append, length_leBytes]
    omega

/-- What is decoded has the shape of a node, and takes no more bytes than it was read from. -/
theorem shaped_of_decode {pageID : Nat} {data : List UInt8}
    (decoded : decode pageID data = .ok n) : n.Shaped ∧ n.size ≤ data.length := by
  unfold decode at decoded
  split at decoded
  · cases decoded
  dsimp only at decoded
  have sibling := leNat_lt ((data.drop 3).take 8)
  rw [length_take, length_drop, Nat.min_eq_left (by omega)] at sibling
  cases found : decodeKeys 0 (leNat ((data.drop 1).take 2)) (data.drop 11) with
  | error e =>
    rw [found] at decoded
    cases decoded
  | ok r =>
    obtain ⟨keys, rest⟩ := r
    rw [found] at decoded
    dsimp only at decoded
    obtain ⟨len, size⟩ := decodeKeys_size found
    rw [length_drop] at size
    split at decoded
    · rename_i leaf
      obtain ⟨values, tail, rfl⟩ := of_map_ok decoded
      obtain ⟨len', size', fit⟩ := decodeValues_size tail
      refine ⟨⟨sibling, fun _ => ⟨len'.trans len.symm, rfl, fit⟩, fun internal => absurd leaf internal⟩, ?_⟩
      simp only [BTreeNode.size, tailBytes, if_pos leaf]
      omega
    · rename_i internal
      obtain ⟨children, tail, rfl⟩ := of_map_ok decoded
      obtain ⟨len', size', fit⟩ := decodeChildren_size tail
      refine ⟨⟨sibling, fun leaf => absurd leaf internal, fun _ => ⟨by rw [len', len], rfl, fit⟩⟩, ?_⟩
      simp only [BTreeNode.size, tailBytes, if_neg internal]
      omega

end BTreeNode

end TransactionManager.Storage
