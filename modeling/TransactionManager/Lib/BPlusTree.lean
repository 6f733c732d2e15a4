import Mathlib.Data.List.Nodup

/-!
# B+ trees over numbered pages

The invariant of a B+ tree whose nodes sit on pages and point to each other by page number. A
subtree covers the keys between two seams; a seam is a bound together with the leaf that begins
there, so one notion says that the key ranges and the chain of leaves fit together. Children of a
branch form a row of subtrees, seam to seam, which can be cut around the child that has a key.
-/

namespace TransactionManager.Lib.BPlus
open List
variable {K V : Type}

/-- What a page holds. A leaf knows the next leaf; a branch has one child more than keys. -/
inductive Node (K V : Type) where
  | leaf (entries : List (K × V)) (next : Nat)
  | branch (keys : List K) (children : List Nat)

/-- A place between keys: below all of them, just below one, above all of them. -/
inductive Bound (K : Type) where
  | bot
  | key (k : K)
  | top

/-- Where one subtree ends and the next begins: a bound, and the leaf right of it. -/
structure Seam (K : Type) where
  bound : Bound K
  leaf : Nat

section Entries
variable [LT K] [DecidableLT K]

/-- The entries with one more, which replaces the one of that key. -/
def insertEntry (k : K) (v : V) (es : List (K × V)) : List (K × V) :=
  es.filter (·.1 < k) ++ (k, v) :: es.filter (k < ·.1)

def eraseEntry (k : K) (es : List (K × V)) : List (K × V) := es.filter (·.1 < k) ++ es.filter (k < ·.1)

def Sorted (es : List (K × V)) : Prop := es.Pairwise (·.1 < ·.1)

variable {k : K} {v : V} {es es₁ es₂ : List (K × V)}

section Middle
variable (left : ∀ e ∈ es₁, e.1 < k ∧ ¬ k < e.1) (right : ∀ e ∈ es₂, k < e.1 ∧ ¬ e.1 < k)
include left right

theorem filter_middle : (es₁ ++ (es ++ es₂)).filter (·.1 < k) = es₁ ++ es.filter (·.1 < k) ∧
    (es₁ ++ (es ++ es₂)).filter (k < ·.1) = es.filter (k < ·.1) ++ es₂ := by
  have keep₁ : es₁.filter (·.1 < k) = es₁ := filter_eq_self.2 fun e mem => by simpa using (left e mem).1
  have drop₁ : es₁.filter (k < ·.1) = [] := filter_eq_nil_iff.2 fun e mem => by simpa using (left e mem).2
  have keep₂ : es₂.filter (k < ·.1) = es₂ := filter_eq_self.2 fun e mem => by simpa using (right e mem).1
  have drop₂ : es₂.filter (·.1 < k) = [] := filter_eq_nil_iff.2 fun e mem => by simpa using (right e mem).2
  simp [keep₁, drop₁, keep₂, drop₂]

theorem insertEntry_middle : insertEntry k v (es₁ ++ (es ++ es₂)) = es₁ ++ (insertEntry k v es ++ es₂) := by
  rw [insertEntry, (filter_middle left right).1, (filter_middle left right).2]
  simp [insertEntry]

theorem eraseEntry_middle : eraseEntry k (es₁ ++ (es ++ es₂)) = es₁ ++ (eraseEntry k es ++ es₂) := by
  rw [eraseEntry, (filter_middle left right).1, (filter_middle left right).2]
  simp [eraseEntry]

end Middle

end Entries

section Order
variable [LE K]

/-- The key is not left of the bound. -/
def Bound.Le : Bound K → K → Prop
  | .bot, _ => True
  | .key b, k => b ≤ k
  | .top, _ => False

theorem Bound.Le.trans [Std.IsLinearOrder K] {b : Bound K} {k k' : K} (le : b.Le k) (up : k ≤ k') : b.Le k' := by
  cases b with
  | bot => trivial
  | key b => exact Std.le_trans le up
  | top => exact le

variable [LT K]

theorem Bound.lt_of [Std.IsLinearOrder K] [Std.LawfulOrderLT K] {b : Bound K} {k k' : K} (out : ¬ b.Le k) (le : b.Le k') : k < k' := by
  have : ¬ k' ≤ k := fun up => out (le.trans up)
  grind

structure Tidy (a b : Seam K) (es : List (K × V)) : Prop where
  le : ∀ k, b.bound.Le k → a.bound.Le k
  low : ∀ e ∈ es, a.bound.Le e.1
  high : ∀ e ∈ es, ¬ b.bound.Le e.1
  sorted : Sorted es

namespace Tidy
variable {a b m : Seam K} {es es' : List (K × V)} {k : K} {v : V}

theorem nil (a : Seam K) : Tidy a a ([] : List (K × V)) := ⟨fun _ le => le, by simp, by simp, .nil⟩

variable [Std.IsLinearOrder K] [Std.LawfulOrderLT K]

theorem append (left : Tidy a m es) (right : Tidy m b es') : Tidy a b (es ++ es') where
  le k le := left.le k (right.le k le)
  low := forall_mem_append.2 ⟨left.low, fun e mem => left.le _ (right.low e mem)⟩
  high := forall_mem_append.2 ⟨fun e mem le => left.high e mem (right.le _ le), right.high⟩
  sorted := pairwise_append.2 ⟨left.sorted, right.sorted, fun e mem e' mem' =>
    Bound.lt_of (left.high e mem) (right.low e' mem')⟩

/-- Entries left of a seam are below a key right of it. -/
theorem below (tidy : Tidy a b es) (le : b.bound.Le k) : ∀ e ∈ es, e.1 < k ∧ ¬ k < e.1 := by
  intro e mem
  have := Bound.lt_of (tidy.high e mem) le
  grind

theorem above (tidy : Tidy a b es) (out : ¬ a.bound.Le k) : ∀ e ∈ es, k < e.1 ∧ ¬ e.1 < k := by
  intro e mem
  have := Bound.lt_of out (tidy.low e mem)
  grind

theorem split (tidy : Tidy a b (es ++ es')) {e : K × V} (first : es'.head? = some e) (leaf : Nat) :
    Tidy a ⟨.key e.1, leaf⟩ es ∧ Tidy ⟨.key e.1, leaf⟩ b es' := by
  obtain ⟨rest, rfl⟩ : ∃ rest, es' = e :: rest := by
    cases es' with
    | nil => cases first
    | cons e' rest => exact ⟨rest, by cases first; rfl⟩
  obtain ⟨sorted, sorted', across⟩ := pairwise_append.1 tidy.sorted
  have here : e ∈ es ++ e :: rest := by simp
  refine ⟨⟨fun k le => ?_, fun d mem => tidy.low d (mem_append_left _ mem), fun d mem => ?_, sorted⟩,
    ⟨fun k le => ?_, fun d mem => ?_, fun d mem => tidy.high d (mem_append_right _ mem), sorted'⟩⟩
  · exact (tidy.low e here).trans le
  · show ¬ e.1 ≤ d.1
    grind
  · have lt := Bound.lt_of (tidy.high e here) le
    show e.1 ≤ k
    grind
  · show e.1 ≤ d.1
    rcases mem_cons.1 mem with rfl | mem
    · exact Std.le_refl _
    · have lt := (pairwise_cons.1 sorted').1 d mem
      grind

variable [DecidableLT K]

theorem insert (tidy : Tidy a b es) (low : a.bound.Le k) (high : ¬ b.bound.Le k) : Tidy a b (insertEntry k v es) where
  le := tidy.le
  low e mem := by
    rcases mem_append.1 mem with mem | mem
    · exact tidy.low e (mem_of_mem_filter mem)
    · rcases mem_cons.1 mem with rfl | mem
      · exact low
      · exact tidy.low e (mem_of_mem_filter mem)
  high e mem := by
    rcases mem_append.1 mem with mem | mem
    · exact tidy.high e (mem_of_mem_filter mem)
    · rcases mem_cons.1 mem with rfl | mem
      · exact high
      · exact tidy.high e (mem_of_mem_filter mem)
  sorted := by
    refine pairwise_append.2 ⟨tidy.sorted.filter _, pairwise_cons.2 ⟨?_, tidy.sorted.filter _⟩, ?_⟩
    · simp
    · intro e mem e' mem'
      have lt : e.1 < k := by simpa using (mem_filter.1 mem).2
      rcases mem_cons.1 mem' with rfl | mem'
      · exact lt
      · grind

theorem erase (tidy : Tidy a b es) : Tidy a b (eraseEntry k es) := by
  have mem {e : K × V} (mem : e ∈ eraseEntry k es) : e ∈ es := by
    rcases mem_append.1 mem with mem | mem <;> exact mem_of_mem_filter mem
  refine ⟨tidy.le, fun e found => tidy.low e (mem found), fun e found => tidy.high e (mem found), ?_⟩
  refine pairwise_append.2 ⟨tidy.sorted.filter _, tidy.sorted.filter _, fun e found e' found' => ?_⟩
  grind

end Tidy

end Order

section Membership
variable [LE K] [LT K] [Std.IsLinearOrder K] [Std.LawfulOrderLT K] [DecidableLT K]
variable {k k' : K} {v v' : V} {es : List (K × V)}

theorem mem_insertEntry : (k', v') ∈ insertEntry k v es ↔ k' = k ∧ v' = v ∨ k' ≠ k ∧ (k', v') ∈ es := by
  simp only [insertEntry, mem_append, mem_cons, mem_filter, decide_eq_true_eq, Prod.mk.injEq]
  grind

theorem mem_eraseEntry : (k', v') ∈ eraseEntry k es ↔ k' ≠ k ∧ (k', v') ∈ es := by
  simp only [eraseEntry, mem_append, mem_filter, decide_eq_true_eq]
  grind

theorem Sorted.filters (sorted : Sorted es) (k : K) : (∃ v, es = es.filter (·.1 < k) ++ (k, v) :: es.filter (k < ·.1)) ∨
      es = es.filter (·.1 < k) ++ es.filter (k < ·.1) := by
  induction es with
  | nil => exact .inr rfl
  | cons e es ih =>
    obtain ⟨after, sorted⟩ := pairwise_cons.1 sorted
    have above (le : k ≤ e.1) : es.filter (·.1 < k) = [] ∧ es.filter (k < ·.1) = es := by
      constructor
      · refine filter_eq_nil_iff.2 fun e' mem => ?_
        grind
      · refine filter_eq_self.2 fun e' mem => ?_
        grind
    by_cases less : e.1 < k
    · have gap : ¬ k < e.1 := by grind
      simp only [filter_cons, less, gap, decide_true, decide_false, if_true, Bool.false_eq_true, if_false,
        cons_append, cons.injEq, true_and]
      exact ih sorted
    · obtain ⟨none, all⟩ := above (by grind)
      by_cases eq : e.1 = k
      · subst eq
        exact .inl ⟨e.2, by simp [less, none, all]⟩
      · have more : k < e.1 := by grind
        exact .inr (by simp [less, more, none, all])

/-- Sorted entries around a key: it has an entry, or there is a gap for it. -/
theorem Sorted.cut (sorted : Sorted es) (k : K) : ∃ left right, (∀ e ∈ left, e.1 < k) ∧
    (∀ e ∈ right, k < e.1) ∧ (∀ v, insertEntry k v es = left ++ (k, v) :: right) ∧
    eraseEntry k es = left ++ right ∧ ((∃ v, es = left ++ (k, v) :: right) ∨ es = left ++ right) := by
  refine ⟨_, _, fun e mem => ?_, fun e mem => ?_, fun _ => rfl, rfl, sorted.filters k⟩
  · simpa using (mem_filter.1 mem).2
  · simpa using (mem_filter.1 mem).2

end Membership

/-- A subtree predicate: the seams it lies between, its page, its entries and all its pages. -/
abbrev Shape (K V : Type) := Seam K → Seam K → Nat → List (K × V) → List Nat → Prop

/-- Subtrees side by side, seam to seam, with the bound and the page of each. -/
inductive Row (P : Shape K V) : Seam K → Seam K → List (Bound K × Nat) → List (K × V) → List Nat → Prop where
  | nil (a : Seam K) : Row P a a [] [] []
  | cons {a m b : Seam K} {c : Nat} {cs : List (Bound K × Nat)} {es es' : List (K × V)} {ps ps' : List Nat} :
      P a m c es ps → Row P m b cs es' ps' → Row P a b ((a.bound, c) :: cs) (es ++ es') (ps ++ ps')

namespace Row
variable {P Q : Shape K V} {a m b : Seam K} {cs cs' : List (Bound K × Nat)} {es es' : List (K × V)} {ps ps' : List Nat}

theorem append (left : Row P a m cs es ps) (right : Row P m b cs' es' ps') :
    Row P a b (cs ++ cs') (es ++ es') (ps ++ ps') := by
  induction left with
  | nil => exact right
  | cons here _ ih =>
    rw [append_assoc, append_assoc]
    exact .cons here (ih right)

theorem split (row : Row P a b (cs ++ cs') es ps) : ∃ m es₁ es₂ ps₁ ps₂,
    es = es₁ ++ es₂ ∧ ps = ps₁ ++ ps₂ ∧ Row P a m cs es₁ ps₁ ∧ Row P m b cs' es₂ ps₂ := by
  induction cs generalizing a es ps with
  | nil => exact ⟨a, [], es, [], ps, rfl, rfl, .nil a, row⟩
  | cons c cs ih =>
    cases row with
    | cons here rest =>
      obtain ⟨m, es₁, es₂, ps₁, ps₂, rfl, rfl, left, right⟩ := ih rest
      exact ⟨m, _ ++ es₁, es₂, _ ++ ps₁, ps₂, (append_assoc ..).symm, (append_assoc ..).symm, .cons here left, right⟩

theorem bound_eq {β : Bound K} {c : Nat} (row : Row P a b ((β, c) :: cs) es ps) : a.bound = β := by
  cases row
  rfl

theorem mono (row : Row P a b cs es ps)
    (change : ∀ {a b : Seam K} {c : Nat} {es : List (K × V)} {ps' : List Nat}, (∀ p ∈ ps', p ∈ ps) →
      P a b c es ps' → Q a b c es ps') : Row Q a b cs es ps := by
  induction row with
  | nil a => exact .nil a
  | cons here _ ih =>
    exact .cons (change (fun p mem => mem_append_left _ mem) here)
      (ih fun sub => change fun p mem => mem_append_right _ (sub p mem))

theorem tidy [LE K] [LT K] [Std.IsLinearOrder K] [Std.LawfulOrderLT K] (row : Row P a b cs es ps)
    (each : ∀ {a b : Seam K} {c : Nat} {es : List (K × V)} {ps : List Nat}, P a b c es ps → Tidy a b es) :
    Tidy a b es := by
  induction row with
  | nil a => exact .nil a
  | cons here _ ih => exact (each here).append ih

section Descent
variable [LE K] [LT K] [DecidableLT K]

/-- The child a descent to a key takes: the first one with the key left of its upper end. -/
def childIndex (keys : List K) (key : K) : Nat := keys.findIdx (key < ·)

/-- A row cut around the child at an index, which has the key in its range. -/
inductive Located (P : Shape K V) (a b : Seam K) (key : K) (i : Nat) :
    List (Bound K × Nat) → List (K × V) → List Nat → Prop where
  | mk {m₁ m₂ : Seam K} {c : Nat} {cs₁ cs₂ : List (Bound K × Nat)} {es₁ es es₂ : List (K × V)}
      {ps₁ ps ps₂ : List Nat} (index : cs₁.length = i) (low : m₁.bound.Le key) (high : ¬ m₂.bound.Le key)
      (left : Row P a m₁ cs₁ es₁ ps₁) (here : P m₁ m₂ c es ps) (right : Row P m₂ b cs₂ es₂ ps₂) :
      Located P a b key i (cs₁ ++ (m₁.bound, c) :: cs₂) (es₁ ++ (es ++ es₂)) (ps₁ ++ (ps ++ ps₂))

variable [Std.IsLinearOrder K] [Std.LawfulOrderLT K]

/-- The descent takes the child that has the key in its range. -/
theorem locate {keys : List K} {key : K} (row : Row P a b cs es ps)
    (bounds : cs.map (·.1) = a.bound :: keys.map .key) (low : a.bound.Le key) (high : ¬ b.bound.Le key) :
    Located P a b key (childIndex keys key) cs es ps := by
  induction keys generalizing a cs es ps with
  | nil =>
    cases row with
    | nil => cases bounds
    | cons here rest =>
      cases rest with
      | nil =>
        exact .mk rfl low high (.nil a) here (.nil b)
      | cons _ _ => simp at bounds
  | cons k keys ih =>
    cases row with
    | nil => cases bounds
    | @cons _ m _ c cs es₁ es₂ ps₁ ps₂ here rest =>
      have tail : cs.map (·.1) = .key k :: keys.map .key := (cons.inj bounds).2
      have seam : m.bound = .key k := by
        cases rest with
        | nil => cases tail
        | cons _ _ => exact (cons.inj tail).1
      by_cases less : key < k
      · have index : childIndex (k :: keys) key = 0 := by simp [childIndex, findIdx_cons, less]
        have out : ¬ m.bound.Le key := by
          rw [seam]
          show ¬ k ≤ key
          grind
        rw [index]
        exact .mk rfl low out (.nil a) here rest
      · have index : childIndex (k :: keys) key = childIndex keys key + 1 := by
          simp [childIndex, findIdx_cons, less]
        have above : m.bound.Le key := by
          rw [seam]
          show k ≤ key
          grind
        rw [index]
        cases ih rest (seam ▸ tail) above with
        | mk index low high left found right =>
          have row : Row P a _ _ _ _ := .cons here left
          have all := Located.mk (i := childIndex keys key + 1) (by simp [index]) low high row found right
          simpa only [append_assoc, cons_append] using all

end Descent

end Row

/-- Leaves one after another, up to but without the last one. -/
inductive Leaves (holds : Nat → Node K V → Prop) : Nat → Nat → List (K × V) → Nat → Prop where
  | nil (p : Nat) : Leaves holds p p [] 0
  | cons {p m q n : Nat} {es es' : List (K × V)} : holds p (.leaf es m) → Leaves holds m q es' n →
      Leaves holds p q (es ++ es') (n + 1)

theorem Leaves.append {holds : Nat → Node K V → Prop} {p m q n n' : Nat} {es es' : List (K × V)}
    (left : Leaves holds p m es n) (right : Leaves holds m q es' n') : Leaves holds p q (es ++ es') (n + n') := by
  induction left with
  | nil => simpa using right
  | cons here _ ih =>
    rw [append_assoc, Nat.add_right_comm]
    exact .cons here (ih right)

theorem Row.leaves {holds : Nat → Node K V → Prop} {P : Shape K V} {a b : Seam K} {cs : List (Bound K × Nat)}
    {es : List (K × V)} {ps : List Nat} (row : Row P a b cs es ps)
    (each : ∀ {a b : Seam K} {c : Nat} {es : List (K × V)} {ps : List Nat}, P a b c es ps →
      ∃ n ≤ ps.length, Leaves holds a.leaf b.leaf es n) :
    ∃ n ≤ ps.length, Leaves holds a.leaf b.leaf es n := by
  induction row with
  | nil a => exact ⟨0, Nat.le_refl _, .nil _⟩
  | cons here _ ih =>
    obtain ⟨n, le, chain⟩ := each here
    obtain ⟨n', le', chain'⟩ := ih
    exact ⟨n + n', by simp; omega, chain.append chain'⟩

section Trees
variable [LE K] [LT K]

def Subtree (holds : Nat → Node K V → Prop) : Nat → Shape K V
  | 0, a, b, p, es, ps => a.leaf = p ∧ ps = [p] ∧ holds p (.leaf es b.leaf) ∧ Tidy a b es
  | d + 1, a, b, p, es, ps => ∃ keys cs qs, holds p (.branch keys (cs.map (·.2))) ∧
      cs.map (·.1) = a.bound :: keys.map .key ∧ Row (Subtree holds d) a b cs es qs ∧ ps = p :: qs

namespace Subtree
variable {holds holds' : Nat → Node K V → Prop} {d p : Nat} {a b : Seam K} {es : List (K × V)} {ps : List Nat}

theorem leaf (first : a.leaf = p) (here : holds p (.leaf es b.leaf)) (tidy : Tidy a b es) :
    Subtree holds 0 a b p es [p] := ⟨first, rfl, here, tidy⟩

theorem branch {keys : List K} {cs : List (Bound K × Nat)} (here : holds p (.branch keys (cs.map (·.2))))
    (bounds : cs.map (·.1) = a.bound :: keys.map .key) (row : Row (Subtree holds d) a b cs es ps) :
    Subtree holds (d + 1) a b p es (p :: ps) := ⟨keys, cs, ps, here, bounds, row, rfl⟩

section
variable (sub : Subtree holds d a b p es ps)
include sub

/-- A subtree depends on its own pages only. -/
theorem mono (same : ∀ p ∈ ps, ∀ n, holds p n → holds' p n) : Subtree holds' d a b p es ps := by
  induction d generalizing a b p es ps with
  | zero =>
    obtain ⟨first, rfl, here, tidy⟩ := sub
    exact ⟨first, rfl, same p (by simp) _ here, tidy⟩
  | succ d ih =>
    obtain ⟨keys, cs, qs, here, bounds, row, rfl⟩ := sub
    refine ⟨keys, cs, qs, same p (by simp) _ here, bounds, ?_, rfl⟩
    exact row.mono fun sub part => ih part fun p mem => same p (mem_cons_of_mem _ (sub p mem))

theorem holds_page {q : Nat} (mem : q ∈ ps) : ∃ n, holds q n := by
  induction d generalizing a b p es ps with
  | zero =>
    obtain ⟨-, rfl, here, -⟩ := sub
    exact ⟨_, mem_singleton.1 mem ▸ here⟩
  | succ d ih =>
    obtain ⟨keys, cs, qs, here, -, row, rfl⟩ := sub
    rcases mem_cons.1 mem with rfl | below
    · exact ⟨_, here⟩
    clear mem here
    induction row with
    | nil => cases below
    | cons part _ later =>
      rcases mem_append.1 below with below | below
      · exact ih part below
      · exact later below

theorem mem_pages : p ∈ ps := by
  cases d with
  | zero =>
    obtain ⟨-, rfl, -⟩ := sub
    exact mem_singleton_self p
  | succ d =>
    obtain ⟨_, _, qs, _, _, _, rfl⟩ := sub
    exact mem_cons_self

/-- The entries of a subtree take at least one leaf, and are chained from its first one. -/
theorem leaves : ∃ n ≤ ps.length, Leaves holds a.leaf b.leaf es n := by
  induction d generalizing a b p es ps with
  | zero =>
    obtain ⟨rfl, rfl, here, -⟩ := sub
    have chain := Leaves.cons here (.nil _)
    rw [append_nil] at chain
    exact ⟨1, Nat.le_refl _, chain⟩
  | succ d ih =>
    obtain ⟨keys, cs, qs, -, -, row, rfl⟩ := sub
    obtain ⟨n, le, chain⟩ := row.leaves ih
    exact ⟨n, Nat.le_succ_of_le le, chain⟩

/-- A path from the root passes a page on every level. -/
theorem depth_lt : d < ps.length := by
  induction d generalizing a b p es ps with
  | zero =>
    obtain ⟨-, rfl, -⟩ := sub
    exact Nat.one_pos
  | succ d ih =>
    obtain ⟨keys, cs, qs, -, bounds, row, rfl⟩ := sub
    cases row with
    | nil => cases bounds
    | cons here _ =>
      have := ih here
      simp
      omega

end

theorem tidy [Std.IsLinearOrder K] [Std.LawfulOrderLT K] (sub : Subtree holds d a b p es ps) : Tidy a b es := by
  induction d generalizing a b p es ps with
  | zero => exact sub.2.2.2
  | succ d ih =>
    obtain ⟨_, _, _, _, _, row, _⟩ := sub
    exact row.tidy ih

end Subtree

end Trees

end TransactionManager.Lib.BPlus
