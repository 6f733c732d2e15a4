import Mathlib.Data.List.Infix

/-!
# Prefixes, positions and separators

A test that depends on the position of an element only cuts a list in two. Two texts around a
separator make one that can be cut elsewhere when they have the separator in them.
-/

namespace TransactionManager.Lib
open List

variable {α : Type*} {l l' : List α}

theorem getElem?_of_isPrefix (part : l <+: l') {k : Nat} {a : α} (here : l[k]? = some a) : l'[k]? = some a := by
  obtain ⟨rest, rfl⟩ := part
  rw [List.getElem?_append_left (List.getElem?_eq_some_iff.1 here).1, here]

theorem getElem?_concat_cases {k : Nat} {a b : α} (here : (l ++ [a])[k]? = some b) :
    l[k]? = some b ∨ k = l.length ∧ b = a := by
  rw [getElem?_append] at here
  split at here
  · exact .inl here
  · obtain ⟨low, rfl⟩ := List.getElem?_eq_some_iff.1 here
    rw [length_singleton] at low
    exact .inr ⟨by omega, by simp⟩

theorem filter_eq_take {p : α → Bool} {i : Nat}
    (test : ∀ k a, l[k]? = some a → p a = decide (k < i)) : l.filter p = l.take i := by
  induction l generalizing i with
  | nil => simp
  | cons a l ih =>
    have first := test 0 a rfl
    cases i with
    | zero => simpa [first] using fun b mem => (mem_iff_getElem?.1 mem).elim fun k here => test (k + 1) b here
    | succ i =>
      rw [filter_cons_of_pos (by simp [first]), take_succ_cons, ih fun k b here => ?_]
      simpa using test (k + 1) b here

theorem filter_eq_drop {p : α → Bool} {i : Nat}
    (test : ∀ k a, l[k]? = some a → p a = decide (i ≤ k)) : l.filter p = l.drop i := by
  induction l generalizing i with
  | nil => simp
  | cons a l ih =>
    have first := test 0 a rfl
    cases i with
    | zero => simpa [first] using fun b mem => (mem_iff_getElem?.1 mem).elim fun k here => test (k + 1) b here
    | succ i =>
      rw [filter_cons_of_neg (by simp [first]), drop_succ_cons, ih fun k b here => ?_]
      simpa using test (k + 1) b here

/-- `x ++ sep ++ y` reads as `x' ++ sep ++ y'` as well: the separator stands in `x'` after `x` and in `y` before `y'`.
-/
def Straddles (sep x y x' y' : List α) : Prop := ∃ m, x' = x ++ sep ++ m ∧ y = m ++ sep ++ y'

variable {c : α} {d x y x' y' a : List α}

theorem sep_append_eq (fresh : c ∉ d) (eq : (c :: d) ++ y = a ++ ((c :: d) ++ y')) :
    a = [] ∧ y = y' ∨ ∃ m, a = (c :: d) ++ m ∧ y = m ++ (c :: d) ++ y' := by
  rcases append_eq_append_iff.1 eq with ⟨m, long, rest⟩ | ⟨e, short, rest⟩
  · exact .inr ⟨m, long, by simp [rest]⟩
  -- a proper part of the separator leaves an end of it that starts over
  cases a with
  | nil => exact .inl ⟨rfl, by simpa using eq⟩
  | cons b a =>
    cases e with
    | nil => exact .inr ⟨[], by simpa using short.symm, by simpa using rest.symm⟩
    | cons b' e => grind

theorem append_sep_eq_iff (fresh : c ∉ d) (x y x' y' : List α) : x ++ (c :: d) ++ y = x' ++ (c :: d) ++ y' ↔
    x = x' ∧ y = y' ∨ Straddles (c :: d) x y x' y' ∨ Straddles (c :: d) x' y' x y := by
  constructor
  · intro eq
    rw [append_assoc, append_assoc] at eq
    rcases append_eq_append_iff.1 eq with ⟨a, rfl, rest⟩ | ⟨a, rfl, rest⟩
    all_goals
      rcases sep_append_eq fresh rest with ⟨rfl, rfl⟩ | ⟨m, rfl, rfl⟩
      · simp
      · simp [Straddles]
  · rintro (⟨rfl, rfl⟩ | ⟨m, rfl, rfl⟩ | ⟨m, rfl, rfl⟩)
    all_goals simp

end TransactionManager.Lib
