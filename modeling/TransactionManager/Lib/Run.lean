import Mathlib.Data.List.Sublists
import Mathlib.Data.List.Count

/-!
# Runs of a transition function

A system is a partial transition function `next : σ → α → Option σ`. The action carries
every choice of the scheduler, the network or the caller, so a state and an action have
at most one successor and a run is the list of its actions. `Reach next ok s₀ s` says
that a run leads from `s₀` to `s` and that each of its steps meets the condition `ok` in
the state it is taken from; `AnyStep` puts no condition on the steps.
-/

namespace TransactionManager.Lib
open Option List

variable {σ α : Type*}

/-- The states reached from `s₀` by runs whose steps all meet `ok`. -/
inductive Reach (next : σ → α → Option σ) (ok : σ → α → Prop) (s₀ : σ) : σ → Prop where
  | refl : Reach next ok s₀ s₀
  | step {s s' : σ} {a : α} : Reach next ok s₀ s → ok s a → next s a = some s' → Reach next ok s₀ s'

def AnyStep (_ : σ) (_ : α) : Prop := True

instance (s : σ) (a : α) : Decidable (AnyStep s a) := isTrue trivial

/-- The state a list of actions leads to, when every one of them is enabled. -/
def runActions (next : σ → α → Option σ) : σ → List α → Option σ
  | s, [] => some s
  | s, a :: as => (next s a).bind fun s' => runActions next s' as

variable {next : σ → α → Option σ} {ok ok' : σ → α → Prop} {s₀ s s' : σ}

theorem of_guard {p : Prop} [Decidable p] (taken : (if p then some s else none) = some s') : p ∧ s = s' := by
  simpa using taken

/-- The invariant rule: what holds at the start and is kept by every step that meets `ok` holds wherever a run leads.
-/
theorem Reach.invariant {Inv : σ → Prop} (start : Inv s₀)
    (keep : ∀ s a s', Inv s → ok s a → next s a = some s' → Inv s') (reached : Reach next ok s₀ s) : Inv s := by
  induction reached with
  | refl => exact start
  | step _ allowed taken ih => exact keep _ _ _ ih allowed taken

/-- A weaker condition admits more runs. -/
theorem Reach.weaken (reached : Reach next ok s₀ s) (imp : ∀ s a, ok s a → ok' s a) : Reach next ok' s₀ s := by
  induction reached with
  | refl => exact .refl
  | step _ allowed taken ih => exact .step ih (imp _ _ allowed) taken

/-- The transition function cut down to the steps that meet a decidable condition. -/
def guarded (next : σ → α → Option σ) (ok : σ → α → Prop) [∀ s a, Decidable (ok s a)] (s : σ) (a : α) : Option σ :=
  if ok s a then next s a else none

/-- A list of actions that meet the condition one after another reaches its last state. -/
theorem Reach.of_actions [∀ s a, Decidable (ok s a)] {as : List α}
    (run : runActions (guarded next ok) s as = some s') (reached : Reach next ok s₀ s) :
    Reach next ok s₀ s' := by
  induction as generalizing s with
  | nil =>
    cases run
    exact reached
  | cons a as ih =>
    obtain ⟨mid, taken, rest⟩ := bind_eq_some_iff.1 run
    unfold guarded at taken
    split at taken
    · rename_i allowed
      exact ih rest (.step reached allowed taken)
    · cases taken

/-- A run that can be evaluated, and what is true of its last state. -/
theorem Reach.exists_such (next : σ → α → Option σ) (ok : σ → α → Prop) [∀ s a, Decidable (ok s a)] (s₀ : σ)
    (as : List α) (P : σ → Prop) (run : ∃ s ∈ runActions (guarded next ok) s₀ as, P s) : ∃ s, Reach next ok s₀ s ∧ P s := by
  obtain ⟨s, last, holds⟩ := run
  exact ⟨s, .of_actions last .refl, holds⟩

/-- A run that can be evaluated, of which `P` holds by evaluation and `Q` as of every run. -/
theorem Reach.exists_and [∀ s a, Decidable (ok s a)] {P Q : σ → Prop} (as : List α)
    (run : ∃ s ∈ runActions (guarded next ok) s₀ as, P s) (all : ∀ s, Reach next ok s₀ s → P s → Q s) :
    ∃ s, Reach next ok s₀ s ∧ P s ∧ Q s := by
  obtain ⟨s, reached, holds⟩ := exists_such next ok s₀ as P run
  exact ⟨s, reached, holds, all s reached holds⟩

@[inherit_doc Reach.exists_and]
theorem Reach.exists_and_and [∀ s a, Decidable (ok s a)] {P P' Q : σ → Prop} (as : List α)
    (run : ∃ s ∈ runActions (guarded next ok) s₀ as, P s ∧ P' s)
    (all : ∀ s, Reach next ok s₀ s → P s → P' s → Q s) : ∃ s, Reach next ok s₀ s ∧ P s ∧ P' s ∧ Q s := by
  obtain ⟨s, reached, first, second⟩ := exists_such next ok s₀ as (fun s => P s ∧ P' s) run
  exact ⟨s, reached, first, second, all s reached first second⟩

/-- A run in two parts under different conditions, and what is true of both of their last states. -/
theorem Reach.exists_of_segments (next : σ → α → Option σ) (ok ok' : σ → α → Prop) [∀ s a, Decidable (ok s a)]
    [∀ s a, Decidable (ok' s a)] (s₀ : σ) (as as' : List α) (P : σ → σ → Prop)
    (run : ∃ s ∈ runActions (guarded next ok) s₀ as, ∃ s' ∈ runActions (guarded next ok') s as', P s s') :
    ∃ s s', Reach next ok s₀ s ∧ Reach next ok' s s' ∧ P s s' := by
  obtain ⟨s, first, s', second, holds⟩ := run
  exact ⟨s, s', .of_actions first .refl, .of_actions second .refl, holds⟩

/-!
## Order of events in a history

A history is the list of the events of a run, oldest first. `Precedes h x y` says that
`x` happens in `h` and `y` happens after it. A history grows at its end, so the only new
pairs are those whose second event is the new one.
-/

section
variable {α : Type*} {h : List α} {x y e : α}

/-- `x` happens and `y` happens later. -/
def Precedes (h : List α) (x y : α) : Prop := [x, y].Sublist h

instance [DecidableEq α] (h : List α) (x y : α) : Decidable (Precedes h x y) :=
  inferInstanceAs (Decidable ([x, y].Sublist h))

theorem Precedes.mem_left (p : Precedes h x y) : x ∈ h := p.subset (by simp)

theorem Precedes.mem_right (p : Precedes h x y) : y ∈ h := p.subset (by simp)

theorem precedes_iff : Precedes h x y ↔ ∃ before after, h = before ++ y :: after ∧ x ∈ before := by
  constructor
  · intro p
    have split : ([x] ++ [y]).Sublist h := p
    obtain ⟨l₁, l₂, rfl, left, right⟩ := append_sublist_iff.1 split
    obtain ⟨b, a, rfl⟩ := append_of_mem (singleton_sublist.1 right)
    exact ⟨l₁ ++ b, a, by simp, mem_append_left _ (singleton_sublist.1 left)⟩
  · rintro ⟨before, after, rfl, mem⟩
    have left : [x].Sublist before := singleton_sublist.2 mem
    have right : [y].Sublist (y :: after) := singleton_sublist.2 mem_cons_self
    exact left.append right

@[simp] theorem not_precedes_nil : ¬ Precedes ([] : List α) x y := by simp [Precedes]

theorem precedes_append_singleton : Precedes (h ++ [e]) x y ↔ Precedes h x y ∨ x ∈ h ∧ y = e := by
  constructor
  · intro p
    obtain ⟨before, after, eq, mem⟩ := precedes_iff.1 p
    rcases eq_nil_or_concat after with rfl | ⟨rest, last, rfl⟩
    · obtain ⟨rfl, rfl⟩ : h = before ∧ e = y := by simpa using eq
      exact .inr ⟨mem, rfl⟩
    · obtain ⟨rfl, rfl⟩ : h = before ++ y :: rest ∧ e = last := by
        have eq' : h ++ [e] = (before ++ y :: rest) ++ [last] := by simpa using eq
        obtain ⟨front, back⟩ := append_inj' eq' rfl
        exact ⟨front, by simpa using back⟩
      exact .inl (precedes_iff.2 ⟨before, rest, rfl, mem⟩)
  · rintro (p | ⟨mem, rfl⟩)
    · exact p.trans (sublist_append_left _ _)
    · exact precedes_iff.2 ⟨h, [], rfl, mem⟩

theorem Precedes.append (p : Precedes h x y) : Precedes (h ++ [e]) x y := precedes_append_singleton.2 (.inl p)

/-- Two different events that happen are ordered. -/
theorem precedes_total (hx : x ∈ h) (hy : y ∈ h) (ne : x ≠ y) : Precedes h x y ∨ Precedes h y x := by
  obtain ⟨before, after, rfl⟩ := append_of_mem hy
  rcases mem_append.1 hx with mem | mem
  · exact .inl (precedes_iff.2 ⟨before, after, rfl, mem⟩)
  · right
    have later : x ∈ after := by simpa [ne] using mem
    obtain ⟨b, a, rfl⟩ := append_of_mem later
    exact precedes_iff.2 ⟨before ++ y :: b, a, by simp, by simp⟩

/-- An event that happens at most once has one place. -/
theorem idxOf_eq_length [DecidableEq α] {before after : List α} (split : h = before ++ y :: after)
    (once : h.count y ≤ 1) : h.idxOf y = before.length := by
  subst split
  have fresh : y ∉ before := by
    intro inside
    have : 0 < before.count y := count_pos_iff.2 inside
    simp at once
    omega
  rw [idxOf_append_of_notMem fresh]
  simp

/-- What precedes an event that happens once stands before its place. -/
theorem Precedes.idxOf_lt [DecidableEq α] (p : Precedes h x y) (once : h.count y ≤ 1) : h.idxOf x < h.idxOf y := by
  obtain ⟨before, after, split, mem⟩ := precedes_iff.1 p
  rw [idxOf_eq_length split once, split, idxOf_append_of_mem mem]
  exact idxOf_lt_length_of_mem mem

theorem Precedes.trans [DecidableEq α] {z : α} (p : Precedes h x y) (q : Precedes h y z)
    (once : h.count y ≤ 1) : Precedes h x z := by
  obtain ⟨before, after, split, mem⟩ := precedes_iff.1 p
  obtain ⟨upTo, rest, split', mem'⟩ := precedes_iff.1 q
  obtain ⟨front, back, rfl⟩ := append_of_mem mem'
  have same : before.length = front.length := by
    rw [← idxOf_eq_length split once,
      ← idxOf_eq_length (h := h) (show h = front ++ y :: (back ++ z :: rest) by simp [split']) once]
  have eq : before = front := by
    have := split.symm.trans split'
    rw [append_assoc] at this
    exact (append_inj this same).1
  exact precedes_iff.2 ⟨_, rest, split', by simp [← eq, mem]⟩

/-- The last event of a kind is the last one of a wider kind when no event of the wider kind
follows it. -/
theorem find?_reverse_of_no_later {p q : α → Bool} (found : h.reverse.find? p = some x)
    (wider : p x → q x) (later : ∀ y, Precedes h x y → q y → p y) : h.reverse.find? q = some x := by
  obtain ⟨here, after, before, split, none⟩ := find?_eq_some_iff_append.1 found
  refine find?_eq_some_iff_append.2 ⟨wider here, after, before, split, fun y mem => ?_⟩
  have order : Precedes h x y := by
    have split : h = before.reverse ++ x :: after.reverse := by
      rw [← reverse_reverse h, split]
      simp
    rw [split]
    exact List.Sublist.trans (List.Sublist.cons_cons x
      (singleton_sublist.2 (mem_reverse.2 mem))) (sublist_append_right _ _)
  have notP := none y mem
  cases both : q y with
  | false => rfl
  | true =>
    rw [later y order both] at notP
    cases notP

end

end TransactionManager.Lib
