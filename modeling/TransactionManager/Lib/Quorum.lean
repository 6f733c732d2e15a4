import Mathlib.Data.List.Nodup
import Mathlib.Data.List.Perm.Subperm

/-!
# Majorities

Two majorities of one membership have a member in common.
-/

namespace TransactionManager.Lib
open List

variable {ι : Type*}

/-- More than half of the members. -/
structure IsMajority (members voters : List ι) : Prop where
  nodup : voters.Nodup
  sub : voters ⊆ members
  more : members.length / 2 + 1 ≤ voters.length

theorem IsMajority.meets {members voters voters' : List ι} (majority : IsMajority members voters)
    (majority' : IsMajority members voters') : ∃ v ∈ voters, v ∈ voters' := by
  by_contra apart
  have disjoint : voters.Disjoint voters' := fun v one two => apart ⟨v, one, two⟩
  have nodup : (voters ++ voters').Nodup := List.Nodup.append majority.nodup majority'.nodup disjoint
  have sub : voters ++ voters' ⊆ members := append_subset.2 ⟨majority.sub, majority'.sub⟩
  have few := (subperm_of_subset nodup sub).length_le
  have more := majority.more
  have more' := majority'.more
  rw [length_append] at few
  omega

end TransactionManager.Lib
