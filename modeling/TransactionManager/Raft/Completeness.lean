import TransactionManager.Raft.Matching

/-!
# Leader completeness

An entry is committed when a majority has stored it in the term of the leader that created it.
The proof keeps three records that are no part of the cluster: the logs of the leaders, how many
entries of the leader's log a node had stored in each term, and the log with which a node voted
in a term that had no leader yet. A majority that stored an entry meets the majority that elects
a later leader in a node that voted with the entry in its log, so the later leader has it too.
-/

namespace TransactionManager.Raft
open Lib List

/-- How much of the log of a term's leader a node had stored in that term. -/
abbrev Acks := NodeID → Nat → Nat

/-- The log with which a node voted in a term. -/
abbrev VoteLogs := NodeID → Nat → Option (List Entry)

/-- A log is at least as up to date as another. -/
def UpToDate (l l' : List Entry) : Prop := ∃ e e', l.getLast? = some e ∧ l'.getLast? = some e' ∧
    (e'.term < e.term ∨ e.term = e'.term ∧ l'.length ≤ l.length)

/-- The entry at this index of the log of a term's leader is of that term, and a majority has
stored it in that term. -/
structure Committed (m : Membership) (g : LeaderLogs) (acks : Acks) (t k : Nat) : Prop where
  own : ∃ e, (g t)[k]? = some e ∧ e.term = t
  stored : ∃ voters, IsMajority m.ids voters ∧ ∀ v ∈ voters, k < acks v t

/-- A log is part of what has been committed up to a term. -/
def Chosen (m : Membership) (g : LeaderLogs) (acks : Acks) (u : Nat) (p : List Entry) : Prop :=
  p.length ≤ 1 ∨ ∃ t ≤ u, ∃ k, Committed m g acks t k ∧ p <+: (g t).take (k + 1)

/-- A leader was elected by a majority whose logs were not ahead of its own. -/
def Led (m : Membership) (g : LeaderLogs) (voteLogs : VoteLogs) (u : Nat) : Prop :=
  ∃ voters log, IsMajority m.ids voters ∧ log <+: g u ∧ Sound g log ∧ (∀ e ∈ log, e.term < u) ∧
    ∀ v ∈ voters, ∃ ℓ, voteLogs v u = some ℓ ∧ UpToDate log ℓ

/-- A log still has what its node stored in term `t`, unless the leader of a later term, before
`stop`, lacks it. -/
def Keeps (g : LeaderLogs) (t k stop : Nat) (ℓ : List Entry) : Prop :=
  (∀ w, t < w → w < stop → g w ≠ [] → (g t).take k <+: g w) → (g t).take k <+: ℓ

structure Records (m : Membership) (g : LeaderLogs) (acks : Acks) (voteLogs : VoteLogs) : Prop where
  logs : ∀ t, g t ≠ [] → Sound g (g t)
  terms : ∀ t, ∀ e ∈ g t, e.term ≤ t
  short : ∀ v t, acks v t ≤ (g t).length
  voted : ∀ v u ℓ, voteLogs v u = some ℓ → Sound g ℓ ∧ ∀ t < u, ∀ k ≤ acks v t, Keeps g t k u ℓ
  led : ∀ u, 0 < u → g u ≠ [] → Led m g voteLogs u

section
variable {m : Membership} {g g' : LeaderLogs} {acks acks' : Acks} {voteLogs : VoteLogs}

/-- The whole of a sound log belongs to the leader of its last entry. -/
theorem Sound.prefix_last {l : List Entry} (sound : Sound g l) {e : Entry}
    (last : l.getLast? = some e) : l <+: g e.term := by
  rw [getLast?_eq_getElem?] at last
  have own := sound.own _ e last
  have pos := length_pos_iff.2 sound.ne
  rwa [Nat.sub_add_cancel pos, take_length] at own

section
variable (records : Records m g acks voteLogs)
include records

/-- A log that is as up to date as one with a committed prefix, all of whose entries are older
than a term before which every leader has the prefix, has it too. -/
theorem Records.carries {p l l' : List Entry} {t u : Nat} (part : p <+: g t) (own : ∃ x ∈ p, x.term = t)
    (sound : Sound g l) (sound' : Sound g l') (upToDate : UpToDate l l') (old : ∀ e ∈ l, e.term < u)
    (between : ∀ w, t < w → w < u → g w ≠ [] → p <+: g w) (has : p <+: l') : p <+: l := by
  obtain ⟨e, e', last, last', newer | ⟨same, longer⟩⟩ := upToDate
  · obtain ⟨x, mem, term⟩ := own
    have low : t ≤ e'.term := term ▸ records.terms _ x ((sound'.prefix_last last').subset (has.subset mem))
    have whole := sound.prefix_last last
    have high := old e (mem_of_getLast? last)
    have some : g e.term ≠ [] := fun empty => sound.ne (prefix_nil.1 (empty ▸ whole))
    have later := between e.term (by omega) high some
    rcases List.prefix_or_prefix_of_prefix later whole with inside | beyond
    · exact inside
    · have bound := records.terms t e (part.subset (beyond.subset (mem_of_getLast? last)))
      omega
  · have one := sound.prefix_last last
    have two := sound'.prefix_last last'
    rw [← same] at two
    exact has.trans (prefix_of_prefix_length_le two one longer)

/-- Every leader of a later term has the committed entries. -/
theorem Records.complete {t k : Nat} (committed : Committed m g acks t k) (u : Nat) (later : t < u) (some : g u ≠ []) :
    (g t).take (k + 1) <+: g u := by
  induction u using Nat.strong_induction_on with
  | _ u ih =>
    obtain ⟨⟨x, at', own⟩, storers, majority, stored⟩ := committed
    obtain ⟨voters, log, majority', part, sound, old, voted⟩ := records.led u (by omega) some
    obtain ⟨v, stores, votes⟩ := majority.meets majority'
    obtain ⟨ℓ, ballot, upToDate⟩ := voted v votes
    obtain ⟨sound', keeps⟩ := records.voted v u ℓ ballot
    have between : ∀ w, t < w → w < u → g w ≠ [] → (g t).take (k + 1) <+: g w :=
      fun w low high some => ih w high low some
    have has : (g t).take (k + 1) <+: ℓ := keeps t later (k + 1) (stored v stores) between
    have own : ∃ y ∈ (g t).take (k + 1), y.term = t := by
      refine ⟨x, mem_of_getElem? (i := k) ?_, own⟩
      rw [getElem?_take, if_pos (Nat.lt_succ_self k), at']
    exact (records.carries (List.take_prefix ..) own sound sound' upToDate old between has).trans part

/-- What is chosen up to a term is in the log of every leader from that term on. -/
theorem Records.chosen_isPrefix {u w : Nat} {p : List Entry} (chosen : Chosen m g acks u p) (long : 1 < p.length)
    (later : u ≤ w) (some : g w ≠ []) : p <+: g w := by
  rcases chosen with short | ⟨t, low, k, committed, part⟩
  · omega
  · rcases Nat.lt_or_ge t w with before | after
    · exact part.trans (records.complete committed w before some)
    · rw [show w = t by omega]
      exact part.trans (List.take_prefix ..)

end

theorem Chosen.of_isPrefix {u : Nat} {p q : List Entry} (chosen : Chosen m g acks u q) (part : p <+: q) :
    Chosen m g acks u p := by
  rcases chosen with short | ⟨t, low, k, committed, whole⟩
  · exact .inl (part.length_le.trans short)
  · exact .inr ⟨t, low, k, committed, part.trans whole⟩

theorem Committed.mono {t k : Nat} (committed : Committed m g acks t k) (grows : ∀ t, g t <+: g' t)
    (more : ∀ v t, acks v t ≤ acks' v t) : Committed m g' acks' t k := by
  obtain ⟨⟨e, at', own⟩, voters, majority, stored⟩ := committed
  exact ⟨⟨e, getElem?_of_isPrefix (grows t) at', own⟩, voters, majority, fun v mem =>
    (stored v mem).trans_le (more v t)⟩

theorem Chosen.mono {u u' : Nat} {p : List Entry} (chosen : Chosen m g acks u p)
    (grows : ∀ t, g t <+: g' t) (more : ∀ v t, acks v t ≤ acks' v t) (later : u ≤ u') :
    Chosen m g' acks' u' p := by
  rcases chosen with short | ⟨t, low, k, committed, part⟩
  · exact .inl short
  · exact .inr ⟨t, low.trans later, k, committed.mono grows more, part.trans ((grows t).take _)⟩

end

end TransactionManager.Raft
