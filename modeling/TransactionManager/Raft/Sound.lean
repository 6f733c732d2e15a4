import TransactionManager.Lib.Prefix
import TransactionManager.Raft.Log

/-!
# Sound logs

Let `g t` be the log of the leader of term `t`, as far as it got. A log is sound when its prefix
up to any entry is a prefix of the log of the leader of that entry's term; two sound logs that
have an entry of one index and term in common agree up to it. On a sound log an index is a
position, and the append loop of `handleAppendEntries` on a piece of another sound log either
keeps the log, or gives the other log, or cuts the log at the first conflict.
-/

namespace TransactionManager.Raft
open Lib List

/-- The logs of the leaders, by term. -/
abbrev LeaderLogs := Nat → List Entry

theorem find?_index {l : List Entry} (index : ∀ (k : Nat) (e : Entry), l[k]? = some e → e.index = k)
    (k : Nat) : l.find? (fun e => e.index = k) = l[k]? := by
  cases here : l[k]? with
  | some e =>
    obtain ⟨long, eq⟩ := List.getElem?_eq_some_iff.1 here
    rw [find?_eq_some_iff_getElem]
    refine ⟨decide_eq_true (index k e here), k, long, eq, fun j low => ?_⟩
    rw [index j _ (getElem?_eq_getElem (low.trans long))]
    simpa using low.ne
  | none =>
    rw [find?_eq_none]
    intro e mem is
    obtain ⟨j, long, rfl⟩ := mem_iff_getElem.1 mem
    have at' := getElem?_eq_getElem long
    rw [← of_decide_eq_true is, index j _ at', at'] at here
    cases here

/-- The prefixes of a log belong to the leaders of its entries. -/
structure Sound (g : LeaderLogs) (l : List Entry) : Prop where
  first : l[0]? = some dummy
  index : ∀ (k : Nat) (e : Entry), l[k]? = some e → e.index = k
  own : ∀ (k : Nat) (e : Entry), l[k]? = some e → l.take (k + 1) <+: g e.term

section
variable {g g' : LeaderLogs} {l l' : List Entry}

theorem Sound.ne (sound : Sound g l) : l ≠ [] := by
  rintro rfl
  cases sound.first

theorem Sound.mono (sound : Sound g l) (grows : ∀ t, g t <+: g' t) : Sound g' l :=
  ⟨sound.first, sound.index, fun k e here => (sound.own k e here).trans (grows _)⟩

theorem Sound.of_isPrefix (sound : Sound g l') (part : l <+: l') (ne : l ≠ []) : Sound g l := by
  refine ⟨?_, fun k e here => sound.index k e (getElem?_of_isPrefix part here),
    fun k e here => (part.take (k + 1)).trans (sound.own k e (getElem?_of_isPrefix part here))⟩
  have some := getElem?_eq_getElem (length_pos_iff.2 ne)
  rw [some, ← getElem?_of_isPrefix part some, sound.first]

/-- Two sound logs with an entry of the same index and term agree up to it. -/
theorem Sound.take_eq (sound : Sound g l) (sound' : Sound g l') {k : Nat} {e e' : Entry}
    (here : l[k]? = some e) (here' : l'[k]? = some e') (same : e.term = e'.term) :
    l.take (k + 1) = l'.take (k + 1) := by
  have one := sound.own k e here
  have two := sound'.own k e' here'
  rw [← same] at two
  have long := (List.getElem?_eq_some_iff.1 here).1
  have long' := (List.getElem?_eq_some_iff.1 here').1
  refine (prefix_of_prefix_length_le one two ?_).eq_of_length ?_ <;>
    rw [length_take, length_take] <;> omega

/-- The leader's own log, with one more entry. -/
theorem Sound.append (sound : Sound g l) (grows : ∀ t, g t <+: g' t) {e : Entry}
    (index : e.index = l.length) (own : g' e.term = l ++ [e]) : Sound g' (l ++ [e]) := by
  refine ⟨?_, fun k x here => ?_, fun k x here => ?_⟩
  · rw [getElem?_append_left (length_pos_iff.2 sound.ne), sound.first]
  · rcases getElem?_concat_cases here with old | ⟨rfl, rfl⟩
    · exact sound.index k x old
    · exact index
  · rcases getElem?_concat_cases here with old | ⟨rfl, rfl⟩
    · have long := (List.getElem?_eq_some_iff.1 old).1
      rw [take_append_of_le_length (by omega)]
      exact (sound.own k x old).trans (grows _)
    · rw [own, take_of_length_le (by simp)]

end

namespace RaftLog

variable {g : LeaderLogs} {l : RaftLog} {ℓ : List Entry}

section
variable (sound : Sound g l.entries)
include sound

theorem get_eq (k : Nat) : l.get k = l.entries[k]? := find?_index sound.index k

theorem lastIndex_eq {last : Nat} (index : l.lastIndex = some last) : l.entries.length = last + 1 := by
  obtain ⟨e, at', rfl⟩ := Option.map_eq_some_iff.1 index
  rw [List.getLast?_eq_getElem?] at at'
  have long := (List.getElem?_eq_some_iff.1 at').1
  rw [sound.index _ e at']
  omega

/-- What a leader sends to a peer is the rest of its log. -/
theorem range_eq {last : Nat} (index : l.lastIndex = some last)
    (start : Nat) : l.range start last = l.entries.drop start := by
  have length := lastIndex_eq sound index
  refine filter_eq_drop fun k e here => ?_
  have long := (List.getElem?_eq_some_iff.1 here).1
  rw [sound.index k e here]
  exact decide_eq_decide.2 (by omega)

theorem entries_truncateAfter (i : Nat) : (l.truncateAfter i).entries = l.entries.take (i + 1) := by
  refine filter_eq_take fun k e here => ?_
  rw [sound.index k e here]
  exact decide_eq_decide.2 (by omega)

theorem conflicts_eq (e : Entry) : l.conflicts e = (l.entries[e.index]?).any fun old => old.term ≠ e.term := by
  unfold conflicts
  rw [get_eq sound]
  cases l.entries[e.index]? <;> rfl

omit sound in
theorem file_storeEntries (es : List Entry) (same : l.file = l.entries) :
    (l.storeEntries es).file = (l.storeEntries es).entries := by
  induction es generalizing l with
  | nil => exact same
  | cons e es ih =>
    refine ih ?_
    unfold storeEntry
    split
    · rfl
    · split
      · rfl
      · exact same

omit sound in
/-- The append loop on entries that are in the log or follow on it. -/
theorem storeEntries_of_fits (index : ∀ (k : Nat) (e : Entry), l.entries[k]? = some e → e.index = k)
    {start : Nat} (within : start ≤ l.entries.length) {es : List Entry}
    (consecutive : ∀ (k : Nat) (e : Entry), es[k]? = some e → e.index = start + k)
    (fits : ∀ e ∈ es, ∀ old ∈ l.get e.index, old = e) :
    (l.storeEntries es).entries = l.entries ++ es.drop (l.entries.length - start) := by
  induction es generalizing l start with
  | nil =>
    rw [drop_nil, append_nil]
    rfl
  | cons e es ih =>
    have own : e.index = start := consecutive 0 e rfl
    have later (k : Nat) (x : Entry) (here : es[k]? = some x) : x.index = start + 1 + k := by
      have := consecutive (k + 1) x here
      omega
    have calm : l.conflicts e = false := by
      unfold conflicts
      cases here : l.get e.index with
      | none => rfl
      | some old => simp [fits e mem_cons_self old here]
    show ((l.storeEntry e).storeEntries es).entries = _
    unfold storeEntry
    rw [calm, if_neg (by simp)]
    have at' : l.get start = l.entries[start]? := find?_index index start
    rw [own, at']
    rcases within.lt_or_eq with long | rfl
    · rw [getElem?_eq_getElem long, if_neg (by simp), ← Nat.succ_sub_succ, Nat.succ_sub long]
      exact ih index long later fun x mem => fits x (mem_cons_of_mem _ mem)
    have grown (k : Nat) (x : Entry) (here : (l.append e).entries[k]? = some x) : x.index = k := by
      rcases getElem?_concat_cases here with old | ⟨rfl, rfl⟩
      · exact index k x old
      · exact own
    have length : (l.append e).entries.length = l.entries.length + 1 := List.length_append
    rw [List.getElem?_eq_none le_rfl, if_pos (by rfl)]
    have entries := ih grown length.ge later fun x mem old there => by
      -- the entries after it are beyond the log
      obtain ⟨k, here⟩ := List.getElem?_of_mem mem
      rw [later k x here, RaftLog.get, find?_index grown] at there
      have := (List.getElem?_eq_some_iff.1 there).1
      omega
    rw [entries, length, Nat.sub_self, Nat.sub_self]
    exact append_assoc ..

omit sound in
/-- A log that ends where the message goes on takes all of it. -/
theorem storeEntries_of_end (sound : Sound g ℓ) {j : Nat} (short : j ≤ ℓ.length) (some : 0 < j)
    (ends : l.entries = ℓ.take j) :
    (l.storeEntries (ℓ.drop j)).entries = ℓ := by
  have length : l.entries.length = j := by rw [ends, length_take, Nat.min_eq_left short]
  have own := sound.of_isPrefix (ends ▸ List.take_prefix ..) (length_pos_iff.1 (length ▸ some))
  have consecutive (k : Nat) (e : Entry) (here : (ℓ.drop j)[k]? = .some e) : e.index = j + k :=
    sound.index _ e (getElem?_drop ▸ here)
  have fits : ∀ e ∈ ℓ.drop j, ∀ old ∈ l.get e.index, old = e := by
    intro e mem old there
    obtain ⟨k, here⟩ := getElem?_of_mem mem
    rw [consecutive k e here, get_eq own] at there
    have := (List.getElem?_eq_some_iff.1 there).1
    omega
  rw [storeEntries_of_fits own.index length.ge consecutive fits, length, Nat.sub_self, drop_zero, ends,
    take_append_drop]

/-- The append loop, on a log that agrees with the leader's up to the entries of the message. -/
theorem storeEntries_spec (sound' : Sound g ℓ) {j : Nat} (short : j ≤ ℓ.length) (short' : j ≤ l.entries.length)
    (some : 0 < j) (agree : l.entries.take j = ℓ.take j) (clean : ∀ e ∈ (ℓ.drop j).dropLast, l.conflicts e = false) :
    ((l.storeEntries (ℓ.drop j)).entries = l.entries ∧ ℓ <+: l.entries) ∨
    ((l.storeEntries (ℓ.drop j)).entries = ℓ ∧ l.entries <+: ℓ) ∨
    l.cuts (ℓ.drop j) = true ∧ ∃ k e e', j ≤ k ∧ l.entries[k]? = .some e ∧ ℓ[k]? = .some e' ∧
      e.term ≠ e'.term ∧ (l.storeEntries (ℓ.drop j)).entries = ℓ.take k := by
  induction rest : ℓ.length - j generalizing j with
  | zero =>
    have all : ℓ.drop j = [] := drop_eq_nil_iff.2 (by omega)
    rw [all]
    refine .inl ⟨rfl, ?_⟩
    rw [← take_of_length_le (l := ℓ) (i := j) (by omega), ← agree]
    exact List.take_prefix ..
  | succ n ih =>
    have long : j < ℓ.length := by omega
    have head := drop_eq_getElem_cons long
    have at' : ℓ[j]? = .some ℓ[j] := getElem?_eq_getElem long
    have index : (ℓ[j]).index = j := sound'.index j _ at'
    cases here : l.entries[j]? with
    | none =>
      have ends : l.entries = ℓ.take j := by
        rw [← agree, take_of_length_le]
        exact getElem?_eq_none_iff.1 here
      exact .inr (.inl ⟨storeEntries_of_end sound' short some ends, ends ▸ List.take_prefix ..⟩)
    | some old =>
      by_cases same : old.term = (ℓ[j]).term
      · have calm : l.conflicts ℓ[j] = false := by
          rw [conflicts_eq sound, index, here]
          simpa using same
        have stored : l.storeEntry ℓ[j] = l := by
          unfold storeEntry
          rw [calm, if_neg (by simp), get_eq sound, index, here]
          rfl
        have further := sound.take_eq sound' here at' same
        have clean' : ∀ e ∈ (ℓ.drop (j + 1)).dropLast, l.conflicts e = false := by
          intro e mem
          refine clean e ?_
          rw [head, dropLast_cons_of_ne_nil]
          · exact mem_cons_of_mem _ mem
          · rintro empty
            rw [empty] at mem
            cases mem
        have later := ih long (List.getElem?_eq_some_iff.1 here).1 (by omega) further clean' (by omega)
        have loop : l.storeEntries (ℓ.drop j) = l.storeEntries (ℓ.drop (j + 1)) := by
          rw [head]
          show (l.storeEntry ℓ[j]).storeEntries _ = _
          rw [stored]
        have cuts : l.cuts (ℓ.drop j) = l.cuts (ℓ.drop (j + 1)) := by
          rw [head]
          show (l.conflicts ℓ[j] || (l.storeEntry ℓ[j]).cuts _) = _
          rw [calm, stored]
          rfl
        rw [loop, cuts]
        rcases later with keep | all | ⟨cut, k, e, e', low, rest⟩
        · exact .inl keep
        · exact .inr (.inl all)
        · exact .inr (.inr ⟨cut, k, e, e', by omega, rest⟩)
      · have conflict : l.conflicts ℓ[j] = true := by
          rw [conflicts_eq sound, index, here]
          simpa using same
        -- the conflicting entry is the last one of the message
        have last : ℓ.drop (j + 1) = [] := by
          by_contra more
          have := clean ℓ[j] (by
            rw [head, dropLast_cons_of_ne_nil more]
            exact mem_cons_self)
          rw [conflict] at this
          cases this
        refine .inr (.inr ⟨?_, j, old, ℓ[j], le_rfl, here, at', same, ?_⟩)
        · rw [head]
          show (l.conflicts ℓ[j] || _) = true
          rw [conflict]
          rfl
        · rw [head, last]
          show (l.storeEntry ℓ[j]).entries = _
          unfold storeEntry
          rw [if_pos conflict, Entry.prevIndex, index, if_neg some.ne', entries_truncateAfter sound,
            Nat.sub_add_cancel some, agree]

end

end RaftLog

end TransactionManager.Raft
