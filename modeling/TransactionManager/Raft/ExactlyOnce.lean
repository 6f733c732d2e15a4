import TransactionManager.Raft.Applying
import TransactionManager.Lib.Prefix

/-!
# Exactly-once, in-order apply

`applyCommitted` passes an entry to the FSM and stores its index afterwards, and
`handleInstallSnapshot` restores the FSM and moves the indices afterwards; neither holds `n.mu` in
between, and the handler does not compare the snapshot with what has been applied. The state of the
FSM is the one after the committed entries up to `lastApplied`, or one more, as long as a snapshot is
restored only where it fits and nothing comes between its restoring and its indices.
-/

namespace TransactionManager.Raft
open Lib List Option RaftLog

variable {F : FSM}

namespace NodeRun

/-- The process goes on: it is not ended, and an entry is not appended to an empty log. -/
def Alive (s : NodeRun F) : NodeAction → Prop
  | .restart => False
  | .append _ => s.node.log.entries ≠ []
  | _ => True

/-- A handler has restored its snapshot and not yet moved the indices. -/
def Updating (s : NodeRun F) : Prop := ∃ c, (c, .update) ∈ s.node.installing

/-- The apply loop stands between picking an index and storing it. -/
def Busy (s : NodeRun F) : Prop := ∃ index, s.node.phase = .picked index ∨ s.node.phase = .applied index

/-- The state of the FSM is the one after the committed entries up to `lastApplied` or one more. -/
def InOrder (chosen : Nat → Entry) (s : NodeRun F) : Prop :=
  ∃ k, s.node.lastApplied ≤ k ∧ k ≤ s.node.lastApplied + 1 ∧ s.node.fsm = F.effects chosen k

/-- A snapshot is restored while the apply loop rests and no other handler stands before its indices. It is the one of
`lastApplied` or of the next entry, and its state `fits` the one it replaces. The apply loop rests while a handler
stands before its indices. -/
def Undisturbed (chosen : Nat → Entry) (fits : F.State → F.State → Prop) (s : NodeRun F) (a : NodeAction) : Prop :=
  s.Alive a ∧ match a with
    | .apply => ¬ s.Updating
    | .install handler => ∀ h ∈ s.node.installing[handler]?, h.2 = .restore → ∀ args ∈ s.sent[h.1]?,
        ¬ s.Busy ∧ ¬ s.Updating ∧ s.node.lastApplied ≤ args.lastIncludedIndex ∧
          args.lastIncludedIndex ≤ s.node.lastApplied + 1 ∧
          fits (F.effects chosen s.node.lastApplied) (F.effects chosen args.lastIncludedIndex)
    | _ => True

/-- The FSM has had the first `k` entries. -/
structure Counts (chosen : Nat → Entry) (s : NodeRun F) (k : Nat) : Prop where
  fsm : s.node.fsm = F.effects chosen k
  low : s.node.lastApplied ≤ k
  applied : ∀ index, s.node.phase = .applied index → index = k ∧ k = s.node.lastApplied + 1
  updating : ∀ c, (c, .update) ∈ s.node.installing → ¬ s.Busy ∧ k ≤ s.node.lastApplied + 1 ∧
    ∃ args, s.sent[c]? = some args ∧ args.lastIncludedIndex = k
  rest : (∀ index, s.node.phase ≠ .applied index) → ¬ s.Updating → k = s.node.lastApplied

structure Ordered (chosen : Nat → Entry) (s : NodeRun F) : Prop where
  log : ∀ j e, 0 < j → j ≤ s.settled → s.node.log.get j = some e → e = chosen j
  commit : s.node.commitIndex ≤ s.settled
  pick : ∀ index, s.node.phase = .picked index → index = s.node.lastApplied + 1 ∧ index ≤ s.settled
  once : s.node.installing.countP (fun h => h.2 = .update) ≤ 1
  counts : ∃ k, s.Counts chosen k
  sent : ∀ args ∈ s.sent, F.snapshot (F.effects chosen args.lastIncludedIndex) = some args.data

section
variable {chosen : Nat → Entry} {fits : F.State → F.State → Prop} {s s' : NodeRun F} {a : NodeAction}

section
variable (inv : s.Ordered chosen)
include inv

omit inv in
theorem Ordered.start (chosen : Nat → Entry) : Ordered chosen ({} : NodeRun F) where
  log j e pos low := by
    have : j ≤ 0 := low
    omega
  commit := le_rfl
  pick index phase := by cases phase
  once := Nat.zero_le _
  counts := by
    refine ⟨0, rfl, le_rfl, ?_, ?_, fun _ _ => rfl⟩
    · intro index phase
      cases phase
    · intro c mem
      cases mem
  sent := by simp

omit inv in
theorem Counts.same {k : Nat} (counts : s.Counts chosen k) (fsm : s'.node.fsm = s.node.fsm)
    (lastApplied : s'.node.lastApplied = s.node.lastApplied) (phase : s'.node.phase = s.node.phase)
    (installing : ∀ c, (c, .update) ∈ s'.node.installing ↔ (c, .update) ∈ s.node.installing)
    (sent : ∀ (c : Nat) args, s.sent[c]? = some args → s'.sent[c]? = some args) : s'.Counts chosen k := by
  have busy : s'.Busy ↔ s.Busy := by
    unfold Busy
    rw [phase]
  have updating : s'.Updating ↔ s.Updating := by
    unfold Updating
    simp only [installing]
  constructor
  · rw [fsm, counts.fsm]
  · rw [lastApplied]
    exact counts.low
  · rw [phase, lastApplied]
    exact counts.applied
  · intro c mem
    obtain ⟨idle, low, args, here, index⟩ := counts.updating c ((installing c).1 mem)
    rw [busy, lastApplied]
    exact ⟨idle, low, args, sent c args here, index⟩
  · rw [phase, updating, lastApplied]
    exact counts.rest

namespace Ordered

theorem outside {log : RaftLog} {commitIndex settled : Nat}
    (entries : ∀ j e, 0 < j → j ≤ settled → log.get j = some e → e = chosen j)
    (commit : commitIndex ≤ settled) (later : s.settled ≤ settled) :
    Ordered chosen { s with node := { s.node with log, commitIndex }, settled } where
  log := entries
  commit := commit
  pick index phase := by
    obtain ⟨next, low⟩ := inv.pick index phase
    exact ⟨next, low.trans later⟩
  once := inv.once
  counts := by
    obtain ⟨k, counts⟩ := inv.counts
    exact ⟨k, counts.same rfl rfl rfl (fun _ => Iff.rfl) fun _ _ sent => sent⟩
  sent := inv.sent

theorem append {e : Entry}
    (chose : e.index ≤ s.settled → e = chosen e.index) : Ordered chosen (s.setNode (s.node.extend e)) := by
  refine inv.outside (fun j x pos low found => ?_) inv.commit le_rfl
  rw [get_append] at found
  cases old : s.node.log.get j with
  | some y =>
    rw [old] at found
    cases found
    exact inv.log j _ pos low old
  | none =>
    rw [old, none_or] at found
    obtain ⟨here, rfl⟩ := of_guard found
    rw [← here] at low ⊢
    exact chose low

theorem truncateAfter (index : Nat) :
    Ordered chosen (s.setNode { s.node with log := s.node.log.truncateAfter index }) := by
  refine inv.outside (fun j x pos low found => ?_) inv.commit le_rfl
  rw [get_truncateAfter] at found
  split at found
  · exact inv.log j x pos low found
  · cases found

theorem commitTo {index : Nat} (known : ∀ j ∈ List.range' (s.node.commitIndex + 1) (index - s.node.commitIndex),
      ∀ e ∈ s.node.log.get j, e = chosen j) :
    Ordered chosen { s.setNode { s.node with commitIndex := index } with settled := max s.settled index } := by
  refine inv.outside (fun j x pos low here => ?_) (le_max_right ..) (le_max_left ..)
  by_cases old : j ≤ s.settled
  · exact inv.log j x pos old here
  · exact known j (mem_range'_1.2 (by have := inv.commit; omega)) x here

theorem quiet {n' : Node F} (free : ¬ s.Updating) (unapplied : ∀ index, s.node.phase ≠ .applied index)
    (fsm : n'.fsm = s.node.fsm) (lastApplied : n'.lastApplied = s.node.lastApplied)
    (commit : n'.commitIndex = s.node.commitIndex) (installing : n'.installing = s.node.installing)
    (log : ∀ j e, n'.log.get j = some e → s.node.log.get j = some e)
    (pick : ∀ index, n'.phase = .picked index → index = s.node.lastApplied + 1 ∧ index ≤ s.settled)
    (idle : ∀ index, n'.phase ≠ .applied index) : Ordered chosen (s.setNode n') := by
  obtain ⟨k, counts⟩ := inv.counts
  have rest := counts.rest unapplied free
  constructor
  · exact fun j e pos low found => inv.log j e pos low (log j e found)
  · exact commit.trans_le inv.commit
  · show ∀ index, n'.phase = .picked index → index = n'.lastApplied + 1 ∧ _
    rw [lastApplied]
    exact pick
  · show n'.installing.countP _ ≤ 1
    rw [installing]
    exact inv.once
  · refine ⟨k, fsm.trans counts.fsm, lastApplied.trans_le counts.low, ?_, ?_, ?_⟩
    · exact fun index phase => absurd phase (idle index)
    · intro c mem
      have mem : (c, .update) ∈ n'.installing := mem
      rw [installing] at mem
      exact absurd ⟨c, mem⟩ free
    · exact fun _ _ => rest.trans lastApplied.symm
  · exact inv.sent

theorem apply {n' : Node F} (free : ¬ s.Updating) (step : ApplyStep s.node n') :
    Ordered chosen (s.setNode n') ∧ s.node.lastApplied ≤ n'.lastApplied := by
  cases step with
  | pick phase left =>
    refine ⟨inv.quiet free (by simp [phase]) rfl rfl rfl rfl (fun _ _ found => found) ?_ (by simp), le_rfl⟩
    rintro index ⟨⟩
    exact ⟨rfl, (Nat.succ_le_of_lt left).trans inv.commit⟩
  | stall _ phase =>
    exact ⟨inv.quiet free (by simp [phase]) rfl rfl rfl rfl (fun _ _ found => found) (by simp) (by simp), le_rfl⟩
  | pass index e phase found =>
    obtain ⟨k, counts⟩ := inv.counts
    obtain ⟨next, low⟩ := inv.pick index phase
    have rest := counts.rest (by simp [phase]) free
    have own := inv.log index e (by omega) low found
    refine ⟨⟨inv.log, inv.commit, ?_, inv.once, ⟨k + 1, ?_, ?_, ?_, ?_, ?_⟩, inv.sent⟩, le_rfl⟩
    · nofun
    · show F.apply e s.node.fsm = F.apply (chosen (k + 1)) (F.effects chosen k)
      rw [counts.fsm, own, next, rest]
    · exact counts.low.trans (Nat.le_succ k)
    · rintro index' ⟨⟩
      exact ⟨by omega, by rw [rest]; rfl⟩
    · exact fun c mem => absurd ⟨c, mem⟩ free
    · exact fun unapplied => absurd rfl (unapplied index)
  | store index next phase due =>
    obtain ⟨k, counts⟩ := inv.counts
    obtain ⟨here, rest⟩ := counts.applied index phase
    have idle (i : Nat) : next ≠ .picked i ∧ next ≠ .applied i := by
      rcases due with rfl | rfl <;> simp
    refine ⟨⟨inv.log, inv.commit, ?_, inv.once, ⟨k, counts.fsm, here.le, ?_, ?_, ?_⟩, inv.sent⟩, ?_⟩
    · exact fun i phase => absurd phase (idle i).1
    · exact fun i phase => absurd phase (idle i).2
    · exact fun c mem => absurd ⟨c, mem⟩ free
    · exact fun _ _ => here.symm
    · show s.node.lastApplied ≤ index
      omega
  | snapshot next phase taken =>
    have idle (i : Nat) : next ≠ .picked i ∧ next ≠ .applied i := by
      rcases taken with ⟨data, rfl⟩ | rfl <;> simp
    exact ⟨inv.quiet free (by simp [phase]) rfl rfl rfl rfl (fun _ _ found => found)
      (fun i phase => absurd phase (idle i).1) fun i => (idle i).2, le_rfl⟩
  | compact data phase =>
    refine ⟨inv.quiet free (by simp [phase]) rfl rfl rfl rfl (fun j e found => ?_) (by simp) (by simp), le_rfl⟩
    have found : (s.node.log.truncateBefore s.node.lastApplied).get j = some e := found
    rw [get_truncateBefore] at found
    split at found
    · exact found
    · cases found

theorem deliver {n' : Node F} {args : InstallSnapshotArgs F} (delivered : Delivered s.node n' s.sent.length)
    (taken : F.snapshot (F.effects chosen args.lastIncludedIndex) = some args.data) :
    Ordered chosen { s with node := n', sent := s.sent ++ [args] } ∧ s.node.lastApplied ≤ n'.lastApplied := by
  refine ⟨⟨?_, ?_, ?_, ?_, ?_, forall_mem_append.2 ⟨inv.sent, ?_⟩⟩, delivered.lastApplied.ge⟩
  · rw [delivered.log]
    exact inv.log
  · exact delivered.commitIndex.trans_le inv.commit
  · rw [delivered.phase, delivered.lastApplied]
    exact inv.pick
  · rcases delivered.installing with eq | eq <;> rw [eq]
    · exact inv.once
    · simpa using inv.once
  · obtain ⟨k, counts⟩ := inv.counts
    refine ⟨k, counts.same delivered.fsm delivered.lastApplied delivered.phase ?_ ?_⟩
    · intro c
      rcases delivered.installing with eq | eq <;> rw [eq]
      simp
    · exact fun c _ found => getElem?_of_isPrefix (prefix_append ..) found
  · exact forall_mem_singleton.2 taken

end Ordered

omit inv in
theorem countP_update_iff {hs : List (Nat × InstallPhase)} :
    hs.countP (fun h => h.2 = .update) = 0 ↔ ∀ c, (c, .update) ∉ hs := by
  rw [countP_eq_zero]
  constructor
  · intro none c mem
    simpa using none _ mem
  · rintro none ⟨c, phase⟩ mem update
    have update : phase = .update := of_decide_eq_true update
    rw [update] at mem
    exact none c mem

theorem Ordered.alone {handler c : Nat} (here : s.node.installing[handler]? = some (c, .update)) :
    ∀ c', (c', .update) ∉ s.node.installing.set handler (c, .reply) := by
  have long := (List.getElem?_eq_some_iff.1 here).1
  have own := (List.getElem?_eq_some_iff.1 here).2
  have count := List.countP_set (p := fun h : Nat × InstallPhase => h.2 = .update) (a := (c, .reply)) long
  apply countP_update_iff.1
  rw [count, own]
  have := inv.once
  simp
  omega

section
variable (law : ∀ t s data, fits t s → F.snapshot s = some data → F.restore data t = (true, s))
include law

theorem Ordered.install {handler : Nat} {n' : Node F} (ok : Undisturbed chosen fits s (.install handler)) (step : InstallStep s handler n') :
    Ordered chosen { s.setNode n' with settled := max s.settled n'.commitIndex } ∧
      s.node.lastApplied ≤ n'.lastApplied := by
  obtain ⟨k, counts⟩ := inv.counts
  have settled : max s.settled s.node.commitIndex = s.settled := max_eq_left inv.commit
  cases step with
  | restore c args here sent =>
    obtain ⟨idle, free, low, high, fit⟩ := ok.2 _ here rfl args sent
    have rest := counts.rest (fun index phase => idle ⟨index, .inr phase⟩) free
    rw [counts.fsm, rest, law _ _ _ fit (inv.sent args (mem_of_getElem? sent))]
    have long := (List.getElem?_eq_some_iff.1 here).1
    refine ⟨⟨?_, le_max_right .., ?_, ?_, ⟨args.lastIncludedIndex, rfl, low, ?_, ?_, ?_⟩, inv.sent⟩, le_rfl⟩
    · rw [settled]
      exact inv.log
    · exact fun index phase => absurd ⟨index, .inl phase⟩ idle
    · have none := countP_update_iff.2 fun c' mem => free ⟨c', mem⟩
      show (s.node.installing.set handler _).countP _ ≤ 1
      rw [countP_set long, none]
      simp
    · exact fun index phase => absurd ⟨index, .inr phase⟩ idle
    · intro c' mem
      rcases mem_or_eq_of_mem_set mem with old | new
      · exact absurd ⟨c', old⟩ free
      · cases new
        exact ⟨idle, high, args, sent, rfl⟩
    · intro _ none
      refine absurd ⟨c, ?_⟩ none
      exact mem_set long _
  | update c args here sent =>
    obtain ⟨idle, low, args', sent', index⟩ := counts.updating c (mem_of_getElem? here)
    obtain rfl := some.inj (sent.symm.trans sent')
    have alone := inv.alone here
    have applied : max s.node.lastApplied args.lastIncludedIndex = k := by
      have := counts.low
      omega
    refine ⟨⟨?_, le_max_right .., ?_, ?_, ⟨k, counts.fsm, applied.le, ?_, ?_, ?_⟩, inv.sent⟩, le_max_left ..⟩
    · intro j e pos low found
      have low : j ≤ max s.settled (max s.node.commitIndex args.lastIncludedIndex) := low
      have found : (s.node.log.truncateBefore args.lastIncludedIndex).get j = some e := found
      rw [get_truncateBefore] at found
      split at found
      · exact inv.log j e pos (by omega) found
      · cases found
    · exact fun index phase => absurd ⟨index, .inl phase⟩ idle
    · exact (countP_update_iff.2 alone).trans_le (Nat.zero_le 1)
    · exact fun index phase => absurd ⟨index, .inr phase⟩ idle
    · exact fun c' mem => absurd mem (alone c')
    · exact fun _ _ => applied.symm
  | reply c here =>
    have sub := eraseIdx_sublist s.node.installing handler
    refine ⟨⟨?_, le_max_right .., ?_, (sub.countP_le).trans inv.once, ⟨k, ?_⟩, inv.sent⟩, le_rfl⟩
    · rw [settled]
      exact inv.log
    · rw [settled]
      exact inv.pick
    refine counts.same rfl rfl rfl (fun c' => ⟨fun mem => sub.subset mem, fun mem => ?_⟩) fun _ _ found => found
    -- what is taken out is not before its indices
    obtain ⟨h, other⟩ := mem_iff_getElem?.1 mem
    have ne : h ≠ handler := by
      rintro rfl
      rw [here] at other
      cases other
    exact mem_eraseIdx_iff_getElem?.2 ⟨h, ne, other⟩

/-- Every step of an undisturbed run keeps the order, and `lastApplied` does not go down. -/
theorem Ordered.next (ok : Undisturbed chosen fits s a) (taken : s.next chosen a = some s') :
    s'.Ordered chosen ∧ s.node.lastApplied ≤ s'.node.lastApplied := by
  cases a with
  | append e =>
    dsimp only [NodeRun.next] at taken
    split at taken
    · rename_i empty
      have none : s.node.log.entries = [] := by simpa [lastIndex] using empty
      exact absurd none ok.1
    · obtain ⟨own, rfl⟩ := of_guard taken
      exact ⟨inv.append own.2, le_rfl⟩
  | truncateAfter index =>
    obtain ⟨_, rfl⟩ := of_guard taken
    exact ⟨inv.truncateAfter index, le_rfl⟩
  | commit =>
    obtain ⟨known, rfl⟩ := of_guard taken
    exact ⟨inv.commitTo known.2.2, le_rfl⟩
  | apply =>
    obtain ⟨n', rfl, step⟩ := applyStep taken
    exact inv.apply ok.2 step
  | deliver =>
    obtain ⟨data, took, rfl⟩ := map_eq_some_iff.1 taken
    exact inv.deliver (s.delivered s.sent.length _) took
  | install =>
    obtain ⟨n', rfl, step⟩ := installStep taken
    exact inv.install law ok step
  | restart => exact ok.1.elim

end

end

end

instance (s : NodeRun F) (a : NodeAction) : Decidable (s.Alive a) := by
  unfold Alive
  split <;> infer_instance

instance (s : NodeRun F) : Decidable s.Updating :=
  decidable_of_iff (s.node.installing.countP (fun h => h.2 = .update) ≠ 0)
    (by simp only [ne_eq, countP_update_iff, not_forall, not_not, Updating])

instance (s : NodeRun F) : Decidable s.Busy :=
  match phase : s.node.phase with
  | .picked index => isTrue ⟨index, .inl phase⟩
  | .applied index => isTrue ⟨index, .inr phase⟩
  | .idle | .due | .taken _ => isFalse (by simp [Busy, phase])

instance (chosen : Nat → Entry) (fits : F.State → F.State → Prop) [DecidableRel fits] (s : NodeRun F) (a : NodeAction) :
    Decidable (Undisturbed chosen fits s a) := by
  unfold Undisturbed
  split <;> infer_instance

end NodeRun

end TransactionManager.Raft
