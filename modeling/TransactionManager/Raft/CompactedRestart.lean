import TransactionManager.Raft.Applying
import TransactionManager.Raft.Sound

/-!
# A restart after compaction

`triggerSnapshot` keeps the snapshot in memory only. `TruncateBefore` leaves the file as it is, so a
new process finds every entry there, until the next `Append` or `TruncateAfter` rewrites the file
from what is left in memory. A process that is started on such a file has neither the first entries
nor the snapshot, and its apply loop stops at the first index.
-/

namespace TransactionManager.Raft
open Lib List Option RaftLog

variable {F : FSM}

namespace NodeRun
variable {k : Nat} {chosen : Nat → Entry} {s : NodeRun F} {l : RaftLog}

def NoTransfer (_ : NodeRun F) : NodeAction → Prop
  | .deliver .. | .install _ => False
  | _ => True

/-- A process ends only while its file begins with the sentinel: it has not been rewritten after a compaction. -/
def KeepsFile (s : NodeRun F) (a : NodeAction) : Prop := NoTransfer s a ∧ match a with
    | .restart => s.node.log.file.head? = some dummy
    | .append _ => s.node.log.entries = [] → s.node.log.file.head? = some dummy
    | _ => True

/-- The entry that the apply loop goes for is in the log. Once all that was ever committed is known to be so again,
the apply loop brings all of its effects about. -/
def LosesNothing (chosen : Nat → Entry) (s : NodeRun F) : Prop :=
  (∀ index, s.node.phase = .picked index → s.node.log.get index ≠ none) ∧
  (s.settled ≤ s.node.commitIndex → ∃ k s', runActions (NodeRun.next chosen) s (List.replicate k .apply) = some s' ∧
    s'.node.phase = .idle ∧ s'.node.fsm = F.effects chosen s.settled)

/-- Where the log in memory begins. -/
def base (s : NodeRun F) : Nat := if s.node.snapshotIndex = 0 then 0 else s.node.snapshotIndex + 1

/-- The log in memory is the end of a log without gaps that has every committed entry, and so is the file while it
begins with the sentinel. -/
structure Kept (chosen : Nat → Entry) (s : NodeRun F) (full : List Entry) : Prop where
  first : full[0]? = some dummy
  index : ∀ (k : Nat) (e : Entry), full[k]? = some e → e.index = k
  entries : s.node.log.entries = full.drop s.base
  file : s.node.log.file.head? = some dummy → s.node.log.file = full
  committed : ∀ j, 0 < j → j ≤ s.settled → full[j]? = some (chosen j)

def Stands (chosen : Nat → Entry) (n : Node F) : Prop :=
  match n.phase with
  | .idle => n.fsm = F.effects chosen n.lastApplied
  | .picked index => index = n.lastApplied + 1 ∧ index ≤ n.commitIndex ∧ n.fsm = F.effects chosen n.lastApplied
  | .applied index => index = n.lastApplied + 1 ∧ index ≤ n.commitIndex ∧ n.fsm = F.effects chosen index
  | .due | .taken _ => 0 < n.lastApplied ∧ n.fsm = F.effects chosen n.lastApplied

structure Lasting (chosen : Nat → Entry) (s : NodeRun F) : Prop where
  log : ∃ full, s.Kept chosen full
  snapshot : s.node.snapshotIndex ≤ s.node.lastApplied
  applied : s.node.lastApplied ≤ s.node.commitIndex
  commit : s.node.commitIndex ≤ s.settled
  stands : Stands chosen s.node

section
variable {chosen : Nat → Entry} {s s' : NodeRun F} {a : NodeAction} {full : List Entry} {last index : Nat}

theorem Kept.length (kept : s.Kept chosen full) : s.settled < full.length := by
  have here : ∃ e, full[s.settled]? = some e := by
    cases eq : s.settled with
    | zero => exact ⟨_, kept.first⟩
    | succ k => exact ⟨_, kept.committed (k + 1) k.succ_pos eq.ge⟩
  obtain ⟨e, here⟩ := here
  exact (List.getElem?_eq_some_iff.1 here).1

theorem Lasting.base_le (inv : s.Lasting chosen) : s.base ≤ s.node.lastApplied + 1 := by
  have := inv.snapshot
  unfold base
  split <;> omega

theorem Lasting.sameLog (inv : s.Lasting chosen) {n' : Node F} (log : n'.log = s.node.log)
    (snapshot : n'.snapshotIndex = s.node.snapshotIndex) : ∃ full, (s.setNode n').Kept chosen full := by
  obtain ⟨full, kept⟩ := inv.log
  have base : (s.setNode n').base = s.base := by
    unfold base setNode
    rw [snapshot]
  refine ⟨full, kept.first, kept.index, ?_, ?_, kept.committed⟩
  · rw [base, ← kept.entries, ← log]
    rfl
  · show n'.log.file.head? = _ → n'.log.file = _
    rw [log]
    exact kept.file

theorem Kept.get (kept : s.Kept chosen full) {j : Nat} (high : s.base ≤ j) : s.node.log.get j = full[j]? := by
  have rest : full.drop s.base = full.filter fun e => decide (s.base ≤ e.index) := by
    refine (filter_eq_drop fun k e here => ?_).symm
    rw [kept.index k e here]
  show s.node.log.entries.find? _ = _
  rw [kept.entries, rest, get_filter (p := fun i => decide (s.base ≤ i)),
    if_pos (decide_eq_true high), find?_index kept.index]

theorem Kept.lastIndex (kept : s.Kept chosen full)
    (ends : s.node.log.lastIndex = some last) : full.length = last + 1 := by
  obtain ⟨x, at', rfl⟩ := map_eq_some_iff.1 ends
  rw [kept.entries, getLast?_drop] at at'
  split at at'
  · cases at'
  · rw [getLast?_eq_getElem?] at at'
    rw [kept.index _ x at']
    omega

/-- A file that begins with the sentinel is the whole log. -/
theorem eq_of_head_drop (index : ∀ (k : Nat) (e : Entry), full[k]? = some e → e.index = k) {b : Nat}
    (head : (full.drop b).head? = some dummy) : full.drop b = full := by
  rw [head?_drop] at head
  have zero : b = 0 := (index b dummy head).symm
  rw [zero, drop_zero]

theorem Lasting.start (chosen : Nat → Entry) : Lasting chosen ({} : NodeRun F) where
  log := by
    refine ⟨[dummy], rfl, fun k e here => ?_, rfl, fun _ => rfl, fun j pos low => ?_⟩
    · rcases getElem?_concat_cases (l := []) here with none | ⟨rfl, rfl⟩
      · cases none
      · rfl
    · have : j ≤ 0 := low
      omega
  snapshot := le_rfl
  applied := le_rfl
  commit := le_rfl
  stands := rfl

section
variable (inv : s.Lasting chosen)
include inv

/-- The log and the file become the end of another whole log. -/
theorem Lasting.rewrite (full' : List Entry) {entries : List Entry} (first : full'[0]? = some dummy)
    (index : ∀ (k : Nat) (e : Entry), full'[k]? = some e → e.index = k) (rest : entries = full'.drop s.base)
    (committed : ∀ j, 0 < j → j ≤ s.settled → full'[j]? = some (chosen j)) :
    Lasting chosen (s.setNode { s.node with log := ⟨entries, entries⟩ }) := by
  refine ⟨⟨full', first, index, rest, fun head => ?_, committed⟩, inv.snapshot, inv.applied, inv.commit, inv.stands⟩
  rw [rest] at head ⊢
  exact eq_of_head_drop index head

theorem Lasting.append {e : Entry} (ends : s.node.log.lastIndex = some last) (next : e.index = last + 1) :
    Lasting chosen (s.setNode (s.node.extend e)) := by
  obtain ⟨full, kept⟩ := inv.log
  have long := kept.length
  have start : s.base ≤ full.length := by
    have := inv.base_le
    have := inv.applied
    have := inv.commit
    omega
  have length := kept.lastIndex ends
  refine inv.rewrite (full ++ [e]) ?_ ?_ ?_ ?_
  · rw [getElem?_append_left (by omega), kept.first]
  · intro k x here
    rcases getElem?_concat_cases here with old | ⟨rfl, rfl⟩
    · exact kept.index k x old
    · rw [next, length]
  · rw [drop_append_of_le_length start, ← kept.entries]
  · intro j pos low
    rw [getElem?_append_left (by omega), kept.committed j pos low]

theorem Lasting.truncateAfter (high : s.settled ≤ index) :
    Lasting chosen (s.setNode { s.node with log := s.node.log.truncateAfter index }) := by
  obtain ⟨full, kept⟩ := inv.log
  refine inv.rewrite (full.take (index + 1)) ?_ ?_ ?_ ?_
  · rw [getElem?_take_of_lt (Nat.succ_pos _), kept.first]
  · exact fun k e here => kept.index k e (getElem?_of_isPrefix (List.take_prefix ..) here)
  · rw [kept.entries, drop_take]
    refine filter_eq_take fun k e here => ?_
    rw [getElem?_drop] at here
    rw [kept.index _ e here]
    exact decide_eq_decide.2 (by omega)
  · intro j pos low
    rw [getElem?_take_of_lt (by omega), kept.committed j pos low]

theorem Lasting.commitTo
    (more : s.node.commitIndex < index) (ends : s.node.log.lastIndex = some last) (low : index ≤ last)
    (known : ∀ j ∈ List.range' (s.node.commitIndex + 1) (index - s.node.commitIndex),
      ∀ e ∈ s.node.log.get j, e = chosen j) :
    Lasting chosen { s.setNode { s.node with commitIndex := index } with settled := max s.settled index } := by
  obtain ⟨full, kept⟩ := inv.log
  have length := kept.lastIndex ends
  have := inv.applied
  refine ⟨⟨full, kept.first, kept.index, kept.entries, kept.file, fun j pos high => ?_⟩, inv.snapshot,
    this.trans more.le, le_max_right .., ?_⟩
  · by_cases old : j ≤ s.settled
    · exact kept.committed j pos old
    have high : j ≤ max s.settled index := high
    have start := inv.base_le
    have := inv.commit
    have here := getElem?_eq_getElem (l := full) (i := j) (by omega)
    have found : s.node.log.get j = some _ := (kept.get (by omega)).trans here
    rw [here, known j (mem_range'_1.2 (by omega)) _ found]
  · have stands := inv.stands
    unfold Stands at stands ⊢
    dsimp only [setNode]
    cases phase : s.node.phase with
    | picked i | applied i =>
      rw [phase] at stands
      exact ⟨stands.1, stands.2.1.trans more.le, stands.2.2⟩
    | idle | due | taken =>
      rw [phase] at stands
      exact stands

/-- The apply loop goes for an entry that is there. -/
theorem Lasting.picked (phase : s.node.phase = .picked index) : s.node.log.get index = some (chosen index) := by
  obtain ⟨full, kept⟩ := inv.log
  obtain ⟨next, low, -⟩ : index = s.node.lastApplied + 1 ∧ index ≤ s.node.commitIndex ∧ _ := by
    have stands := inv.stands
    rwa [Stands, phase] at stands
  have start := inv.base_le
  rw [kept.get (by omega), kept.committed index (by omega) (low.trans inv.commit)]

omit inv in
/-- What the apply loop has left to do. -/
def todo (n : Node F) : Nat :=
  match n.phase with
  | .idle => 6 * (n.commitIndex - n.lastApplied)
  | .picked _ => 6 * (n.commitIndex - n.lastApplied) - 1
  | .applied _ => 6 * (n.commitIndex - n.lastApplied) - 2
  | .due => 6 * (n.commitIndex - n.lastApplied) + 2
  | .taken _ => 6 * (n.commitIndex - n.lastApplied) + 1

theorem Lasting.apply {n' : Node F} (step : ApplyStep s.node n') :
    Lasting chosen (s.setNode n') ∧ n'.commitIndex = s.node.commitIndex ∧ todo n' < todo s.node := by
  have stands := inv.stands
  unfold Stands at stands
  unfold todo
  cases step with
  | pick phase left =>
    rw [phase] at stands ⊢
    refine ⟨⟨inv.sameLog rfl rfl, inv.snapshot, inv.applied, inv.commit, ?_⟩, rfl, ?_⟩
    · exact ⟨rfl, left, stands⟩
    · dsimp only
      omega
  | stall index phase missing =>
    rw [inv.picked phase] at missing
    cases missing
  | pass index e phase found =>
    have here := inv.picked phase
    rw [phase] at stands ⊢
    obtain ⟨rfl, low, fsm⟩ := stands
    obtain rfl := some.inj (found.symm.trans here)
    refine ⟨⟨inv.sameLog rfl rfl, inv.snapshot, inv.applied, inv.commit, rfl, low, ?_⟩, rfl, ?_⟩
    · rw [fsm]
      rfl
    · dsimp only
      omega
  | store index next phase due =>
    rw [phase] at stands ⊢
    obtain ⟨rfl, low, fsm⟩ := stands
    have snapshot := inv.snapshot
    refine ⟨⟨inv.sameLog rfl rfl, snapshot.trans (Nat.le_succ _), low, inv.commit, ?_⟩, rfl, ?_⟩
    · rcases due with rfl | rfl
      · exact ⟨Nat.succ_pos _, fsm⟩
      · exact fsm
    · rcases due with rfl | rfl <;> dsimp only <;> omega
  | snapshot next phase taken =>
    rw [phase] at stands ⊢
    refine ⟨⟨inv.sameLog rfl rfl, inv.snapshot, inv.applied, inv.commit, ?_⟩, rfl, ?_⟩
    · rcases taken with ⟨data, rfl⟩ | rfl
      · exact stands
      · exact stands.2
    · rcases taken with ⟨data, rfl⟩ | rfl <;> dsimp only <;> omega
  | compact data phase =>
    rw [phase] at stands ⊢
    obtain ⟨full, kept⟩ := inv.log
    have start := inv.base_le
    refine ⟨⟨⟨full, kept.first, kept.index, ?_, kept.file, kept.committed⟩, le_rfl, inv.applied, inv.commit,
      stands.2⟩, rfl, Nat.lt_succ_self _⟩
    have base : base (s.setNode { s.node.compact data with phase := .idle }) = s.node.lastApplied + 1 :=
      if_neg stands.1.ne'
    rw [base]
    show s.node.log.entries.filter _ = _
    rw [kept.entries, ← Nat.add_sub_cancel' start, ← drop_drop]
    refine filter_eq_drop fun k e here => ?_
    rw [getElem?_drop] at here
    rw [kept.index _ e here]
    exact decide_eq_decide.2 (by omega)

theorem Lasting.restart (head : s.node.log.file.head? = some dummy) : Lasting chosen (s.setNode s.node.restart) := by
  obtain ⟨full, kept⟩ := inv.log
  have whole := kept.file head
  have some : s.node.log.file ≠ [] := by
    rintro empty
    rw [empty] at head
    cases head
  have log : s.node.log.reopen = ⟨full, full⟩ := by
    rw [reopen, if_neg some, whole]
  refine ⟨⟨full, kept.first, kept.index, ?_, fun _ => ?_, kept.committed⟩, le_rfl, le_rfl, Nat.zero_le _, rfl⟩
  · show s.node.log.reopen.entries = full
    rw [log]
  · show s.node.log.reopen.file = full
    rw [log]

theorem Lasting.next (ok : KeepsFile s a) (taken : s.next chosen a = some s') : s'.Lasting chosen := by
  cases a with
  | append e =>
    dsimp only [NodeRun.next] at taken
    split at taken
    · rename_i empty
      have none : s.node.log.entries = [] := by simpa [lastIndex] using empty
      cases taken
      exact inv.restart (ok.2 none)
    · rename_i last ends
      obtain ⟨own, rfl⟩ := of_guard taken
      exact inv.append ends own.1
  | truncateAfter =>
    obtain ⟨high, rfl⟩ := of_guard taken
    exact inv.truncateAfter high
  | commit =>
    dsimp only [NodeRun.next] at taken
    split at taken
    · rename_i known
      obtain ⟨more, ⟨last, ends, low⟩, known⟩ := known
      cases taken
      exact inv.commitTo more ends low known
    · cases taken
  | apply =>
    obtain ⟨n', rfl, step⟩ := applyStep taken
    exact (inv.apply step).1
  | deliver => exact ok.1.elim
  | install => exact ok.1.elim
  | restart =>
    cases taken
    exact inv.restart ok.2

omit inv in
/-- The apply loop rests only when it has caught up. -/
theorem apply_enabled (left : s.node.phase = .idle → s.node.lastApplied < s.node.commitIndex) :
    ∃ s', s.apply = some s' := by
  rw [s.apply_eq]
  unfold Node.applyStep
  split
  · rename_i phase
    rw [if_pos (left phase)]
    exact ⟨_, rfl⟩
  · split
    · exact ⟨_, rfl⟩
    · exact ⟨_, rfl⟩
  · exact ⟨_, rfl⟩
  · exact ⟨_, rfl⟩
  · exact ⟨_, rfl⟩

/-- The apply loop catches up with the commit index. -/
theorem Lasting.catchUp : ∃ k s', runActions (NodeRun.next chosen) s (List.replicate k .apply) = some s' ∧
    s'.node.phase = .idle ∧ s'.node.fsm = F.effects chosen s.node.commitIndex := by
  -- every step leaves it less to do
  induction rest : todo s.node using Nat.strong_induction_on generalizing s with
  | _ rest' ih =>
    by_cases left : s.node.phase = .idle → s.node.lastApplied < s.node.commitIndex
    · obtain ⟨s', taken⟩ := apply_enabled left
      have taken' := taken
      obtain ⟨n', rfl, step⟩ := applyStep taken'
      obtain ⟨inv', commit, less⟩ := inv.apply step
      obtain ⟨k, last, run, done⟩ := ih _ (rest ▸ less) inv' rfl
      refine ⟨k + 1, last, ?_, commit ▸ done⟩
      show (s.apply).bind _ = _
      rw [taken]
      exact run
    · obtain ⟨phase, caught⟩ := Classical.not_imp.1 left
      have stands := inv.stands
      rw [Stands, phase] at stands
      have := inv.applied
      refine ⟨0, s, rfl, phase, ?_⟩
      rw [stands, show s.node.lastApplied = s.node.commitIndex by omega]

end

end

/-- In every run whose processes end on a file that still begins with the sentinel, compaction loses
nothing. -/
theorem losesNothing_of_keepsFile (F : FSM) (chosen : Nat → Entry) (s : NodeRun F)
    (reached : Reach (NodeRun.next chosen) KeepsFile {} s) : LosesNothing chosen s := by
  have inv : s.Lasting chosen := reached.invariant (.start chosen) fun s a s' inv ok taken => inv.next ok taken
  refine ⟨fun index phase missing => ?_, fun covers => ?_⟩
  · rw [inv.picked phase] at missing
    cases missing
  · rw [le_antisymm covers inv.commit]
    exact inv.catchUp

/-- The log of the first `k` entries. -/
def noopLog (k : Nat) : List Entry := (List.range (k + 1)).map noops

theorem noopLog_index (k j : Nat) (e : Entry) (here : (noopLog k)[j]? = some e) : e.index = j := by
  rw [noopLog, getElem?_map, map_eq_some_iff] at here
  obtain ⟨i, at', rfl⟩ := here
  obtain ⟨long, rfl⟩ := List.getElem?_eq_some_iff.1 at'
  rw [getElem_range]
  cases j <;> rfl

theorem get_noopLog {j : Nat} (low : j ≤ k) (file : List Entry) : RaftLog.get ⟨noopLog k, file⟩ j = some (noops j) := by
  refine (find?_index (noopLog_index k) j).trans ?_
  rw [noopLog, getElem?_map, getElem?_range (by omega)]
  rfl

theorem lastIndex_noopLog (k : Nat) (file : List Entry) : lastIndex ⟨noopLog k, file⟩ = some k := by
  unfold lastIndex noopLog
  rw [range_succ, map_append, map_singleton, getLast?_concat]
  cases k <;> rfl

theorem truncateBefore_noopLog (k : Nat) (file : List Entry) :
    truncateBefore ⟨noopLog (k + 1), file⟩ k = ⟨[noops (k + 1)], file⟩ := by
  have index (j : Nat) : (noops j).index = j := by cases j <;> rfl
  have low : (noopLog k).filter (fun e => k < e.index) = [] := by
    refine filter_eq_nil_iff.2 fun e mem => ?_
    obtain ⟨j, small, rfl⟩ := mem_map.1 mem
    rw [index, decide_eq_true_eq]
    have := mem_range.1 small
    omega
  unfold truncateBefore noopLog
  rw [range_succ, map_append, map_singleton, filter_append]
  show RaftLog.mk ((noopLog k).filter _ ++ _) _ = _
  rw [low, filter_singleton, index]
  simp

theorem head_noopLog (k : Nat) : (noopLog k).head? = some dummy := by
  rw [noopLog, head?_map, range_succ_eq_map]
  rfl

theorem reopen_noopLog (k : Nat) (entries : List Entry) : reopen ⟨entries, noopLog k⟩ = ⟨noopLog k, noopLog k⟩ := by
  have some : noopLog k ≠ [] := by simp [noopLog]
  exact if_neg some

theorem next_append {e : Entry} {last : Nat} (ends : s.node.log.lastIndex = some last) (index : e.index = last + 1)
    (chose : e.index ≤ s.settled → e = chosen e.index) :
    s.next chosen (.append e) = some (s.setNode (s.node.extend e)) := by
  dsimp only [NodeRun.next]
  rw [ends]
  exact if_pos ⟨index, chose⟩

def appended (k : Nat) : NodeRun countingFSM where
  node := { log := ⟨noopLog k, noopLog k⟩ }

theorem reach_appended (k : Nat) : Reach (NodeRun.next noops) KeepsFile {} (appended k) := by
  induction k with
  | zero => exact .refl
  | succ k ih =>
    refine .step ih (a := .append (noops (k + 1))) ⟨trivial, fun empty => ?_⟩ ?_
    · simp [appended, noopLog] at empty
    · rw [next_append (lastIndex_noopLog k _) rfl fun _ => rfl]
      unfold appended setNode Node.extend RaftLog.append noopLog
      rw [range_succ (n := k + 1), map_append, map_singleton]

attribute [irreducible] noopLog

/-- Of the entries of a log 1000 are committed and `k` applied. -/
def counted (l : RaftLog) (k : Nat) : NodeRun countingFSM where
  node := { log := l, commitIndex := 1000, lastApplied := k, fsm := show Nat from k }
  settled := 1000

theorem apply_counted (found : l.get (k + 1) = some (noops (k + 1)))
    (low : k < 1000) : runActions (NodeRun.next noops) (counted l k) [.apply, .apply, .apply] =
      some ((counted l (k + 1)).setNode { (counted l (k + 1)).node with
        phase := if 1000 ≤ k + 1 then .due else .idle }) := by
  have small : (k + 1 + 2 ^ 64 - 0) % 2 ^ 64 = k + 1 := by omega
  simp only [runActions, NodeRun.next, apply_eq, Node.applyStep, setNode, counted, if_pos low,
    map_some, bind_some, found, Node.shouldSnapshot, small, decide_eq_true_eq]
  rfl

theorem reach_apply {s₀ s' : NodeRun F} (run : runActions (NodeRun.next chosen) s (List.replicate k .apply) = some s')
    (reached : Reach (NodeRun.next chosen) KeepsFile s₀ s) : Reach (NodeRun.next chosen) KeepsFile s₀ s' := by
  induction k generalizing s with
  | zero =>
    cases run
    exact reached
  | succ k ih =>
    obtain ⟨mid, taken, rest⟩ := bind_eq_some_iff.1 run
    exact ih rest (.step (a := .apply) reached ⟨trivial, trivial⟩ taken)

theorem reach_counted (get : ∀ j ≤ 1000, l.get j = some (noops j))
    (reached : Reach (NodeRun.next noops) KeepsFile {} (counted l 0)) (k : Nat) (low : k < 1000) :
    Reach (NodeRun.next noops) KeepsFile {} (counted l k) := by
  induction k with
  | zero => exact reached
  | succ k ih =>
    have run := apply_counted (get (k + 1) low.le) (by omega)
    rw [if_neg (by omega)] at run
    exact reach_apply (k := 3) run (ih (by omega))

/-- The first 1000 entries have been applied and left out of the log. -/
def compacted (l : RaftLog) : NodeRun countingFSM where
  node := {
    log := l
    commitIndex := 1000
    lastApplied := 1000
    fsm := show Nat from 1000
    snapshotIndex := 1000
    snapshotTerm := 1
    snapshotData := some (show Nat from 1000) }
  settled := 1000

theorem apply_compacted (found : l.get 1000 = some (noops 1000)) :
    runActions (NodeRun.next noops) ((counted l 1000).setNode { (counted l 1000).node with phase := .due })
      [.apply, .apply] = some (compacted (l.truncateBefore 1000)) := by
  have term : ((l.get 1000).map (·.term)).getD 0 = 1 := by
    rw [found]
    rfl
  unfold compacted
  rw [← term]
  rfl

theorem next_commit {index last : Nat} (more : s.node.commitIndex < index) (ends : s.node.log.lastIndex = some last)
    (low : index ≤ last) (known : ∀ j ≤ index, ∀ e ∈ s.node.log.get j, e = chosen j) :
    s.next chosen (.commit index) =
      some { s.setNode { s.node with commitIndex := index } with settled := max s.settled index } := by
  refine if_pos ⟨more, ⟨last, ends, low⟩, fun j mem => known j ?_⟩
  have := mem_range'_1.1 mem
  omega

theorem reach_compacted : Reach (NodeRun.next noops) KeepsFile {} (compacted ⟨[noops 1001], noopLog 1001⟩) := by
  have get (j : Nat) (low : j ≤ 1000) : RaftLog.get ⟨noopLog 1001, noopLog 1001⟩ j = some (noops j) :=
    get_noopLog (by omega) _
  have last := lastIndex_noopLog 1001 (noopLog 1001)
  have cut := truncateBefore_noopLog 1000 (noopLog 1001)
  have start : Reach (NodeRun.next noops) KeepsFile {} (counted ⟨noopLog 1001, noopLog 1001⟩ 0) := by
    refine .step (reach_appended 1001) (a := .commit 1000) ⟨trivial, trivial⟩ ?_
    refine next_commit (s := appended 1001) (by decide) last (by decide) fun j low e here => ?_
    exact some.inj (here.symm.trans (get j low))
  have reached := reach_counted get start 999 (by decide)
  have run := apply_counted (get 1000 le_rfl) (by decide)
  have due := reach_apply (k := 3) run reached
  have run := apply_compacted (get 1000 le_rfl)
  rw [cut] at run
  exact reach_apply (k := 2) run due

/-- The node is restarted after the compaction and learns that all 1001 entries are committed. -/
theorem losesNothing_compacted : ∃ s : NodeRun countingFSM,
    Reach (NodeRun.next noops) KeepsFile {} s ∧ s.settled = 1001 ∧ s.node.commitIndex = 1001 ∧
    LosesNothing noops s := by
  have restarted : Reach (NodeRun.next noops) KeepsFile {}
      ((compacted ⟨[noops 1001], noopLog 1001⟩).setNode { log := ⟨noopLog 1001, noopLog 1001⟩ }) := by
    refine .step reach_compacted (a := .restart) ⟨trivial, head_noopLog 1001⟩ ?_
    rw [← reopen_noopLog 1001 [noops 1001]]
    rfl
  have covered := Reach.step (a := NodeAction.commit 1001) restarted ⟨trivial, trivial⟩
    (next_commit (Nat.zero_lt_succ 1000) (lastIndex_noopLog ..) le_rfl
      fun j low e here => some.inj (here.symm.trans (get_noopLog low _)))
  exact ⟨_, covered, rfl, rfl, losesNothing_of_keepsFile countingFSM noops _ covered⟩

/-- One more entry is appended after the compaction, and the file has the last two entries only. The
new process learns that they are committed and goes for the first. -/
theorem not_losesNothing : ¬ ∀ (F : FSM) (chosen : Nat → Entry) (s : NodeRun F),
    Reach (NodeRun.next chosen) NoTransfer {} s → LosesNothing chosen s := by
  intro claim
  have reached := reach_compacted.weaken fun _ _ ok => ok.1
  have known (j : Nat) (_ : j ≤ 1002) (e : Entry)
      (found : e ∈ RaftLog.get ⟨[noops 1001, noops 1002], [noops 1001, noops 1002]⟩ j) : e = noops j := by
    have mem := mem_of_find?_eq_some found
    have index : e.index = j := by simpa using find?_some found
    rw [mem_pair] at mem
    rcases mem with rfl | rfl <;> rw [← index] <;> rfl
  obtain ⟨s, later, phase, found⟩ : ∃ s, Reach (NodeRun.next noops) NoTransfer {} s ∧
      s.node.phase = .picked 1 ∧ s.node.log.get 1 = none := by
    have restarted : Reach (NodeRun.next noops) NoTransfer {} ((compacted ⟨[noops 1001], noopLog 1001⟩).setNode
        { log := ⟨[noops 1001, noops 1002], [noops 1001, noops 1002]⟩ }) :=
      .step (a := .restart) (.step (a := .append (noops 1002)) reached trivial
        (next_append rfl rfl fun _ => rfl)) trivial rfl
    have covered := Reach.step (a := NodeAction.commit 1002) restarted trivial
      (next_commit (Nat.zero_lt_succ 1001) (show _ = some 1002 from rfl) le_rfl known)
    exact ⟨_, .step (a := NodeAction.apply) covered trivial rfl, rfl, rfl⟩
  exact (claim countingFSM noops s later).1 1 phase found

end NodeRun

end TransactionManager.Raft
