import TransactionManager.Raft.Election
import TransactionManager.Raft.Sound

/-!
# Log matching

Leaders append to their own log, and a follower takes over a piece of a leader's log behind an
entry that it shares with it. As long as only leaders append, and only the last entry of a
message is in conflict with the log that receives it, all logs are sound and so match. The
source keeps to neither: `Propose` tests the role before it takes the lock, and the append loop
cuts the log at a conflicting entry without storing that entry.
-/

namespace TransactionManager.Raft
open Lib List Function Option Cluster RaftLog Node

variable {F : FSM}

structure NodeLog (g : LeaderLogs) (n : Node F) : Prop where
  sound : Sound g n.log.entries
  file : n.log.file = n.log.entries
  bound : ∀ e ∈ n.log.entries, e.term ≤ n.term
  whole : n.snapshotIndex = 0
  plain : n.snapshotData = none

/-- The entries of a request are the end of a leader's log and its previous entry is in that
log. A leader that believes its peer ahead of itself sends nothing behind no entry. -/
def Slice (log : List Entry) (args : AppendEntriesArgs) : Prop :=
  (∃ ℓ, ℓ <+: log ∧ args.prevLogIndex < ℓ.length ∧ args.entries = ℓ.drop (args.prevLogIndex + 1) ∧
    (args.prevLogIndex = 0 ∨ ∃ e, ℓ[args.prevLogIndex]? = some e ∧ e.term = args.prevLogTerm)) ∨
  args.entries = [] ∧ 0 < args.prevLogIndex ∧ args.prevLogTerm = 0

/-- What the logs of the leaders have to do with the cluster. -/
structure Matching (g : LeaderLogs) (s : Cluster F) : Prop where
  node : ∀ id, NodeLog g (s.nodes id)
  zero : g 0 = [dummy]
  logs : ∀ t, g t ≠ [] → Sound g (g t)
  terms : ∀ t, ∀ e ∈ g t, e.term ≤ t
  elected : ∀ t, 0 < t → g t ≠ [] → ∃ id, .elected id t ∈ s.history
  past : ∀ id t, .elected id t ∈ s.history → 0 < t ∧ t ≤ (s.nodes id).term
  candidate : ∀ id, (s.nodes id).role = .candidate → 0 < (s.nodes id).term ∧ .elected id (s.nodes id).term ∉ s.history
  leader : ∀ id, (s.nodes id).role = .leader →
    .elected id (s.nodes id).term ∈ s.history ∧ (s.nodes id).log.entries = g (s.nodes id).term
  sent : ∀ call ∈ s.calls, ∀ args, call.request = .append args →
    .elected call.src args.term ∈ s.history ∧ call.dst ≠ call.src ∧ Slice (g args.term) args
  whole : ∀ call ∈ s.calls, ∀ args, call.request ≠ .install args

section
variable {m : Membership} {votes : Votes} {g g' : LeaderLogs} {s s' : Cluster F} {n n' : Node F}
  {args : AppendEntriesArgs} {id : NodeID} {call : Call F} {last : Nat}

theorem NodeLog.mono (log : NodeLog g n) (grows : ∀ t, g t <+: g' t) : NodeLog g' n :=
  ⟨log.sound.mono grows, log.file, log.bound, log.whole, log.plain⟩

theorem NodeLog.of_same (log : NodeLog g n) (same : n'.log = n.log) (later : n.term ≤ n'.term)
    (whole : n'.snapshotIndex = n.snapshotIndex) (plain : n'.snapshotData = n.snapshotData) : NodeLog g n' where
  sound := same ▸ log.sound
  file := same ▸ log.file
  bound e mem := (log.bound e (same ▸ mem)).trans later
  whole := whole.trans log.whole
  plain := plain.trans log.plain

theorem NodeLog.restart (log : NodeLog g n) (saved : n.saved.currentTerm = n.term) : NodeLog g n.restart := by
  have reopened : n.restart.log = ⟨n.log.entries, n.log.entries⟩ := by
    show n.log.reopen = _
    unfold reopen
    rw [log.file, if_neg log.sound.ne]
  refine ⟨?_, ?_, ?_, rfl, rfl⟩
  · rw [reopened]
    exact log.sound
  · rw [reopened]
  · rw [reopened]
    show ∀ e ∈ n.log.entries, e.term ≤ n.saved.currentTerm
    rw [saved]
    exact log.bound

theorem Slice.mono {log log' : List Entry} (slice : Slice log args) (grows : log <+: log') : Slice log' args := by
  rcases slice with ⟨ℓ, part, rest⟩ | none
  · exact .inl ⟨ℓ, part.trans grows, rest⟩
  · exact .inr none

/-- At the start all logs hold the dummy. -/
theorem Matching.start : ∃ g, Matching g ({} : Cluster F) := by
  let g : LeaderLogs := fun t => if t = 0 then [dummy] else []
  have zero : g 0 = [dummy] := if_pos rfl
  have only {t : Nat} (some : g t ≠ []) : t = 0 := by
    by_contra later
    exact some (if_neg later)
  have sound : Sound g [dummy] := by
    have first {k : Nat} {e : Entry} (here : [dummy][k]? = some e) : k = 0 ∧ e = dummy := by
      obtain ⟨low, rfl⟩ := List.getElem?_eq_some_iff.1 here
      rw [length_singleton] at low
      exact ⟨by omega, by simp⟩
    refine ⟨rfl, fun k e here => ?_, fun k e here => ?_⟩
    · obtain ⟨rfl, rfl⟩ := first here
      rfl
    · obtain ⟨rfl, rfl⟩ := first here
      exact zero ▸ prefix_refl _
  refine ⟨g, ⟨fun _ => ⟨sound, rfl, ?_, rfl, rfl⟩, zero, ?_, ?_, ?_, ?_, ?_, ?_, ?_, ?_⟩⟩
  · intro e mem
    rw [mem_singleton.1 mem]
    exact le_rfl
  · intro t some
    rw [only some, zero]
    exact sound
  · intro t e mem
    have t0 := only (ne_nil_of_mem mem)
    rw [t0, zero] at mem
    rw [mem_singleton.1 mem, t0]
    exact le_rfl
  · intro t pos some
    exact absurd (only some) pos.ne'
  · nofun
  · nofun
  · nofun
  · nofun
  · nofun

section
variable (inv : Matching g s)
include inv

namespace Matching

theorem set (log : NodeLog g n') (later : (s.nodes id).term ≤ n'.term)
    (candidate : n'.role = .candidate → 0 < n'.term ∧ .elected id n'.term ∉ s.history)
    (leader : n'.role = .leader → .elected id n'.term ∈ s.history ∧ n'.log.entries = g n'.term) :
    Matching g (s.set id n') := by
  refine { inv with node := fun v => ?_, past := fun v t mem => ?_, candidate := fun v => ?_, leader := fun v => ?_ }
  · exact nodes_set_elim v log fun _ => inv.node v
  · obtain ⟨pos, past⟩ := inv.past v t mem
    exact ⟨pos, past.trans (nodes_set_elim (motive := fun v n => (s.nodes v).term ≤ n.term) v later
      fun _ => le_rfl)⟩
  · exact nodes_set_elim v candidate fun _ => inv.candidate v
  · exact nodes_set_elim v leader fun _ => inv.leader v

theorem set_same (term : n'.term = (s.nodes id).term) (role : n'.role = (s.nodes id).role)
    (log : n'.log = (s.nodes id).log) (whole : n'.snapshotIndex = (s.nodes id).snapshotIndex)
    (plain : n'.snapshotData = (s.nodes id).snapshotData) : Matching g (s.set id n') := by
  refine inv.set ((inv.node id).of_same log term.ge whole plain) term.ge ?_ ?_
  · rw [term, role]
    exact inv.candidate id
  · rw [term, role, log]
    exact inv.leader id

theorem set_follower (log : NodeLog g n')
    (later : (s.nodes id).term ≤ n'.term) (role : n'.role = .follower) : Matching g (s.set id n') := by
  refine inv.set log later ?_ ?_ <;>
  · rw [role]
    nofun

theorem answer (a : Answer) : Matching g (s.answer a) :=
  ⟨inv.node, inv.zero, inv.logs, inv.terms, inv.elected, inv.past, inv.candidate, inv.leader, inv.sent, inv.whole⟩

theorem pass (id : NodeID) (e : Entry) : Matching g (s.record (.applied id e)) := by
  have same (id' : NodeID) (t : Nat) :
      .elected id' t ∈ (s.record (.applied id e)).history ↔ .elected id' t ∈ s.history := by
    show _ ∈ s.history ++ _ ↔ _
    simp
  refine ⟨inv.node, inv.zero, inv.logs, inv.terms, ?_, ?_, ?_, ?_, ?_, inv.whole⟩ <;> simp only [same]
  · exact inv.elected
  · exact inv.past
  · exact inv.candidate
  · exact inv.leader
  · exact inv.sent

theorem send {calls : List (Call F)} (sent : ∀ call ∈ calls, ∀ args, call.request = .append args →
      .elected call.src args.term ∈ s.history ∧ call.dst ≠ call.src ∧ Slice (g args.term) args)
    (whole : ∀ call ∈ calls, ∀ args, call.request ≠ .install args) : Matching g (s.send id calls) := by
  have waits : Matching g (s.set id { s.nodes id with
      waiting := (s.nodes id).waiting ++ List.range' s.calls.length calls.length }) :=
    inv.set_same rfl rfl rfl rfl rfl
  exact ⟨waits.node, inv.zero, inv.logs, inv.terms, inv.elected, waits.past, waits.candidate,
    waits.leader, forall_mem_append.2 ⟨inv.sent, sent⟩, forall_mem_append.2 ⟨inv.whole, whole⟩⟩

/-- The leader of a term appends to its log; it may be elected with that. -/
theorem extend {e : Entry} (nodes : s'.nodes = (s.set id n').nodes) (calls : s'.calls = s.calls)
    (keeps : ∀ x ∈ s.history, x ∈ s'.history)
    (only : ∀ id' t, .elected id' t ∈ s'.history → .elected id' t ∈ s.history ∨ id' = id ∧ t = (s.nodes id).term)
    (elected : .elected id (s.nodes id).term ∈ s'.history) (pos : 0 < (s.nodes id).term)
    (alone : ∀ other, (s.nodes other).role = .leader → (s.nodes other).term = (s.nodes id).term → other = id)
    (before : g (s.nodes id).term <+: (s.nodes id).log.entries) (index : e.index = (s.nodes id).log.entries.length)
    (own : e.term = (s.nodes id).term) (log : n'.log = (s.nodes id).log.append e) (term : n'.term = (s.nodes id).term)
    (role : n'.role = .leader) (whole : n'.snapshotIndex = (s.nodes id).snapshotIndex)
    (plain : n'.snapshotData = (s.nodes id).snapshotData) :
    Matching (update g (s.nodes id).term ((s.nodes id).log.entries ++ [e])) s' := by
  generalize at' : (s.nodes id).term = t at *
  generalize old : (s.nodes id).log.entries = ℓ at *
  have here : s'.nodes id = n' := by rw [nodes, nodes_set_self]
  have elsewhere {other : NodeID} (ne : other ≠ id) : s'.nodes other = s.nodes other := by
    rw [nodes, nodes_set_of_ne _ _ ne]
  have now : update g t (ℓ ++ [e]) t = ℓ ++ [e] := update_self ..
  have rest {t' : Nat} (ne : t' ≠ t) : update g t (ℓ ++ [e]) t' = g t' := update_of_ne ne ..
  have grows : ∀ t', g t' <+: update g t (ℓ ++ [e]) t' := by
    intro t'
    by_cases eq : t' = t
    · rw [eq, now]
      exact before.trans (prefix_append ..)
    · rw [rest eq]
  have entries : n'.log.entries = ℓ ++ [e] := by
    rw [log, ← old]
    rfl
  have log' := inv.node id
  have sound : Sound (update g t (ℓ ++ [e])) (ℓ ++ [e]) := (old ▸ log'.sound).append grows index (own ▸ now)
  have terms : ∀ x ∈ ℓ ++ [e], x.term ≤ t := by
    intro x mem
    rcases mem_append.1 mem with mem | mem
    · exact at' ▸ log'.bound x (old ▸ mem)
    · rw [mem_singleton.1 mem, own]
  constructor
  case node =>
    intro other
    by_cases eq : other = id
    · rw [eq, here]
      refine ⟨entries ▸ sound, ?_, ?_, whole.trans log'.whole, plain.trans log'.plain⟩
      · rw [log]
        rfl
      · rw [entries, term]
        exact terms
    · rw [elsewhere eq]
      exact (inv.node other).mono grows
  case zero => rw [rest pos.ne, inv.zero]
  case logs =>
    intro t' some
    by_cases eq : t' = t
    · rw [eq, now]
      exact sound
    · rw [rest eq] at some ⊢
      exact (inv.logs t' some).mono grows
  case terms =>
    intro t'
    by_cases eq : t' = t
    · rw [eq, now]
      exact terms
    · rw [rest eq]
      exact inv.terms t'
  case elected =>
    intro t' pos some
    by_cases eq : t' = t
    · exact ⟨id, eq ▸ elected⟩
    · rw [rest eq] at some
      obtain ⟨id', mem⟩ := inv.elected t' pos some
      exact ⟨id', keeps _ mem⟩
  case past =>
    intro other t' mem
    by_cases eq : other = id
    · rw [eq, here, term]
      rcases only _ _ mem with old | ⟨-, rfl⟩
      · rw [eq] at old
        exact at' ▸ inv.past id t' old
      · exact ⟨pos, le_rfl⟩
    · rw [elsewhere eq]
      rcases only _ _ mem with old | ⟨same, -⟩
      · exact inv.past other t' old
      · exact absurd same eq
  case candidate =>
    intro other candidate
    by_cases eq : other = id
    · rw [eq, here, role] at candidate
      cases candidate
    rw [elsewhere eq] at candidate ⊢
    obtain ⟨pos, fresh⟩ := inv.candidate other candidate
    refine ⟨pos, fun mem => ?_⟩
    rcases only _ _ mem with old | ⟨same, -⟩
    · exact fresh old
    · exact eq same
  case leader =>
    intro other leads
    by_cases eq : other = id
    · rw [eq, here, term, entries, now]
      exact ⟨elected, rfl⟩
    · rw [elsewhere eq] at leads ⊢
      obtain ⟨mem, own⟩ := inv.leader other leads
      rw [rest fun same => eq (alone other leads same)]
      exact ⟨keeps _ mem, own⟩
  case sent =>
    intro call mem args asked
    obtain ⟨elected, ne, slice⟩ := inv.sent call (calls ▸ mem) args asked
    exact ⟨keeps _ elected, ne, slice.mono (grows _)⟩
  case whole =>
    rw [calls]
    exact inv.whole

end Matching

omit inv in
theorem exists_of_any {α : Type} {o : Option α} {p : α → Bool} (any : o.any p = true) :
    ∃ a, o = some a ∧ p a = true := by
  cases o with
  | none => cases any
  | some a => exact ⟨a, rfl, any⟩

section
variable (made : call ∈ s.calls) (asked : call.request = .append args) (log : NodeLog g n)
include made asked log

/-- The log that a request finds is the leader's up to the entries of the request. -/
theorem Matching.agree (prev : n.prevMatches args = true) :
    ∃ ℓ, ℓ <+: g args.term ∧ Sound g ℓ ∧ args.prevLogIndex < ℓ.length ∧
      args.prevLogIndex < n.log.entries.length ∧ args.entries = ℓ.drop (args.prevLogIndex + 1) ∧
      n.log.entries.take (args.prevLogIndex + 1) = ℓ.take (args.prevLogIndex + 1) := by
  obtain ⟨-, -, slice⟩ := inv.sent call made args asked
  unfold prevMatches at prev
  rw [get_eq log.sound] at prev
  have prev := of_decide_eq_true prev
  rcases slice with ⟨ℓ, part, long, entries, place⟩ | ⟨-, pos, zero⟩
  · have some : ℓ ≠ [] := length_pos_iff.1 (by omega)
    have sound : Sound g ℓ := (inv.logs _ fun empty => some (prefix_nil.1 (empty ▸ part))).of_isPrefix part some
    refine ⟨ℓ, part, sound, long, ?_⟩
    rcases Nat.eq_zero_or_pos args.prevLogIndex with first | pos
    · have one := log.sound.first
      refine ⟨?_, entries, ?_⟩
      · rw [first]
        exact (List.getElem?_eq_some_iff.1 one).1
      · rw [first]
        exact log.sound.take_eq sound one sound.first rfl
    · obtain ⟨e, at', same⟩ := place.resolve_left pos.ne'
      have found := prev.resolve_left pos.ne'
      obtain ⟨e', here, same'⟩ := exists_of_any found
      exact ⟨(List.getElem?_eq_some_iff.1 here).1, entries,
        log.sound.take_eq sound here at' ((of_decide_eq_true same').trans same.symm)⟩
  · -- the entry before an empty request of term 0 would be the dummy
    obtain ⟨e, here, same⟩ := exists_of_any (prev.resolve_left pos.ne')
    have part := log.sound.own _ e here
    rw [(of_decide_eq_true same).trans zero, inv.zero] at part
    have short := part.length_le
    have long := (List.getElem?_eq_some_iff.1 here).1
    rw [length_take, length_singleton] at short
    omega

theorem Matching.stored (same : n.term = args.term) (prev : n.prevMatches args = true)
    (clean : ∀ e ∈ args.entries.dropLast, n.log.conflicts e = false) : NodeLog g (n.store args.entries) := by
  obtain ⟨ℓ, part, sound, long, long', entries, agree⟩ := inv.agree made asked log prev
  have result : (n.store args.entries).log.entries = n.log.entries ∨
      (n.store args.entries).log.entries <+: ℓ ∧ (n.store args.entries).log.entries ≠ [] := by
    rw [entries] at clean ⊢
    rcases storeEntries_spec log.sound sound long long' (Nat.succ_pos _) agree clean with
      keep | ⟨all, -⟩ | ⟨-, k, e, e', low, -, at', -, cut⟩
    · exact .inl keep.1
    · exact .inr ⟨⟨[], (append_nil _).trans all⟩, fun empty => sound.ne (all.symm.trans empty)⟩
    refine .inr ⟨⟨ℓ.drop k, ?_⟩, fun empty => ?_⟩
    · rw [show (n.store (ℓ.drop (args.prevLogIndex + 1))).log.entries = ℓ.take k from cut, take_append_drop]
    have none := congrArg List.length (cut.symm.trans empty)
    rw [length_take, length_nil] at none
    omega
  refine ⟨?_, file_storeEntries _ log.file, ?_, log.whole, log.plain⟩
  · rcases result with keep | ⟨piece, some⟩
    · rw [keep]
      exact log.sound
    · exact sound.of_isPrefix piece some
  · show ∀ e ∈ (n.store args.entries).log.entries, e.term ≤ n.term
    rcases result with keep | ⟨piece, some⟩
    · rw [keep]
      exact log.bound
    · rw [same]
      exact fun e mem => inv.terms _ e (part.subset (piece.subset mem))

end

section
variable (elections : Elections m votes s)
include elections

namespace Matching

/-- A request of its own term does not reach a leader. -/
theorem not_leader (made : call ∈ s.calls) (asked : call.request = .append args)
    (same : (s.nodes call.dst).term = args.term) : (s.nodes call.dst).role ≠ .leader := by
  intro leads
  obtain ⟨elected, ne, -⟩ := inv.sent call made args asked
  have own := (inv.leader call.dst leads).1
  rw [same] at own
  exact ne (elections.safe _ _ _ own elected)

section
variable (candidate : (s.nodes id).role = .candidate) (enough : majority (m.peers id) ≤ (s.nodes id).votesReceived)
include candidate enough

/-- Before a candidate wins there is no leader of its term. -/
theorem first (other : NodeID) : .elected other (s.nodes id).term ∉ s.history := by
  intro mem
  obtain ⟨voters, majority, counts⟩ := elections.majority candidate enough
  obtain ⟨voters', majority', counts'⟩ := elections.elected other _ mem
  obtain ⟨v, one, two⟩ := majority.meets majority'
  have same : some id = some other := (counts v one).symm.trans (counts' v two)
  rw [← some.inj same] at mem
  exact (inv.candidate id candidate).2 mem

theorem win (index : (s.nodes id).log.lastIndex = some last) :
    g (s.nodes id).term = [] ∧
    Matching (update g (s.nodes id).term ((s.nodes id).log.entries ++
        [{ index := last + 1, term := (s.nodes id).term }]))
      ((s.set id ((s.nodes id).lead (m.peers id) last)).record (.elected id (s.nodes id).term)) := by
  have pos := (inv.candidate id candidate).1
  have none := inv.first elections candidate enough
  have empty : g (s.nodes id).term = [] := by
    by_contra some
    obtain ⟨other, mem⟩ := inv.elected _ pos some
    exact none other mem
  refine ⟨empty, inv.extend rfl rfl (fun x mem => mem_append_left _ mem) ?_
    (mem_append_right _ (mem_singleton.2 rfl)) pos ?_ (empty ▸ List.nil_prefix)
    (lastIndex_eq (inv.node id).sound index).symm rfl rfl rfl rfl rfl rfl⟩
  · intro id' t mem
    rcases mem_append.1 mem with old | new
    · exact .inl old
    · cases mem_singleton.1 new
      exact .inr ⟨rfl, rfl⟩
  · intro other leads same
    exact absurd (same ▸ (inv.leader other leads).1) (none other)

end

theorem propose
    (cmd : Command) (leads : (s.nodes id).role = .leader) (index : (s.nodes id).log.lastIndex = some last) :
    Matching (update g (s.nodes id).term ((s.nodes id).log.entries ++ [⟨last + 1, (s.nodes id).term, cmd⟩]))
      (s.set id ((s.nodes id).extend ⟨last + 1, (s.nodes id).term, cmd⟩)) := by
  obtain ⟨elected, own⟩ := inv.leader id leads
  refine inv.extend rfl rfl (fun x mem => mem) (fun _ _ mem => .inl mem) elected (inv.past _ _ elected).1 ?_
    (own ▸ prefix_refl _) (lastIndex_eq (inv.node id).sound index).symm rfl rfl rfl
    leads rfl rfl
  intro other leads' same
  exact elections.safe _ _ _ (same ▸ (inv.leader other leads').1) elected

omit elections in
/-- What a leader sends is a piece of its log. -/
theorem slice {nextIdx : Nat} (leads : (s.nodes id).role = .leader)
    (newer : (s.nodes id).snapshotIndex < nextIdx) (index : (s.nodes id).log.lastIndex = some last) :
    Slice (g (s.nodes id).term) ((s.nodes id).appendArgs id nextIdx last) := by
  have log := inv.node id
  have own := (inv.leader id leads).2
  have length := lastIndex_eq log.sound index
  have entries : ((s.nodes id).appendArgs id nextIdx last).entries = (s.nodes id).log.entries.drop nextIdx :=
    range_eq log.sound index nextIdx
  have next : nextIdx = nextIdx - 1 + 1 := by omega
  by_cases long : nextIdx ≤ (s.nodes id).log.entries.length
  · refine .inl ⟨(s.nodes id).log.entries, own ▸ prefix_refl _, ?_, ?_, ?_⟩
    · show nextIdx - 1 < _
      omega
    · show _ = List.drop (nextIdx - 1 + 1) _
      rw [entries, ← next]
    rcases Nat.eq_zero_or_pos (nextIdx - 1) with zero | pos
    · exact .inl zero
    · have at' := getElem?_eq_getElem (show nextIdx - 1 < (s.nodes id).log.entries.length by omega)
      refine .inr ⟨_, at', ?_⟩
      unfold appendArgs
      simp only [get_eq log.sound, at', if_neg pos.ne']
  · have pos : 0 < nextIdx - 1 := by
      have := length_pos_iff.2 log.sound.ne
      omega
    refine .inr ⟨?_, pos, ?_⟩
    · rw [entries, drop_eq_nil_iff]
      omega
    · have none : (s.nodes id).log.entries[nextIdx - 1]? = none := getElem?_eq_none_iff.2 (by omega)
      unfold appendArgs
      simp only [get_eq log.sound, none, if_neg pos.ne', log.whole]

/-- The moves without votes and new entries, of runs in which only last entries conflict and no
log is compacted. -/
theorem silent {L : Law} (clean : L.clean) (plain : L.plain) (move : Silent L m s s') : Matching g s' := by
  have back (id : NodeID) : NodeLog g (s.nodes id).restart :=
    (inv.node id).restart (congrArg PersistentState.currentTerm (elections.ballot id).saved)
  have term (id : NodeID) : (s.nodes id).restart.term = (s.nodes id).term :=
    congrArg PersistentState.currentTerm (elections.ballot id).saved
  cases move with
  | quiet id n' quiet =>
    exact inv.set_same quiet.term quiet.role quiet.log quiet.snapshotIndex quiet.snapshotData
  | stepDown id term later =>
    exact inv.set_follower ((inv.node id).of_same rfl later.le rfl rfl) later.le rfl
  | yield id =>
    exact inv.set_follower ((inv.node id).of_same rfl le_rfl rfl rfl) le_rfl rfl
  | restart id => exact inv.set_follower (back id) (term id).ge rfl
  | answer a => exact inv.answer a
  | winCrash id _ _ panic => exact absurd panic (inv.node id).sound.ne
  | send id peer _ _ member leader newer index =>
    refine inv.send ?_ ?_
    · intro call mem args asked
      cases mem_singleton.1 mem
      cases asked
      refine ⟨(inv.leader id leader).1, ?_, inv.slice leader newer index⟩
      intro (same : peer = id)
      exact m.nodup.not_mem_erase (same ▸ member)
    · intro call mem args asked
      cases mem_singleton.1 mem
      cases asked
  | sendSnapshot id _ _ _ data => exact absurd (inv.node id).plain data
  | store _ call _ _ made asked same follows prev only =>
    have mem := mem_of_getElem? made
    have stored := inv.stored mem asked (inv.node call.dst) same prev (only clean)
    refine Matching.answer (inv.set ?_ ?_ ?_ ?_) _
    · exact stored.of_same rfl le_rfl rfl rfl
    · exact le_rfl
    · exact fun candidate => absurd candidate follows
    · exact fun leader => absurd leader (inv.not_leader elections mem asked same)
  | storeCrash _ call _ made asked same _ prev only =>
    have mem := mem_of_getElem? made
    have stored := inv.stored mem asked (inv.node call.dst) same prev (only clean)
    exact inv.set_follower (stored.restart (congrArg PersistentState.currentTerm (elections.ballot call.dst).saved))
      (term call.dst).ge rfl
  | pass id _ e =>
    refine Matching.pass ?_ id e
    exact inv.set_same rfl rfl rfl rfl rfl
  | compact id data not => exact absurd plain not
  | finishInstall _ _ args _ asked =>
    obtain ⟨call, made, eq⟩ := map_eq_some_iff.1 asked
    exact absurd eq (inv.whole call (mem_of_getElem? made) args)
  | _ => exact inv.set_same rfl rfl rfl rfl rfl

omit elections in
theorem campaign (id : NodeID) (lastIndex lastTerm : Nat) (ran : s' = s.set id ((s.nodes id).campaign id)) :
    Matching g (s'.send id (s'.ballots m id lastIndex lastTerm)) := by
  have runs : Matching g s' := by
    rw [ran]
    refine inv.set ((inv.node id).of_same rfl (Nat.le_succ _) rfl rfl) (Nat.le_succ _)
      (fun _ => ⟨Nat.succ_pos _, fun mem => ?_⟩) (nofun)
    exact absurd (inv.past id _ mem).2 (Nat.not_succ_le_self _)
  refine runs.send ?_ ?_
  · intro call mem args asked
    obtain ⟨peer, -, rfl⟩ := mem_map.1 mem
    cases asked
  · intro call mem args asked
    obtain ⟨peer, -, rfl⟩ := mem_map.1 mem
    cases asked

omit elections in
theorem grant (id candidate : NodeID) (a : Answer) :
    Matching g ((s.set id ((s.nodes id).vote candidate)).answer a) := by
  refine Matching.answer ?_ a
  exact inv.set_same rfl rfl rfl rfl rfl

/-- The moves of runs in which, besides, only leaders append. -/
theorem move {L : Law} (leads : L.leads) (clean : L.clean) (plain : L.plain) (move : Move L m s s') :
    ∃ g', Matching g' s' := by
  cases move with
  | silent move => exact ⟨g, inv.silent elections clean plain move⟩
  | campaign id lastIndex lastTerm _ _ _ _ _ ran =>
    exact ⟨g, inv.campaign id lastIndex lastTerm ran⟩
  | campaignCrash id _ _ panic => exact absurd panic (inv.node id).sound.ne
  | grant =>
    exact ⟨g, inv.grant ..⟩
  | win id last candidate enough index => exact ⟨_, (inv.win elections candidate enough index).2⟩
  | propose id cmd last leader index => exact ⟨_, inv.propose elections cmd (leader leads) index⟩

end Matching

end

end

end

/-- Two logs with an entry of one index and term have the same command there and agree on every smaller index. -/
def LogMatching (s : Cluster F) : Prop := ∀ a b, ∀ x ∈ (s.nodes a).log.entries, ∀ y ∈ (s.nodes b).log.entries,
    x.index = y.index → x.term = y.term →
    x.command = y.command ∧ ∀ j < x.index, (s.nodes a).log.get j = (s.nodes b).log.get j

theorem Matching.logMatching {g : LeaderLogs} {s : Cluster F} (inv : Matching g s) : LogMatching s := by
  intro a b x mem y mem' index term
  have sound := (inv.node a).sound
  have sound' := (inv.node b).sound
  obtain ⟨k, here⟩ := mem_iff_getElem?.1 mem
  obtain ⟨k', here'⟩ := mem_iff_getElem?.1 mem'
  have same : k = k' := by rw [← sound.index k x here, ← sound'.index k' y here', index]
  subst same
  have agree := sound.take_eq sound' here here' term
  have at' {j : Nat} (low : j ≤ k) : (s.nodes a).log.entries[j]? = (s.nodes b).log.entries[j]? := by
    have eq := congrArg (·[j]?) agree
    simpa only [getElem?_take, if_pos (Nat.lt_succ_of_le low)] using eq
  constructor
  · have eq := at' le_rfl
    rw [here, here'] at eq
    exact congrArg Entry.command (some.inj eq)
  · intro j low
    rw [get_eq sound, get_eq sound']
    exact at' ((sound.index k x here) ▸ low.le)

/-- Only leaders append, only the last entry of an accepted message meets a conflict, and no log is compacted. -/
def Orderly (s : Cluster F) (a : Action) : Prop := ProposesAsLeader s a ∧ ConflictsLast s a ∧ NoCompaction s a

instance (s : Cluster F) (a : Action) : Decidable (ProposesAsLeader s a) := by
  unfold ProposesAsLeader
  cases_type Action <;> infer_instance

instance (s : Cluster F) (a : Action) : Decidable (NoCompaction s a) := by
  unfold NoCompaction
  repeat' split
  all_goals infer_instance

instance (s : Cluster F) (a : Action) : Decidable (ConflictsLast s a) := by
  unfold ConflictsLast
  repeat' split
  all_goals infer_instance

instance (s : Cluster F) (a : Action) : Decidable (Orderly s a) := inferInstanceAs (Decidable (_ ∧ _))

def SoundLogs (m : Membership) (s : Cluster F) : Prop := ∃ votes g, Elections m votes s ∧ Matching g s

/-- In every run whose steps are orderly the logs match. -/
theorem logMatching_of_orderly (F : FSM) (m : Membership) (s : Cluster F)
    (reached : Reach (Cluster.next m) Orderly {} s) : LogMatching s := by
  have sound : SoundLogs m s := by
    refine reached.invariant ?_ fun s a s' inv ok taken => ?_
    · obtain ⟨g, logs⟩ := Matching.start (F := F)
      exact ⟨_, g, Elections.start m, logs⟩
    have moves := moves_of_next (L := ⟨True, True, False, True, fun _ => True⟩) (fun _ => ok.1) (fun _ => ok.2.1)
      False.elim (fun _ => ok.2.2) (fun _ _ => trivial) taken
    refine moves.invariant ?_ inv
    rintro s s' ⟨votes, g, elections, logs⟩ move
    obtain ⟨votes', elections'⟩ := elections.move move
    obtain ⟨g', logs'⟩ := logs.move elections trivial trivial trivial move
    exact ⟨votes', g', elections', logs'⟩
  obtain ⟨_, _, -, logs⟩ := sound
  exact logs.logMatching

/-- The leaders of terms 1 and 2 both start at index 1. The second one's entry meets the first one's, which is cut,
and is stored when the request comes again. -/
theorem logMatching_second_copy : ∃ s : Cluster emptyFSM, Reach (Cluster.next trio) Orderly {} s ∧
    (s.nodes [97]).log.entries = [dummy, { index := 1, term := 2 }] ∧ LogMatching s := by
  exact Reach.exists_and [.timeout [97], .deliver 0, .receive 0 0, .timeout [98], .deliver 3, .receive 3 1,
      .replicate [98] [97], .deliver 4, .deliver 4]
    (by decide) fun s reached _ => logMatching_of_orderly emptyFSM trio s reached

/-- `a` leads term 1 and a client's `Propose` passes the test of the role. `b` becomes leader of
term 2 and `a` follows it; then the proposal is appended on `a` in term 2. -/
theorem not_logMatching : ¬ ∀ (F : FSM) (m : Membership) (s : Cluster F),
    Reach (Cluster.next m) NoCompaction {} s → LogMatching s := by
  intro claim
  let x : Command := { type := .commit, txnID := 1 }
  let y : Command := { type := .abort, txnID := 1 }
  obtain ⟨s, reached, one, two⟩ := Reach.exists_such (Cluster.next (F := emptyFSM) trio) NoCompaction {}
    [.timeout [97], .deliver 0, .receive 0 0, .proposeTest [97] x, .timeout [98], .deliver 3,
      .receive 3 1, .deliver 2, .proposeAppend [97] 0, .proposeTest [98] y, .proposeAppend [98] 0]
    (fun s => ⟨2, 2, x⟩ ∈ (s.nodes [97]).log.entries ∧ ⟨2, 2, y⟩ ∈ (s.nodes [98]).log.entries) (by decide)
  have same := (claim emptyFSM trio s reached [97] [98] _ one _ two rfl rfl).1
  exact absurd same (by decide)

end TransactionManager.Raft
