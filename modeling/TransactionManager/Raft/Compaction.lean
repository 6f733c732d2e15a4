import TransactionManager.Raft.Repair

/-!
# The log after a compaction

`TruncateBefore` takes the entry of the snapshot itself out of the log, and every entry if none is
newer. `LastIndex` and `LastTerm` look at the last entry without asking for one, and
`handleAppendEntries` looks for the entry before the first new one in the log only, not at the
snapshot.
-/

namespace TransactionManager.Raft
open Lib List Option RaftLog

variable {F : FSM}

namespace Node
variable {n n' leader follower : Node F}

/-! ## The end of the log -/

/-- What is done to the log of a node. `apply` moves `lastApplied`, where `triggerSnapshot` cuts. -/
inductive LogAction (F : FSM) where
  | append (e : Entry)
  | truncateAfter (index : Nat)
  | apply
  | triggerSnapshot (data : F.Data)
  | handleInstallSnapshot (args : InstallSnapshotArgs F)

/-- One step; only an entry of the log is applied. -/
def logStep (n : Node F) : LogAction F → Option (Node F)
  | .append e => some (n.extend e)
  | .truncateAfter index => some { n with log := n.log.truncateAfter index }
  | .apply => (n.log.get (n.lastApplied + 1)).map fun _ => { n with lastApplied := n.lastApplied + 1 }
  | .triggerSnapshot data => some (n.compact data)
  | .handleInstallSnapshot args => some (n.finishInstall args)

/-- There is a last entry, not before the snapshot, and the next one follows on it. -/
def EndDefined (n : Node F) : Prop :=
  ∃ last, n.log.lastIndex = some last ∧ n.log.lastTerm ≠ none ∧ n.snapshotIndex < last + 1 ∧
    (∀ cmd, n.proposeAppend cmd = .done (n.extend ⟨last + 1, n.term, cmd⟩) ()) ∧
    ∀ peers, n.becomeLeader peers = .done (n.lead peers last) ()

/-- The condition on a step: a snapshot ends before `LastIndex`, `TruncateAfter` does not go below the first
index of the log, and an entry is appended at the index after the last, as `Propose` and `becomeLeader` do it and
the append loop for entries that follow on the log. -/
def WithinLog (n : Node F) : LogAction F → Prop
  | .append e => ∃ last ∈ n.log.lastIndex, e.index = last + 1
  | .truncateAfter index => ∃ first ∈ n.log.entries.head?, first.index ≤ index
  | .apply => True
  | .triggerSnapshot _ => ∃ last ∈ n.log.lastIndex, n.lastApplied < last
  | .handleInstallSnapshot args => ∃ last ∈ n.log.lastIndex, args.lastIncludedIndex < last

instance (n : Node F) (a : LogAction F) : Decidable (n.WithinLog a) := by
  unfold WithinLog
  split <;> infer_instance

structure AfterSnapshot (n : Node F) : Prop where
  ne : n.log.entries ≠ []
  after : ∀ e ∈ n.log.entries, n.snapshotIndex ≤ e.index

theorem AfterSnapshot.endDefined (inv : n.AfterSnapshot) : n.EndDefined := by
  have last := getLast?_eq_some_getLast inv.ne
  have index := congrArg (Option.map Entry.index) last
  refine ⟨_, index, ?_, Nat.lt_succ_of_le (inv.after _ (getLast_mem inv.ne)), fun cmd => ?_, fun peers => ?_⟩
  · rw [lastTerm, last]
    nofun
  · rw [proposeAppend, lastIndex, index]
    rfl
  · rw [becomeLeader, lastIndex, index]
    rfl

theorem AfterSnapshot.cut {p : Entry → Prop} [DecidablePred p] (rest : ∃ e ∈ n.log.entries, p e)
    (log : n'.log.entries = n.log.entries.filter fun e => p e)
    (after : ∀ e ∈ n.log.entries, p e → n'.snapshotIndex ≤ e.index) : n'.AfterSnapshot := by
  obtain ⟨e, mem, keep⟩ := rest
  refine ⟨ne_nil_of_mem (log ▸ mem_filter.2 ⟨mem, decide_eq_true keep⟩), fun e mem => ?_⟩
  rw [log, mem_filter] at mem
  exact after e mem.1 (of_decide_eq_true mem.2)

theorem exists_of_lastIndex {last : Nat} (index : n.log.lastIndex = some last) : ∃ e ∈ n.log.entries, e.index = last := by
  obtain ⟨e, here, eq⟩ := map_eq_some_iff.1 index
  exact ⟨e, mem_of_getLast? here, eq⟩

theorem AfterSnapshot.step (inv : n.AfterSnapshot) {a : LogAction F} (within : n.WithinLog a)
    (taken : n.logStep a = some n') : n'.AfterSnapshot := by
  cases a with
  | append e =>
    cases taken
    obtain ⟨last, index, next⟩ := within
    obtain ⟨old, mem, rfl⟩ := exists_of_lastIndex index
    have after := inv.after old mem
    exact ⟨append_ne_nil_of_left_ne_nil inv.ne _,
      forall_mem_append.2 ⟨inv.after, forall_mem_singleton.2 (by show n.snapshotIndex ≤ e.index; omega)⟩⟩
  | truncateAfter =>
    cases taken
    obtain ⟨first, here, low⟩ := within
    exact .cut ⟨first, mem_of_mem_head? here, low⟩ rfl fun e mem _ => inv.after e mem
  | apply =>
    obtain ⟨-, -, rfl⟩ := map_eq_some_iff.1 taken
    exact ⟨inv.ne, inv.after⟩
  | triggerSnapshot | handleInstallSnapshot =>
    cases taken
    obtain ⟨last, index, before⟩ := within
    obtain ⟨e, mem, rfl⟩ := exists_of_lastIndex index
    exact .cut ⟨e, mem, before⟩ rfl fun _ _ later => Nat.le_of_lt later

/-- In every run in which snapshots end before `LastIndex`, `TruncateAfter` stays in the log and entries follow on
it, the end of the log is defined. -/
theorem endDefined_of_withinLog (reached : Reach logStep WithinLog {} n) : n.EndDefined := by
  have inv : n.AfterSnapshot :=
    reached.invariant ⟨cons_ne_nil dummy [], fun _ _ => Nat.zero_le _⟩ fun _ _ _ inv => inv.step
  exact inv.endDefined

/-- A snapshot of the first of two entries. -/
theorem endDefined_after_snapshot : ∃ n : Node emptyFSM, Reach logStep WithinLog {} n ∧
    n.snapshotIndex = 1 ∧ n.EndDefined := by
  exact Reach.exists_and [.append ⟨1, 1, {}⟩, .append ⟨2, 1, {}⟩, .apply, .triggerSnapshot ()]
    (by decide) fun n reached _ => endDefined_of_withinLog reached

/-- A snapshot of the last entry empties the log. -/
theorem not_endDefined : ∃ n : Node emptyFSM, Reach logStep AnyStep {} n ∧ ¬ n.EndDefined := by
  obtain ⟨n, reached, seen⟩ := Reach.exists_such (logStep (F := emptyFSM)) AnyStep {}
    [.append ⟨1, 1, {}⟩, .apply, .triggerSnapshot ()] (fun n => n.log.lastIndex = none) (by decide)
  refine ⟨n, reached, ?_⟩
  rintro ⟨last, index, -⟩
  rw [seen] at index
  cases index

/-! ## The next request -/

/-- `handleInstallSnapshot` without anything in between. -/
def handleInstallSnapshot (n : Node F) (args : InstallSnapshotArgs F) : Node F × InstallSnapshotReply :=
  if args.term < n.term then (n, ⟨n.term⟩)
  else
    let n := n.catchUp args.term
    let restored := F.restore args.data n.fsm
    let n := { n with fsm := restored.2 }
    (if restored.1 then n.finishInstall args else n, ⟨n.term⟩)

variable {id peer : NodeID} {args : InstallSnapshotArgs F} {request : AppendEntriesArgs}

theorem install_of_replicate (sends : leader.replicateToPeer id peer = .done n (some (.install args))) :
    leader.role = .leader ∧ args.term = leader.term ∧ args.lastIncludedIndex = leader.snapshotIndex ∧
      args.lastIncludedTerm = leader.snapshotTerm ∧ leader.nextFor peer ≤ leader.snapshotIndex := by
  unfold replicateToPeer at sends
  unfold nextFor
  split at sends
  · cases sends
  split at sends
  · cases sends
  split at sends
  · rename_i leads _ _ read behind
    simp only [Outcome.done.injEq, map_eq_some_iff, Request.install.injEq] at sends
    obtain ⟨-, data, -, rfl⟩ := sends
    rw [read]
    exact ⟨not_not.1 leads, rfl, rfl, rfl, behind⟩
  · split at sends <;> cases sends

/-- A request that passes the check succeeds if it leaves an entry in the log. -/
theorem success_of_prevMatches (fresh : n.term ≤ request.term) (same : n.prevMatches request = true)
    {i : Nat} {e : Entry} (left : (n.log.storeEntries request.entries).get i = some e) :
    ∃ n' reply, n.handleAppendEntries request = .done n' reply ∧ reply.success = true := by
  have log : ((n.catchUp request.term).yield.store request.entries).log = n.log.storeEntries request.entries := by
    rw [store, log_yield, log_catchUp]
  unfold handleAppendEntries takeEntries followCommit
  rw [if_neg (by omega), prevMatches_yield, if_pos same, log]
  split
  · have ne := ne_nil_of_mem (mem_of_find?_eq_some left)
    rw [lastIndex, getLast?_eq_some_getLast ne]
    exact ⟨_, _, rfl, rfl⟩
  · exact ⟨_, _, rfl, rfl⟩

/-- The request that a leader makes next for a peer whose reply to a snapshot it has taken. -/
theorem nextAppend_receiveInstall (leads : leader.role = .leader) (index : args.lastIncludedIndex = leader.snapshotIndex)
    {reply : InstallSnapshotReply} (current : reply.term ≤ leader.term)
    (next : (leader.receiveInstall peer args reply).nextAppend id peer = some request) :
    ∃ last, request = leader.appendArgs id (args.lastIncludedIndex + 1) last := by
  unfold receiveInstall at next
  rw [if_neg (by omega), if_pos leads] at next
  unfold nextAppend replicateToPeer backtrack at next
  rw [leads, if_neg (by simp), GoMap.get_set, if_pos rfl, some_or] at next
  dsimp only at next
  rw [if_neg (by omega)] at next
  cases last : leader.log.lastIndex with
  | none => simp [last] at next
  | some last' =>
    simp only [last, some.injEq] at next
    exact ⟨last', next.symm⟩

/-- The check of that request looks for an entry at the index of the snapshot. -/
theorem prevMatches_appendArgs {i last : Nat} (pos : 0 < i) (index : i = leader.snapshotIndex) :
    n.prevMatches (leader.appendArgs id (i + 1) last) = true ↔ ∃ e, n.log.get i = some e ∧
      e.term = ((leader.log.get i).map (·.term)).getD leader.snapshotTerm := by
  unfold prevMatches appendArgs
  simp only [Nat.add_sub_cancel, if_neg pos.ne', if_pos index]
  cases leader.log.get i <;> simp [pos.ne', Option.any_eq_true]

/-- The request after a snapshot succeeds exactly when the follower has refused the snapshot and has, at its index,
an entry of the term that the leader names. -/
theorem resumes_iff (sends : leader.replicateToPeer id peer = .done leader (some (.install args)))
    (started : 0 < leader.nextFor peer)
    (next : (leader.receiveInstall peer args (follower.handleInstallSnapshot args).2).nextAppend id peer =
      some request) :
    (∃ n reply, (follower.handleInstallSnapshot args).1.handleAppendEntries request = .done n reply ∧
      reply.success = true) ↔
    (F.restore args.data follower.fsm).1 = false ∧ ∃ e, follower.log.get args.lastIncludedIndex = some e ∧
      e.term = ((leader.log.get args.lastIncludedIndex).map (·.term)).getD args.lastIncludedTerm := by
  obtain ⟨leads, term, index, lastTerm, behind⟩ := install_of_replicate sends
  -- after a refusal for its term the leader would make no request
  have fresh : ¬ args.term < follower.term := by
    intro stale
    unfold handleInstallSnapshot receiveInstall at next
    rw [if_pos stale, if_pos (by dsimp only; omega)] at next
    cases next
  have current := term_catchUp fresh
  have fsm : (follower.catchUp args.term).fsm = follower.fsm := by
    unfold catchUp
    split <;> rfl
  unfold handleInstallSnapshot at next ⊢
  rw [if_neg (by omega)] at next ⊢
  dsimp only at next ⊢
  obtain ⟨last, rfl⟩ := nextAppend_receiveInstall leads index (by dsimp only; omega) next
  rw [fsm, lastTerm]
  have check (n : Node F) : n.prevMatches (leader.appendArgs id (args.lastIncludedIndex + 1) last) = true ↔ _ :=
    prevMatches_appendArgs (by omega) index
  cases restored : (F.restore args.data follower.fsm).1 with
  | true =>
    -- the entry at the index is cut
    refine ⟨fun ⟨_, _, handled, success⟩ => ?_, fun ⟨refused, _⟩ => by cases refused⟩
    obtain ⟨e, here, -⟩ := (check _).1 (handleAppendEntries_success handled success).1
    rw [if_pos rfl, finishInstall, get_truncateBefore, if_neg (Nat.lt_irrefl _)] at here
    cases here
  | false =>
    rw [if_neg nofun]
    have kept := check { follower.catchUp args.term with fsm := (F.restore args.data follower.fsm).2 }
    rw [show ({ follower.catchUp args.term with fsm := (F.restore args.data follower.fsm).2 } : Node F).log =
      follower.log from log_catchUp ..] at kept
    refine ⟨fun ⟨_, _, handled, success⟩ => ⟨rfl, kept.1 (handleAppendEntries_success handled success).1⟩, ?_⟩
    rintro ⟨-, e, here, same⟩
    refine success_of_prevMatches (i := args.lastIncludedIndex) (e := e) ?_ (kept.2 ⟨e, here, same⟩) ?_
    · show (follower.catchUp args.term).term ≤ leader.term
      omega
    · rw [get_storeEntries]
      · show (follower.catchUp args.term).log.get _ = _
        rw [log_catchUp, here]
      · intro x mem
        simp [appendArgs, RaftLog.range] at mem
        omega

def refusingFSM : FSM := { emptyFSM with restore := fun _ _ => (false, ()) }

def snapshotLeader (F : FSM) (data : F.Data) : Node F where
  term := 1
  role := .leader
  log := { entries := [⟨2, 1, {}⟩] }
  snapshotIndex := 1
  snapshotTerm := 1
  snapshotData := some data
  nextIndex := GoMap.set ∅ [98] 1

/-- The `InstallSnapshot` that `snapshotLeader` makes. -/
def snapshotArgs (F : FSM) (data : F.Data) : InstallSnapshotArgs F := ⟨1, [97], 1, 1, data⟩

/-- A follower that refuses the snapshot goes on, one that installs it does not. -/
theorem resumes_unless_installed : (∃ n reply, (handleInstallSnapshot { log := ({} : RaftLog).append ⟨1, 1, {}⟩ }
      (snapshotArgs refusingFSM ())).1.handleAppendEntries
    ((snapshotLeader refusingFSM ()).appendArgs [97] 2 2) = .done n reply ∧ reply.success = true) ∧
    ¬ ∃ n reply, (handleInstallSnapshot { log := (({} : RaftLog).append ⟨1, 1, {}⟩).append ⟨2, 1, {}⟩ }
      (snapshotArgs emptyFSM ())).1.handleAppendEntries
    ((snapshotLeader emptyFSM ()).appendArgs [97] 2 2) = .done n reply ∧ reply.success = true :=
  ⟨(@resumes_iff _ (snapshotLeader refusingFSM ()) _ [97] [98] _ _ rfl (by decide) rfl).2
      ⟨rfl, ⟨1, 1, {}⟩, rfl, rfl⟩,
    fun success => Bool.true_eq_false.mp ((@resumes_iff _ (snapshotLeader emptyFSM ()) _ [97] [98] _ _ rfl (by decide)
      rfl).1 success).1⟩

/-- A new follower that takes the snapshot panics on the next request. -/
theorem not_resumes : ∃ request, (snapshotLeader emptyFSM ()).replicateToPeer [97] [98] =
      .done (snapshotLeader emptyFSM ()) (some (.install (snapshotArgs emptyFSM ()))) ∧
    ((snapshotLeader emptyFSM ()).receiveInstall [98] (snapshotArgs emptyFSM ())
      (handleInstallSnapshot {} (snapshotArgs emptyFSM ())).2).nextAppend [97] [98] = some request ∧
    ∃ n, (handleInstallSnapshot {} (snapshotArgs emptyFSM ())).1.handleAppendEntries request = .panic n :=
  ⟨_, rfl, rfl, _, rfl⟩

end Node

end TransactionManager.Raft
