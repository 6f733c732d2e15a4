import TransactionManager.Raft.LogFile

/-!
# Writes of the Raft log that fail

`Append` and `TruncateAfter` change the entries in memory before they call `writeToDisk`, and return
its error without changing them back. So `Propose` reports an error for an entry that stays where
`replicateToPeer` takes the entries from. Only the end of the process takes it away, if it comes before
anything else and the entry is not whole in the file.
-/

namespace TransactionManager.Raft
open Lib List Cluster

namespace DiskLog
variable (c : EntryCodec) (l : DiskLog)

/-- `writeToDisk` returns an error: the file could not be emptied, or has this many of the bytes. -/
def fail (k : LogCall) (written : Option Nat) : DiskLog :=
  ⟨l.updated k, written.elim l.file (c.frames (l.updated k)).take⟩

end DiskLog

variable {F : FSM}

/-- The locked part of `Propose` when `Append` returns an error, with what can then be read of the
file. -/
def Node.proposeFails (n : Node F) (cmd : Command) (file : List Entry) : Outcome F Entry :=
  match n.log.lastIndex with
  | none => .panic n
  | some last =>
    let e := ⟨last + 1, n.term, cmd⟩
    .done { n with log := ⟨n.log.entries ++ [e], file⟩ } e

/-- A cluster in which the write of a proposal can fail, the entries whose `Propose` returned that error, and the
commands that were appended. -/
structure FailRun (F : FSM) where
  cluster : Cluster F := {}
  failed : List Entry := []
  appended : List Command := []

/-- A step of the cluster, or an `Append` in `Propose` that fails, with which the process may end. -/
inductive FailAction where
  | step (a : Action)
  | proposeFails (id : NodeID) (proposal : Nat) (file : List Entry) (ends : Bool)
  deriving DecidableEq

namespace FailRun

/-- One step; `none` when it cannot be taken. -/
def next (m : Membership) (s : FailRun F) : FailAction → Option (FailRun F)
  | .step a => (s.cluster.next m a).map fun cluster => { s with cluster, appended := s.appended ++ s.cluster.appends a }
  | .proposeFails id proposal file ends =>
    let n := s.cluster.nodes id
    (n.proposing[proposal]?).map fun cmd =>
      let n := { n with proposing := n.proposing.eraseIdx proposal }
      match n.proposeFails cmd file with
      | .done n e => { s with cluster := s.cluster.set id (if ends then n.restart else n), failed := s.failed ++ [e] }
      | .panic n => { s with cluster := s.cluster.set id n.restart }

/-- A process ends with the failed write of its log, and nothing of the entry can be read of the file. A command
whose write fails has not been appended before, is no noop and is not proposed again. -/
def FailsStop (s : FailRun F) : FailAction → Prop
  | .step a => ∀ cmd ∈ s.cluster.appends a, ∀ e ∈ s.failed, e.command ≠ cmd
  | .proposeFails id proposal file ends => ends = true ∧
      (∀ cmd ∈ (s.cluster.nodes id).proposing[proposal]?, cmd ≠ {} ∧ cmd ∉ s.appended) ∧
      ∀ e ∈ file, e ∈ (s.cluster.nodes id).log.entries

instance (s : FailRun F) (a : FailAction) : Decidable (s.FailsStop a) := by
  unfold FailsStop
  split <;> infer_instance

end FailRun

/-- No entry of the log or of its file has this command. -/
def RaftLog.Lacks (x : Command) (l : RaftLog) : Prop := ∀ e, e ∈ l.entries ∨ e ∈ l.file → e.command ≠ x

/-- No log, no request and no FSM of the cluster has had this command. -/
structure Cluster.Unknown (x : Command) (s : Cluster F) : Prop where
  log : ∀ id, (s.nodes id).log.Lacks x
  sent : ∀ call ∈ s.calls, ∀ args, call.request = .append args → ∀ e ∈ args.entries, e.command ≠ x
  applied : ∀ id e, .applied id e ∈ s.history → e.command ≠ x

namespace RaftLog.Lacks
variable {x : Command} {l : RaftLog}

variable (lacks : l.Lacks x)
include lacks

theorem reopen (real : x ≠ {}) : l.reopen.Lacks x := by
  unfold RaftLog.reopen
  split
  · rintro e (mem | mem) <;> cases mem_singleton.1 mem <;> exact real.symm
  · exact fun e mem => lacks e (.inr (mem.elim id id))

theorem append {e : Entry} (other : e.command ≠ x) : (l.append e).Lacks x := by
  have all : ∀ e' ∈ l.entries ++ [e], e'.command ≠ x :=
    forall_mem_append.2 ⟨fun e' mem => lacks e' (.inl mem), forall_mem_singleton.2 other⟩
  exact fun e' mem => all e' (or_self_iff.1 mem)

theorem truncateBefore (index : Nat) : (l.truncateBefore index).Lacks x :=
  fun e mem => lacks e (mem.imp_left mem_of_mem_filter)

theorem storeEntries {es : List Entry} (others : ∀ e ∈ es, e.command ≠ x) : (l.storeEntries es).Lacks x := by
  induction es generalizing l with
  | nil => exact lacks
  | cons e es ih =>
    refine ih ?_ fun e' mem => others e' (mem_cons_of_mem _ mem)
    unfold storeEntry
    split
    · exact fun e' mem => lacks e' (.inl (mem.elim mem_of_mem_filter mem_of_mem_filter))
    · split
      · exact lacks.append (others e mem_cons_self)
      · exact lacks

end RaftLog.Lacks

namespace Cluster.Unknown
variable {x : Command} {L : Law} {m : Membership} {s s' : Cluster F} (unknown : s.Unknown x)
include unknown

theorem set (id : NodeID) {n : Node F} (lacks : n.log.Lacks x) : (s.set id n).Unknown x :=
  ⟨fun other => nodes_set_elim other lacks fun _ => unknown.log other, unknown.sent, unknown.applied⟩

theorem record {e : Event} (other : ∀ id entry, e = .applied id entry → entry.command ≠ x) : (s.record e).Unknown x := by
  refine ⟨unknown.log, unknown.sent, fun id entry mem => ?_⟩
  rcases mem_append.1 mem with old | new
  · exact unknown.applied id entry old
  · exact other id entry (mem_singleton.1 new).symm

theorem answer (a : Answer) : (s.answer a).Unknown x := ⟨unknown.log, unknown.sent, unknown.applied⟩

theorem send (id : NodeID) {calls : List (Call F)}
    (others : ∀ call ∈ calls, ∀ args, call.request = .append args → ∀ e ∈ args.entries, e.command ≠ x) :
    (s.send id calls).Unknown x := by
  refine ⟨fun other => nodes_send_elim other (unknown.log id) fun _ => unknown.log other, fun call mem => ?_,
    unknown.applied⟩
  exact (mem_append.1 mem).elim (unknown.sent call) (others call)

/-- What makes no entry makes none with this command. -/
theorem silent (real : x ≠ {}) (move : Silent L m s s') : s'.Unknown x := by
  have same (id : NodeID) := unknown.log id
  cases move with
  | quiet id n' quiet => exact unknown.set id (quiet.log ▸ same id)
  | forget | stepDown | yield | count | matched | installed | advance | pick => exact unknown.set _ (same _)
  | restart => exact unknown.set _ ((same _).reopen real)
  | answer => exact unknown.answer _
  | winCrash => exact (unknown.set _ ((same _).reopen real)).record nofun
  | send id peer nextIdx last =>
    refine unknown.send id ?_
    rintro call mem args asked e mem'
    cases mem_singleton.1 mem
    cases asked
    exact same id e (.inl (mem_of_mem_filter mem'))
  | sendSnapshot id =>
    refine unknown.send id fun call mem args asked => ?_
    cases mem_singleton.1 mem
    cases asked
  | store c call args commit made asked =>
    have stored := (same call.dst).storeEntries (unknown.sent call (mem_of_getElem? made) args asked)
    exact Unknown.answer (unknown.set call.dst stored) _
  | storeCrash c call args made asked =>
    have stored := (same call.dst).storeEntries (unknown.sent call (mem_of_getElem? made) args asked)
    exact unknown.set _ (stored.reopen real)
  | pass id index e picked found =>
    refine Unknown.record ?_ ?_
    · exact unknown.set id (same id)
    · rintro _ _ ⟨⟩
      exact same id e (.inl (mem_of_find?_eq_some found))
  | compact | finishInstall => exact unknown.set _ ((same _).truncateBefore _)

theorem move (real : x ≠ {}) (client : ¬ L.client x) (move : Move L m s s') : s'.Unknown x := by
  have same (id : NodeID) := unknown.log id
  cases move with
  | silent move => exact unknown.silent real move
  | campaign id lastIndex lastTerm _ _ _ _ _ ran =>
    subst ran
    refine Unknown.send ?_ id fun call mem args asked => ?_
    · exact unknown.set id (same id)
    · obtain ⟨_, -, rfl⟩ := mem_map.1 mem
      cases asked
  | campaignCrash => exact unknown.set _ ((same _).reopen real)
  | grant =>
    refine Unknown.answer ?_ _
    exact unknown.set _ (same _)
  | win id => exact (unknown.set id ((same id).append real.symm)).record nofun
  | propose id cmd _ _ _ allowed =>
    refine unknown.set id ((same id).append ?_)
    rintro rfl
    exact client allowed

end Cluster.Unknown

namespace FailRun
variable {m : Membership} {s s' : FailRun F}

/-- A command that was not appended is nowhere, and the failed ones were not. -/
structure Contained (s : FailRun F) : Prop where
  unknown : ∀ x ≠ {}, x ∉ s.appended → s.cluster.Unknown x
  failed : ∀ e ∈ s.failed, e.command ≠ {} ∧ e.command ∉ s.appended

theorem Contained.step (inv : s.Contained) {a : Action} (ok : s.FailsStop (.step a))
    (taken : s.next m (.step a) = some s') : s'.Contained := by
  obtain ⟨cluster, step, rfl⟩ := Option.map_eq_some_iff.1 taken
  refine ⟨fun x real fresh => ?_, fun e mem => ⟨(inv.failed e mem).1, fun appended => ?_⟩⟩
  · obtain ⟨old, new⟩ := not_or.1 (mt mem_append.2 fresh)
    have moves := moves_of_next (L := ⟨False, False, False, False, (· ∈ s.cluster.appends a)⟩) False.elim False.elim
      False.elim False.elim (fun _ mem => mem) step
    exact moves.invariant (fun _ _ unknown move => unknown.move real new move) (inv.unknown x real old)
  · rcases mem_append.1 appended with old | new
    · exact (inv.failed e mem).2 old
    · exact ok _ new e mem rfl

theorem Contained.proposeFails (inv : s.Contained) {id : NodeID} {proposal : Nat} {file : List Entry} {ends : Bool}
    (ok : s.FailsStop (.proposeFails id proposal file ends))
    (taken : s.next m (.proposeFails id proposal file ends) = some s') : s'.Contained := by
  obtain ⟨rfl, fresh, old⟩ := ok
  obtain ⟨cmd, found, ran⟩ := Option.map_eq_some_iff.1 taken
  unfold Node.proposeFails at ran
  cases index : (s.cluster.nodes id).log.lastIndex with
  | none =>
    simp only [index] at ran
    subst ran
    refine ⟨fun x real fresh => ?_, inv.failed⟩
    have unknown := inv.unknown x real fresh
    exact unknown.set id ((unknown.log id).reopen real)
  | some last =>
    simp only [index] at ran
    subst ran
    refine ⟨fun x real fresh => ?_, fun e mem => ?_⟩
    · have unknown := inv.unknown x real fresh
      have lacks : RaftLog.Lacks x ⟨file, file⟩ := fun e mem => unknown.log id e (.inl (old e (or_self_iff.1 mem)))
      exact unknown.set id (lacks.reopen real)
    · rcases mem_append.1 mem with old | new
      · exact inv.failed e old
      · cases mem_singleton.1 new
        exact fresh cmd found

end FailRun

end TransactionManager.Raft
