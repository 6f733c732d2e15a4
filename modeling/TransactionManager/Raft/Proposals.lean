import TransactionManager.Raft.Election
import TransactionManager.Lib.Prefix

/-!
# What `Propose` returns

A `Propose` call registers its channel in `n.pending` under the index of the entry it appends, and
the apply loop sends the error of `FSM.Apply` to whatever channel it finds under the index it has
applied. Nothing removes a registration when the entry is cut from the log, so the call can be told
what became of the entry of another leader. It is told the truth as long as the entries under the
registrations stay.
-/

namespace TransactionManager.Raft
open Lib List Function Option

/-- What the apply loop has passed to the FSM, with the call that appended it and the error. -/
structure Applied (E : Type) where
  index : Nat
  entry : Entry
  origin : Option Nat
  err : E
  deriving DecidableEq

/-- How a `Propose` call that has appended its entry ends: with the result from its channel, after
five seconds, or with its process. -/
inductive ProposalOutcome (E : Type) where
  | fsm (a : Applied E)
  | timeout
  | stopped
  deriving DecidableEq

/-- A `Propose` call that has appended its entry, and its channel. -/
structure Proposal (E : Type) where
  node : NodeID
  command : Command
  index : Nat
  result : Option (Applied E) := none
  outcome : Option (ProposalOutcome E) := none
  deriving DecidableEq

/-- What was applied is the entry of the call of this number. -/
def Proposal.Told {E : Type} (prop : Proposal E) (p : Nat) (a : Applied E) : Prop :=
  a.index = prop.index ∧ a.entry.command = prop.command ∧ a.origin = some p

/-- A cluster with the `Propose` calls made on it. `origin` says which call appended the entry at an index, as long as
that stays there; `working` is what an apply loop has passed and not yet reported. -/
structure Clients (F : FSM) (E : Type) where
  cluster : Cluster F := {}
  proposals : List (Proposal E) := []
  pending : NodeID → GoMap Nat Nat := fun _ => ∅
  origin : NodeID → Nat → Option Nat := fun _ _ => none
  working : NodeID → Option (Applied E) := fun _ => none

/-- A step of the cluster, of the report of an apply loop, or of a `Propose` call. -/
inductive ClientAction where
  | raft (a : Action)
  | resolve (id : NodeID)
  | receive (proposal : Nat)
  | timeout (proposal : Nat)
  deriving DecidableEq

variable {F : FSM} {E : Type}

def Outcome.panics {α : Type} : Outcome F α → Bool
  | .done .. => false
  | .panic _ => true

/-- The node whose process ends in the step. -/
def Cluster.ends (m : Membership) (s : Cluster F) : Action → Option NodeID
  | .timeout id => if (s.nodes id).log.lastIndex = none then some id else none
  | .replicate id peer => if ((s.nodes id).replicateToPeer id peer).panics then some id else none
  | .deliver c =>
    match s.calls[c]? with
    | none => none
    | some call =>
      match call.request with
      | .vote args => if ((s.nodes call.dst).handleRequestVote args).panics then some call.dst else none
      | .append args => if ((s.nodes call.dst).handleAppendEntries args).panics then some call.dst else none
      | .install _ => none
  | .receive c k =>
    match s.calls[c]?, s.answers[k]? with
    | some call, some a =>
      let n := (s.nodes call.src).stopWaiting c
      match call.request, a.reply with
      | .vote args, .vote reply =>
        let (n, wins) := n.receiveVote (m.peers call.src) args reply
        if wins ∧ (n.becomeLeader (m.peers call.src)).panics then some call.src else none
      | .append args, .append reply =>
        if (n.receiveAppend (m.peers call.src) call.dst args reply).panics then some call.src else none
      | _, _ => none
    | _, _ => none
  | .proposeAppend id _ => if (s.nodes id).log.lastIndex = none then some id else none
  | .advance id => if ((s.nodes id).tryAdvanceCommitIndex (m.peers id)).panics then some id else none
  | .restart id => some id
  | .proposeTest .. | .apply _ | .install .. => none

namespace Clients

/-- The process of the node ends, and with it its calls. -/
def stop (s : Clients F E) (id : NodeID) : Clients F E :=
  { s with
    proposals := s.proposals.map fun p =>
      if p.node = id ∧ p.outcome = none then { p with outcome := some .stopped } else p
    pending := update s.pending id ∅
    working := update s.working id none }

/-- `Propose` has appended its entry and registers its channel. -/
def register (s : Clients F E) (id : NodeID) (command : Command) (index : Nat) : Clients F E :=
  { s with
    proposals := s.proposals ++ [{ node := id, command, index }]
    pending := update s.pending id ((s.pending id).set index s.proposals.length)
    origin := update s.origin id (update (s.origin id) index (some s.proposals.length)) }

/-- The cluster goes on; an entry that stays where it is keeps its origin. -/
def advance (s : Clients F E) (c : Cluster F) : Clients F E :=
  { s with
    cluster := c
    origin := fun id i =>
      if (c.nodes id).log.get i = (s.cluster.nodes id).log.get i then s.origin id i else none }

/-- What the apply loop passes to the FSM in its next step. -/
def passes (err : Entry → F.State → E) (s : Clients F E) (id : NodeID) : Option (Applied E) :=
  let n := s.cluster.nodes id
  match n.phase with
  | .picked index => (n.log.get index).map fun e => ⟨index, e, s.origin id index, err e n.fsm⟩
  | _ => none

/-- What the apply loop has to report, once it has stored the index. -/
def reportable (s : Clients F E) (id : NodeID) : Option (Applied E) :=
  match (s.cluster.nodes id).phase with
  | .applied _ => none
  | _ => s.working id

/-- A step of the cluster, with what it means for the calls. -/
def raft (m : Membership) (err : Entry → F.State → E) (s : Clients F E) (a : Action) (c : Cluster F) :
    Clients F E :=
  match s.cluster.ends m a with
  | some id => (s.advance c).stop id
  | none =>
    match a with
    | .proposeAppend id k =>
      match (s.cluster.nodes id).proposing[k]?, (s.cluster.nodes id).log.lastIndex with
      | some cmd, some last => (s.advance c).register id cmd (last + 1)
      | _, _ => s.advance c
    | .apply id =>
      match s.passes err id with
      | some w => { s.advance c with working := update s.working id (some w) }
      | none => s.advance c
    | _ => s.advance c

/-- The part of `applyCommitted` under `pendingMu`. -/
def resolve (s : Clients F E) (id : NodeID) (w : Applied E) : Clients F E :=
  let s := { s with working := update s.working id none }
  match (s.pending id).get w.index with
  | none => s
  | some p =>
    { s with
      pending := update s.pending id ((s.pending id).delete w.index)
      proposals := s.proposals.modify p fun prop => { prop with result := some w } }

def next (m : Membership) (err : Entry → F.State → E) (s : Clients F E) : ClientAction → Option (Clients F E)
  | .raft (.proposeAppend id k) =>
    -- only the members have processes
    if m.ids.contains id then
      (s.cluster.next m (.proposeAppend id k)).map (s.raft m err (.proposeAppend id k))
    else none
  | .raft (.apply id) =>
    if (s.reportable id).isNone then (s.cluster.next m (.apply id)).map (s.raft m err (.apply id)) else none
  | .raft a => (s.cluster.next m a).map (s.raft m err a)
  | .resolve id => (s.reportable id).map (s.resolve id)
  | .receive p =>
    (s.proposals[p]?).bind fun prop =>
      if prop.outcome.isSome then none
      else prop.result.map fun a =>
        { s with proposals := s.proposals.modify p fun prop => { prop with outcome := some (.fsm a) } }
  | .timeout p =>
    (s.proposals[p]?).bind fun prop =>
      if prop.outcome.isSome then none
      else some { s with
        proposals := s.proposals.modify p fun prop => { prop with outcome := some .timeout }
        pending := update s.pending prop.node ((s.pending prop.node).delete prop.index) }

/-- A step leaves the entries alone under which a call is registered, unless it ends the process. An
entry is proposed at an index that is neither in the log nor the one that the apply loop has passed. -/
def Steady (m : Membership) (s : Clients F E) : ClientAction → Prop
  | .raft a =>
    (∀ c ∈ s.cluster.next m a, ∀ id ∈ m.ids, s.cluster.ends m a ≠ some id →
      ∀ i ∈ (s.pending id).keys, (c.nodes id).log.get i = (s.cluster.nodes id).log.get i) ∧
    match a with
    | .proposeAppend id _ => ∀ last ∈ (s.cluster.nodes id).log.lastIndex,
        (s.cluster.nodes id).log.get (last + 1) = none ∧ ∀ w ∈ s.working id, w.index ≠ last + 1
    | _ => True
  | _ => True

/-- What holds along a steady run. -/
structure Honest (m : Membership) (s : Clients F E) : Prop where
  registered : ∀ (id : NodeID) (i p : Nat), (s.pending id).get i = some p → id ∈ m.ids ∧
    ∃ prop e, s.proposals[p]? = some prop ∧ prop.index = i ∧
      (s.cluster.nodes id).log.get i = some e ∧ e.command = prop.command ∧ s.origin id i = some p
  reports : ∀ (id : NodeID) (w : Applied E) (p : Nat), s.working id = some w →
    (s.pending id).get w.index = some p → ∃ prop, s.proposals[p]? = some prop ∧ prop.Told p w
  told : ∀ (p : Nat) (prop : Proposal E) (a : Applied E), s.proposals[p]? = some prop →
    prop.result = some a ∨ prop.outcome = some (.fsm a) → prop.Told p a

section
variable {m : Membership} {err : Entry → F.State → E} {s s' : Clients F E} {c : Cluster F} {id : NodeID} {w : Applied E}

theorem Honest.start (m : Membership) : Honest m ({} : Clients F E) where
  registered _ _ _ found := by cases found
  reports _ _ _ found := by cases found
  told _ _ _ found := by cases found

section
variable (inv : s.Honest m)
include inv

theorem Honest.shrink (cluster : s'.cluster = s.cluster) (origin : s'.origin = s.origin)
    (pending : ∀ (id : NodeID) (i p : Nat), (s'.pending id).get i = some p → (s.pending id).get i = some p)
    (working : ∀ id w, s'.working id = some w → s.working id = some w)
    (proposals : ∀ (p : Nat) (prop : Proposal E), s.proposals[p]? = some prop →
      ∃ prop', s'.proposals[p]? = some prop' ∧ prop'.index = prop.index ∧ prop'.command = prop.command)
    (told : ∀ (p : Nat) (prop : Proposal E) (a : Applied E), s'.proposals[p]? = some prop →
      prop.result = some a ∨ prop.outcome = some (.fsm a) → prop.Told p a) : s'.Honest m := by
  refine ⟨fun id i p found => ?_, fun id w p works found => ?_, told⟩
  · obtain ⟨member, prop, e, call, index, here, command, own⟩ := inv.registered id i p (pending id i p found)
    obtain ⟨prop', call', index', command'⟩ := proposals p prop call
    rw [cluster, origin]
    exact ⟨member, prop', e, call', index'.trans index, here, command.trans command'.symm, own⟩
  · obtain ⟨prop, call, index, command, own⟩ := inv.reports id w p (working id w works) (pending _ _ p found)
    obtain ⟨prop', call', index', command'⟩ := proposals p prop call
    exact ⟨prop', call', index.trans index'.symm, command.trans command'.symm, own⟩

theorem Honest.stop (id : NodeID) : (s.stop id).Honest m := by
  refine inv.shrink rfl rfl (fun other i p found => ?_) (fun other w works => ?_) (fun p prop call => ?_)
    fun p prop' a call' has => ?_
  · by_cases same : other = id
    · simp [Clients.stop, same] at found
    · simpa [Clients.stop, same] using found
  · by_cases same : other = id
    · simp [Clients.stop, same] at works
    · simpa [Clients.stop, same] using works
  · refine ⟨if prop.node = id ∧ prop.outcome = none then { prop with outcome := some .stopped } else prop, ?_, ?_⟩
    · simp [Clients.stop, call]
    · split <;> exact ⟨rfl, rfl⟩
  · obtain ⟨prop, call, rfl⟩ := map_eq_some_iff.1 (getElem?_map .. ▸ call')
    have told := inv.told p prop a call
    split at has
    · rename_i ends
      rw [if_pos ends]
      rcases has with result | outcome
      · exact told (.inl result)
      · cases outcome
    · rename_i goes
      rw [if_neg goes]
      exact told has

/-- The cluster goes on and leaves the entries under the registrations alone. -/
theorem Honest.advance
    (keep : ∀ id ∈ m.ids, ∀ i ∈ (s.pending id).keys, (c.nodes id).log.get i = (s.cluster.nodes id).log.get i) :
    (s.advance c).Honest m := by
  refine ⟨fun id i p found => ?_, inv.reports, inv.told⟩
  obtain ⟨member, prop, e, call, index, here, command, own⟩ := inv.registered id i p found
  have same := keep id member i ((GoMap.mem_keys_iff _ i).2 ⟨p, found⟩)
  refine ⟨member, prop, e, call, index, same.trans here, command, ?_⟩
  exact (if_pos same).trans own

omit inv in
theorem pending_register (s : Clients F E) (id other : NodeID) (command : Command) (index i : Nat) :
    ((s.register id command index).pending other).get i =
      if other = id ∧ i = index then some s.proposals.length else (s.pending other).get i := by
  show ((update s.pending id _) other).get i = _
  by_cases same : other = id
  · subst same
    simp
  · simp [same]

omit inv in
theorem origin_register (s : Clients F E) (id other : NodeID) (command : Command) (index i : Nat) :
    (s.register id command index).origin other i =
      if other = id ∧ i = index then some s.proposals.length else s.origin other i := by
  show (update s.origin id _) other i = _
  by_cases same : other = id
  · subst same
    simp [update_apply]
  · simp [same]

theorem Honest.register {command : Command} {index : Nat} {e : Entry}
    (member : id ∈ m.ids) (here : (s.cluster.nodes id).log.get index = some e) (own : e.command = command)
    (free : ∀ w, s.working id = some w → w.index ≠ index) : (s.register id command index).Honest m := by
  have old {p : Nat} {prop : Proposal E} (call : s.proposals[p]? = some prop) :
      (s.register id command index).proposals[p]? = some prop := by
    rw [← call]
    exact List.getElem?_append_left (List.getElem?_eq_some_iff.1 call).1
  refine ⟨fun other i p found => ?_, fun other w p works found => ?_, fun p prop a call has => ?_⟩
  · rw [pending_register] at found
    rw [origin_register]
    split at found
    · rename_i new
      obtain ⟨rfl, rfl⟩ := new
      cases found
      rw [if_pos ⟨rfl, rfl⟩]
      exact ⟨member, _, e, getElem?_concat_length, rfl, here, own, rfl⟩
    · rename_i new
      rw [if_neg new]
      obtain ⟨member, prop, e, call, rest⟩ := inv.registered other i p found
      exact ⟨member, prop, e, old call, rest⟩
  · rw [pending_register, if_neg] at found
    · obtain ⟨prop, call, told⟩ := inv.reports other w p works found
      exact ⟨prop, old call, told⟩
    · rintro ⟨rfl, same⟩
      exact free w works same
  · rcases getElem?_concat_cases call with before | ⟨-, rfl⟩
    · exact inv.told p prop a before has
    · rcases has with none | none <;> cases none

/-- The apply loop passes the entry it finds to the FSM. -/
theorem Honest.passes (passed : s.passes err id = some w) (next : (s.advance c).Honest m) :
    Honest m { s.advance c with working := update s.working id (some w) } := by
  refine ⟨next.registered, fun other w' p works found => ?_, next.told⟩
  by_cases same : other = id
  · subst same
    obtain rfl : w = w' := by simpa using works
    unfold Clients.passes at passed
    dsimp only at passed
    split at passed
    · obtain ⟨e, here, rfl⟩ := map_eq_some_iff.1 passed
      obtain ⟨-, prop, e', call, index, here', command, own⟩ := inv.registered other _ p found
      obtain rfl := some.inj (here.symm.trans here')
      exact ⟨prop, call, index.symm, command, own⟩
    · cases passed
  · have works : s.working other = some w' := by simpa [same] using works
    exact next.reports other w' p works found

theorem Honest.raft {a : Action} (taken : s.cluster.next m a = some c)
    (member : ∀ id k, a = .proposeAppend id k → id ∈ m.ids) (ok : Steady m s (.raft a)) :
    (s.raft m err a c).Honest m := by
  unfold Clients.raft
  cases ended : s.cluster.ends m a with
  | some id =>
    -- the calls of the node are gone before anything happens to its log
    refine (inv.stop id).advance fun other here i mem => ?_
    have ne : other ≠ id := by
      rintro rfl
      simp [Clients.stop] at mem
    refine ok.1 c taken other here (fun eq => ne (some.inj (eq.symm.trans ended))) i ?_
    simpa [Clients.stop, ne] using mem
  | none =>
    have next : (s.advance c).Honest m := inv.advance fun id here i mem => ok.1 c taken id here (by simp [ended]) i mem
    dsimp only
    split
    · rename_i id k
      split
      · rename_i cmd last asked ends
        obtain ⟨fresh, free⟩ := ok.2 last ends
        have log : (c.nodes id).log.get (last + 1) = some ⟨last + 1, (s.cluster.nodes id).term, cmd⟩ := by
          obtain ⟨cmd', asked', rfl⟩ := map_eq_some_iff.1 taken
          obtain rfl := some.inj (asked.symm.trans asked')
          rw [Cluster.nodes_set_self, Node.proposeAppend, ends]
          show ((s.cluster.nodes id).log.append _).get (last + 1) = _
          rw [RaftLog.get_append, fresh, if_pos rfl, none_or]
        exact next.register (member id k rfl) log rfl free
      · exact next
    · split
      · rename_i w passed
        exact inv.passes passed next
      · exact next
    · exact next

theorem Honest.modify {p : Nat} {f : Proposal E → Proposal E}
    {pending : NodeID → GoMap Nat Nat} {working : NodeID → Option (Applied E)}
    (index : ∀ prop, (f prop).index = prop.index) (command : ∀ prop, (f prop).command = prop.command)
    (fewer : ∀ (id : NodeID) (i q : Nat), (pending id).get i = some q → (s.pending id).get i = some q)
    (less : ∀ id w, working id = some w → s.working id = some w)
    (told : ∀ prop a, s.proposals[p]? = some prop →
      (f prop).result = some a ∨ (f prop).outcome = some (.fsm a) → prop.Told p a) :
    Honest m { s with proposals := s.proposals.modify p f, pending, working } := by
  refine inv.shrink rfl rfl fewer less (fun q prop call => ?_) fun q prop' a call' has => ?_
  · refine ⟨if p = q then f prop else prop, ?_, ?_⟩
    · rw [getElem?_modify, call]
      rfl
    · split
      · exact ⟨index prop, command prop⟩
      · exact ⟨rfl, rfl⟩
  · obtain ⟨prop, call, rfl⟩ := map_eq_some_iff.1 (getElem?_modify .. ▸ call')
    split at has
    · rename_i same
      subst same
      obtain ⟨own, rest⟩ := told prop a call has
      rw [if_pos rfl]
      exact ⟨own.trans (index prop).symm, rest.1.trans (command prop).symm, rest.2⟩
    · rename_i other
      rw [if_neg other]
      exact inv.told q prop a call has

omit inv in
theorem pending_delete {other : NodeID} {index i p : Nat}
    (found : (update s.pending id ((s.pending id).delete index) other).get i = some p) :
    (s.pending other).get i = some p := by
  by_cases same : other = id
  · subst same
    rw [update_self, GoMap.get_delete] at found
    split at found
    · cases found
    · exact found
  · rwa [update_of_ne same] at found

omit inv in
theorem working_none {other : NodeID} (works : update s.working id none other = some w) : s.working other = some w := by
  by_cases same : other = id
  · subst same
    simp at works
  · simpa [same] using works

/-- The apply loop reports what it has passed. -/
theorem Honest.resolve (works : s.working id = some w) : (s.resolve id w).Honest m := by
  unfold Clients.resolve
  dsimp only
  split
  · exact inv.shrink rfl rfl (fun _ _ _ found => found) (fun _ _ => working_none)
      (fun p prop call => ⟨prop, call, rfl, rfl⟩) inv.told
  rename_i p found
  refine inv.modify (fun _ => rfl) (fun _ => rfl) (fun _ _ _ => pending_delete)
    (fun _ _ => working_none) fun prop a call has => ?_
  rcases has with result | outcome
  · cases result
    obtain ⟨prop', call', told⟩ := inv.reports id w p works found
    obtain rfl := some.inj (call.symm.trans call')
    exact told
  · exact inv.told p prop a call (.inr outcome)

theorem Honest.next {a : ClientAction} (ok : Steady m s a) (taken : s.next m err a = some s') : s'.Honest m := by
  cases a with
  | raft a =>
    unfold Clients.next at taken
    split at taken
    · rename_i id k eq
      cases eq
      split at taken
      · rename_i member
        obtain ⟨c, step, rfl⟩ := map_eq_some_iff.1 taken
        refine inv.raft step ?_ ok
        rintro id k ⟨⟩
        exact contains_iff_mem.1 member
      · cases taken
    · rename_i id eq
      cases eq
      split at taken
      · obtain ⟨c, step, rfl⟩ := map_eq_some_iff.1 taken
        exact inv.raft step nofun ok
      · cases taken
    · rename_i a' other _ eq
      cases eq
      obtain ⟨c, step, rfl⟩ := map_eq_some_iff.1 taken
      refine inv.raft step ?_ ok
      rintro id k rfl
      exact (other id k rfl).elim
    all_goals
      rename_i eq
      cases eq
  | resolve id =>
    obtain ⟨w, reports, rfl⟩ := map_eq_some_iff.1 taken
    unfold Clients.reportable at reports
    split at reports
    · cases reports
    · exact inv.resolve reports
  | receive p =>
    obtain ⟨prop, call, taken⟩ := bind_eq_some_iff.1 taken
    split at taken
    · cases taken
    obtain ⟨a, sent, rfl⟩ := map_eq_some_iff.1 taken
    refine inv.modify (fun _ => rfl) (fun _ => rfl) (fun _ _ _ found => found) (fun _ _ works => works)
      fun prop' a' call' has => ?_
    obtain rfl := some.inj (call.symm.trans call')
    rcases has with sent' | outcome
    · exact inv.told p prop a' call (.inl sent')
    · cases outcome
      exact inv.told p prop a call (.inl sent)
  | timeout p =>
    obtain ⟨prop, call, taken⟩ := bind_eq_some_iff.1 taken
    split at taken
    · cases taken
    cases taken
    refine inv.modify (fun _ => rfl) (fun _ => rfl) (fun _ _ _ => pending_delete)
      (fun _ _ works => works) fun prop' a call' has => ?_
    rcases has with sent | outcome
    · exact inv.told p prop' a call' (.inl sent)
    · cases outcome

end

end

instance (m : Membership) (s : Clients F E) (a : ClientAction) : Decidable (Steady m s a) := by
  unfold Steady
  repeat' split
  all_goals infer_instance

def accepts (_ : Entry) (_ : emptyFSM.State) : Bool := true

end Clients

end TransactionManager.Raft
