import TransactionManager.Raft.Matching

/-!
# Leaders only append

A leader's log changes at its end only. `handleAppendEntries` does not ask whether its node leads
the term of the message, so this rests on the elections: only the leader of a term sends
`AppendEntries` of that term, and it does not send them to itself. What a node had in its log as
leader of a term stays a prefix of its log until it leaves the term or the leadership, and it
does not lead that term a second time.
-/

namespace TransactionManager.Raft
open Lib List Cluster List.Subset

variable {F : FSM}

/-- How a node can go on in one move. -/
inductive Tends (history : List Event) (id : NodeID) (n n' : Node F) : Prop where
  | stays (term : n'.term = n.term) (role : n'.role = n.role)
      (log : n.role = .leader → n.log.entries <+: n'.log.entries)
  | follows (later : n.term ≤ n'.term) (role : n'.role = .follower)
  | runs (later : n.term < n'.term) (role : n'.role = .candidate)
  | wins (candidate : n.role = .candidate) (term : n'.term = n.term)
      (own : ∃ e ∈ n'.log.entries, e.term = n'.term) (elected : .elected id n'.term ∈ history)

/-- Who leads, and who has sent `AppendEntries`, in a cluster without snapshots. -/
structure Leaders (s : Cluster F) : Prop where
  leader : ∀ id, (s.nodes id).role = .leader →
    .elected id (s.nodes id).term ∈ s.history ∧ ∃ e ∈ (s.nodes id).log.entries, e.term = (s.nodes id).term
  sent : ∀ call ∈ s.calls, ∀ args, call.request = .append args →
    .elected call.src args.term ∈ s.history ∧ call.dst ≠ call.src
  whole : ∀ call ∈ s.calls, ∀ args, call.request ≠ .install args
  plain : ∀ id, (s.nodes id).snapshotData = none

/-- A new call: no snapshot, and `AppendEntries` of the leader that sends it. -/
def Lawful (s : Cluster F) (call : Call F) : Prop :=
  (∀ args, call.request ≠ .install args) ∧ ∀ args, call.request = .append args →
    (s.nodes call.src).role = .leader ∧ args.term = (s.nodes call.src).term ∧ call.dst ≠ call.src

structure Onward (s s' : Cluster F) : Prop where
  node : ∀ id, Tends s'.history id (s.nodes id) (s'.nodes id)
  plain : ∀ id, (s'.nodes id).snapshotData = none
  history : s.history ⊆ s'.history
  calls : ∀ call ∈ s'.calls, call ∈ s.calls ∨ Lawful s call

section
variable {L : Law} {m : Membership} {votes : Votes} {s s' : Cluster F}

theorem Tends.same {history : List Event} {id : NodeID} {n n' : Node F} (term : n'.term = n.term)
    (role : n'.role = n.role) (log : n'.log = n.log) : Tends history id n n' :=
  .stays term role fun _ => log ▸ prefix_refl _

theorem Leaders.start : Leaders ({} : Cluster F) where
  leader _ leads := by cases leads
  sent _ mem := by cases mem
  whole _ mem := by cases mem
  plain _ := rfl

theorem Leaders.set (inv : Leaders s) {id : NodeID} {n' : Node F} (nodes : s'.nodes = (s.set id n').nodes)
    (calls : ∀ call ∈ s'.calls, call ∈ s.calls ∨ Lawful s call) (history : s.history ⊆ s'.history)
    (plain : n'.snapshotData = none) (tends : Tends s'.history id (s.nodes id) n') : Onward s s' where
  node other := by
    rw [nodes]
    exact nodes_set_elim (motive := fun other n => Tends s'.history other (s.nodes other) n) other tends
      fun _ => .same rfl rfl rfl
  plain other := by
    rw [nodes]
    exact nodes_set_elim other plain fun _ => inv.plain other
  history := history
  calls := calls

theorem Leaders.unmoved (inv : Leaders s) : Onward s s :=
  ⟨fun _ => .same rfl rfl rfl, inv.plain, refl _, fun _ => .inl⟩

theorem Onward.send (on : Onward s s') {id : NodeID} {calls : List (Call F)}
    (lawful : ∀ call ∈ calls, Lawful s call) : Onward s (s'.send id calls) where
  node other := by
    refine nodes_send_elim (motive := fun other n => Tends _ other (s.nodes other) n) other ?_ fun _ => on.node other
    cases on.node id with
    | stays term role log => exact .stays term role log
    | follows later role => exact .follows later role
    | runs later role => exact .runs later role
    | wins candidate term own elected => exact .wins candidate term own elected
  plain other := nodes_send_elim other (on.plain id) fun _ => on.plain other
  history := on.history
  calls call mem := by
    cases mem_append.1 mem with
    | inl old => exact on.calls call old
    | inr new => exact .inr (lawful call new)

section
variable (inv : Leaders s) (elections : Elections m votes s)
include inv elections

/-- A request of its own term does not reach a leader. -/
theorem Leaders.not_leader {call : Call F} {args : AppendEntriesArgs} (made : call ∈ s.calls)
    (asked : call.request = .append args) (same : (s.nodes call.dst).term = args.term) :
    (s.nodes call.dst).role ≠ .leader := by
  intro leads
  obtain ⟨elected, ne⟩ := inv.sent call made args asked
  have own := (inv.leader call.dst leads).1
  rw [same] at own
  exact ne (elections.safe _ _ _ own elected)

theorem Leaders.silent (plain : L.plain) (move : Silent L m s s') : Onward s s' := by
  have term (id : NodeID) : (s.nodes id).term ≤ (s.nodes id).restart.term :=
    (congrArg PersistentState.currentTerm (elections.ballot id).saved).ge
  have reset {id : NodeID} {n' : Node F} (later : (s.nodes id).term ≤ n'.term) (role : n'.role = .follower)
      (none : n'.snapshotData = none) : Onward s (s.set id n') :=
    inv.set rfl (fun _ => .inl) (refl _) none (.follows later role)
  have keep {id : NodeID} {n' : Node F} (term : n'.term = (s.nodes id).term)
      (role : n'.role = (s.nodes id).role) (log : n'.log = (s.nodes id).log)
      (none : n'.snapshotData = (s.nodes id).snapshotData) : Onward s (s.set id n') :=
    inv.set rfl (fun _ => .inl) (refl _) (none.trans (inv.plain id)) (.same term role log)
  cases move with
  | quiet id n' quiet => exact keep quiet.term quiet.role quiet.log quiet.snapshotData
  | stepDown id term later => exact reset later.le rfl (inv.plain id)
  | yield id => exact reset le_rfl rfl (inv.plain id)
  | restart id => exact reset (term id) rfl rfl
  | answer =>
    exact ⟨inv.unmoved.node, inv.plain, refl _, fun _ => .inl⟩
  | winCrash id =>
    exact inv.set rfl (fun _ => .inl) (subset_append_left ..) rfl (.follows (term id) rfl)
  | send id peer _ _ member leader =>
    refine inv.unmoved.send fun call mem => ?_
    cases mem_singleton.1 mem
    refine ⟨by simp, ?_⟩
    rintro _ ⟨⟩
    refine ⟨leader, rfl, ?_⟩
    intro own
    have own : peer = id := own
    rw [own] at member
    exact List.Nodup.not_mem_erase m.nodup member
  | sendSnapshot id _ _ _ data => exact absurd (inv.plain id) data
  | store _ call _ _ made asked same =>
    have other := inv.not_leader elections (mem_of_getElem? made) asked same
    exact inv.set rfl (fun _ => .inl) (refl _) (inv.plain call.dst)
      (.stays rfl rfl fun leads => absurd leads other)
  | storeCrash _ call =>
    exact reset (term call.dst) rfl rfl
  | installed _ call args _ _ made asked =>
    exact absurd asked (inv.whole call (mem_of_getElem? made) args)
  | pass id =>
    exact inv.set rfl (fun _ => .inl) (subset_append_left ..) (inv.plain id) (.same rfl rfl rfl)
  | compact id data not => exact absurd plain not
  | finishInstall _ _ args _ asked =>
    obtain ⟨call, made, eq⟩ := Option.map_eq_some_iff.1 asked
    exact absurd eq (inv.whole call (mem_of_getElem? made) args)
  | _ => exact keep rfl rfl rfl rfl

theorem Leaders.onward (plain : L.plain) (move : Move L m s s') : Onward s s' := by
  cases move with
  | silent move => exact inv.silent elections plain move
  | campaign id _ _ _ _ _ _ _ ran =>
    subst ran
    have ran : Onward s (s.set id ((s.nodes id).campaign id)) :=
      inv.set rfl (fun _ => .inl) (refl _) (inv.plain id) (.runs (Nat.lt_succ_self _) rfl)
    refine ran.send fun call mem => ?_
    obtain ⟨peer, -, rfl⟩ := mem_map.1 mem
    exact ⟨by simp, by simp⟩
  | campaignCrash =>
    exact inv.set rfl (fun _ => .inl) (refl _) rfl (.follows (Nat.le_succ _) rfl)
  | grant =>
    exact inv.set rfl (fun _ => .inl) (refl _) (inv.plain _) (.same rfl rfl rfl)
  | win id _ candidate =>
    refine inv.set rfl (fun _ => .inl) (subset_append_left ..) (inv.plain id) (.wins candidate rfl ?_ ?_)
    · exact ⟨_, mem_append_right _ (mem_singleton.2 rfl), rfl⟩
    · exact mem_append_right _ (mem_singleton.2 rfl)
  | propose id =>
    exact inv.set rfl (fun _ => .inl) (refl _) (inv.plain id) (.stays rfl rfl fun _ => prefix_append ..)

end

theorem Leaders.keep (inv : Leaders s) (on : Onward s s') : Leaders s' where
  leader id leads := by
    cases on.node id with
    | stays term role log =>
      rw [role] at leads
      obtain ⟨elected, e, mem, own⟩ := inv.leader id leads
      rw [term]
      exact ⟨on.history elected, e, (log leads).subset mem, own⟩
    | follows _ role | runs _ role =>
      rw [role] at leads
      cases leads
    | wins _ _ own elected => exact ⟨elected, own⟩
  sent call mem args asked := by
    rcases on.calls call mem with old | ⟨-, new⟩
    · obtain ⟨elected, ne⟩ := inv.sent call old args asked
      exact ⟨on.history elected, ne⟩
    · obtain ⟨leads, term, ne⟩ := new args asked
      rw [term]
      exact ⟨on.history (inv.leader call.src leads).1, ne⟩
  whole call mem := by
    rcases on.calls call mem with old | ⟨whole, -⟩
    · exact inv.whole call old
    · exact whole
  plain := on.plain

/-- A node that has led a term with this log. -/
def LedWith (term : Nat) (log : List Entry) (n : Node F) : Prop :=
  term < n.term ∨ n.term = term ∧ (n.role = .follower ∨ n.role = .leader ∧ log <+: n.log.entries)

/-- It keeps the log, or leaves the leadership of the term for good. -/
theorem LedWith.tends {term : Nat} {log : List Entry} {n n' : Node F} {history : List Event} {id : NodeID}
    (led : LedWith term log n) (tends : Tends history id n n') : LedWith term log n' := by
  cases tends with
  | stays same role extends' =>
    rcases led with past | ⟨here, follower | ⟨leader, part⟩⟩
    · exact .inl (same ▸ past)
    · exact .inr ⟨same.trans here, .inl (role.trans follower)⟩
    · exact .inr ⟨same.trans here, .inr ⟨role.trans leader, part.trans (extends' leader)⟩⟩
  | follows later role =>
    have : term < n'.term ∨ n'.term = term := by
      rcases led with past | ⟨here, -⟩ <;> omega
    exact this.imp_right fun here => ⟨here, .inl role⟩
  | runs later role =>
    left
    rcases led with past | ⟨here, -⟩ <;> omega
  | wins candidate same =>
    rcases led with past | ⟨here, follower | ⟨leader, -⟩⟩
    · exact .inl (same ▸ past)
    · rw [candidate] at follower
      cases follower
    · rw [candidate] at leader
      cases leader

end

def SoundLeaders (m : Membership) (s : Cluster F) : Prop := SoundElections m s ∧ Leaders s

section
variable {m : Membership} {s : Cluster F}

theorem SoundLeaders.move {L : Law} {s' : Cluster F} (sound : SoundLeaders m s) (plain : L.plain)
    (move : Move L m s s') : SoundLeaders m s' ∧ Onward s s' := by
  obtain ⟨⟨votes, elections⟩, inv⟩ := sound
  have on := inv.onward elections plain move
  exact ⟨⟨elections.move move, inv.keep on⟩, on⟩

/-- One step of a run without snapshots. -/
theorem SoundLeaders.next {s' : Cluster F} {a : Action} (sound : SoundLeaders m s) (whole : NoCompaction s a)
    (taken : s.next m a = some s') :
    SoundLeaders m s' ∧ ∀ id term log, LedWith term log (s.nodes id) → LedWith term log (s'.nodes id) := by
  have moves := moves_of_next (L := ⟨False, False, False, True, fun _ => True⟩) False.elim False.elim False.elim (fun _ => whole) (fun _ _ => trivial) taken
  clear taken
  induction moves with
  | refl => exact ⟨sound, fun _ _ _ led => led⟩
  | tail _ move ih =>
    obtain ⟨sound', on⟩ := ih.1.move trivial move
    exact ⟨sound', fun id term log led => (ih.2 id term log led).tends (on.node id)⟩

theorem soundLeaders (reached : Reach (Cluster.next m) NoCompaction {} s) : SoundLeaders m s :=
  reached.invariant ⟨⟨_, Elections.start m⟩, Leaders.start⟩ fun _ _ _ sound whole taken =>
    (sound.next whole taken).1

end

/-- A node that leads one term in two states has kept its log and only appended to it. -/
def AppendsOnly (s s' : Cluster F) : Prop := ∀ id, (s.nodes id).role = .leader → (s'.nodes id).role = .leader →
    (s'.nodes id).term = (s.nodes id).term → (s.nodes id).log.entries <+: (s'.nodes id).log.entries

/-- Over every order, loss, duplication and delay of the messages and any number of restarts, a
leader of a term only appends to its log. -/
theorem leader_appendsOnly (F : FSM) (m : Membership) (s s' : Cluster F)
    (reached : Reach (Cluster.next m) NoCompaction {} s)
    (later : Reach (Cluster.next m) NoCompaction s s') : AppendsOnly s s' := by
  intro id leads leads' same
  have run : SoundLeaders m s' ∧ LedWith (s.nodes id).term (s.nodes id).log.entries (s'.nodes id) := by
    clear leads' same
    induction later with
    | refl => exact ⟨soundLeaders reached, .inr ⟨rfl, .inr ⟨leads, prefix_refl _⟩⟩⟩
    | step _ whole taken ih =>
      obtain ⟨sound, keeps⟩ := ih.1.next whole taken
      exact ⟨sound, keeps id _ _ ih.2⟩
  rcases run.2 with past | ⟨-, follower | ⟨-, part⟩⟩
  · omega
  · rw [leads'] at follower
    cases follower
  · exact part

/-- `a` leads term 1 while a request of `b` for term 1 comes, and takes a proposal. -/
theorem leader_appendsOnly_proposal : ∃ s s' : Cluster emptyFSM,
    Reach (Cluster.next trio) NoCompaction {} s ∧ Reach (Cluster.next trio) NoCompaction s s' ∧
    ((s.nodes [97]).log.entries, (s'.nodes [97]).log.entries, (s'.nodes [97]).role) =
      ([dummy, ⟨1, 1, {}⟩], [dummy, ⟨1, 1, {}⟩, ⟨2, 1, { type := .commit, txnID := 1 }⟩], .leader) ∧
    AppendsOnly s s' := by
  let x : Command := { type := .commit, txnID := 1 }
  obtain ⟨s, s', reached, later, logs⟩ := Reach.exists_of_segments (Cluster.next (F := emptyFSM) trio)
    NoCompaction NoCompaction {} [.timeout [97], .timeout [98], .deliver 1, .receive 1 0]
    [.deliver 2, .proposeTest [97] x, .proposeAppend [97] 0]
    (fun s s' => ((s.nodes [97]).log.entries, (s'.nodes [97]).log.entries, (s'.nodes [97]).role) =
      ([dummy, ⟨1, 1, {}⟩], [dummy, ⟨1, 1, {}⟩, ⟨2, 1, x⟩], .leader)) (by decide)
  exact ⟨s, s', reached, later, logs, leader_appendsOnly emptyFSM trio s s' reached later⟩

end TransactionManager.Raft
