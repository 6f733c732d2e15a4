import TransactionManager.Raft.AppendOnly
import TransactionManager.Raft.Safety

/-!
# Later leaders have what was committed

The entries that a leader's commit index covers, and the leaders of later terms, in two states of
one run. The records of the safety proof only grow along a run, so what was chosen in the earlier
state is chosen in the later one. A leader's log has an entry of its own term behind everything it
was elected with; that is where a later leader's log ends to be part of what was chosen before it.
-/

namespace TransactionManager.Raft
open Lib List

variable {F : FSM}

def Recorded (m : Membership) (g : LeaderLogs) (acks : Acks) (s : Cluster F) : Prop :=
  ∃ votes voteLogs, Elections m votes s ∧ Matching g s ∧ Safety m votes g acks voteLogs s ∧ Leaders s

/-- A cluster whose records have grown from those of an earlier state. -/
def GrownFrom (m : Membership) (g : LeaderLogs) (acks : Acks) (s : Cluster F) : Prop :=
  ∃ g' acks', Grows g g' acks acks' ∧ Recorded m g' acks' s

section
variable {m : Membership} {g g' g'' : LeaderLogs} {acks acks' acks'' : Acks} {s s' : Cluster F}

theorem Grows.trans (first : Grows g g' acks acks') (second : Grows g' g'' acks' acks'') : Grows g g'' acks acks'' :=
  ⟨fun t => (first.logs t).trans (second.logs t), fun v t => (first.stored v t).trans (second.stored v t)⟩

theorem GrownFrom.move {L : Law} (grown : GrownFrom m g acks s) (leads : L.leads) (clean : L.clean)
    (honest : L.honest) (plain : L.plain) (move : Move L m s s') : GrownFrom m g acks s' := by
  obtain ⟨g₁, acks₁, grows, votes, voteLogs, elections, logs, inv, leaders⟩ := grown
  obtain ⟨votes', g₂, acks₂, voteLogs', grows', elections', logs', inv'⟩ :=
    inv.move elections logs leads clean honest plain move
  have leaders' := leaders.keep (leaders.onward elections plain move)
  exact ⟨g₂, acks₂, grows.trans grows', votes', voteLogs', elections', logs', inv', leaders'⟩

theorem Recorded.start (m : Membership) : ∃ g acks, Recorded m g acks ({} : Cluster F) := by
  obtain ⟨votes, g, acks, voteLogs, elections, logs, inv⟩ := SoundCluster.start (F := F) m
  exact ⟨g, acks, votes, voteLogs, elections, logs, inv, Leaders.start⟩

/-- Along a run the records grow. -/
theorem Recorded.run (recorded : Recorded m g acks s) (reached : Reach (Cluster.next m) Acknowledged s s') :
    GrownFrom m g acks s' := by
  refine reached.invariant ⟨g, acks, .refl .., recorded⟩ fun s a s' grown ok taken => ?_
  have moves := moves_of_next (L := ⟨True, True, True, True, fun _ => True⟩) (fun _ => ok.1.1) (fun _ => ok.1.2.1)
    (fun _ => ok.2) (fun _ => ok.1.2.2) (fun _ _ => trivial) taken
  refine moves.invariant ?_ grown
  exact fun s s' grown move => grown.move trivial trivial trivial trivial move

/-- What was chosen up to a term is in every log with which a later leader can be found. -/
theorem Records.chosen_of_own {voteLogs : VoteLogs} (records : Records m g acks voteLogs) {t u : Nat}
    {p ℓ : List Entry} (chosen : Chosen m g acks t p) (long : 1 < p.length) (old : ∀ e ∈ p, e.term ≤ t)
    (part : ℓ <+: g u) (own : ∃ e ∈ ℓ, e.term = u) (later : t < u) : p <+: ℓ := by
  obtain ⟨e, mem, term⟩ := own
  have some : g u ≠ [] := ne_nil_of_mem (part.subset mem)
  have whole := records.chosen_isPrefix chosen long later.le some
  rcases List.prefix_or_prefix_of_prefix whole part with inside | beyond
  · exact inside
  · have := old e (beyond.subset mem)
    omega

/-- What a leader's commit index covers is chosen, and not newer than the leader's term. -/
theorem Recorded.covered (recorded : Recorded m g acks s) {id : NodeID} {i : Nat}
    (covers : i ≤ (s.nodes id).commitIndex) :
    Chosen m g acks (s.nodes id).term ((s.nodes id).log.entries.take (i + 1)) ∧
      ∀ e ∈ (s.nodes id).log.entries.take (i + 1), e.term ≤ (s.nodes id).term := by
  obtain ⟨votes, voteLogs, -, logs, inv, -⟩ := recorded
  refine ⟨((inv.node id).commit.lower covers).2, fun e mem => ?_⟩
  exact (logs.node id).bound e (mem_of_mem_take mem)

end

/-- What the commit index of a leader covers in `s` is in the logs of the leaders of later terms
in `s'`. -/
def CommittedIn (s s' : Cluster F) : Prop := ∀ id id' i e, (s.nodes id).role = .leader → i ≤ (s.nodes id).commitIndex →
    (s.nodes id).log.get i = some e → (s'.nodes id').role = .leader →
    (s.nodes id).term < (s'.nodes id').term → (s'.nodes id').log.get i = some e

/-- Of two states of one run, whichever came first. -/
def LeaderCompleteness (s s' : Cluster F) : Prop := CommittedIn s s' ∧ CommittedIn s' s

section
variable {m : Membership} {g g₁ g₂ : LeaderLogs} {acks acks₁ acks₂ : Acks} {s s' : Cluster F}

/-- Two states whose records have grown into those of one state. -/
theorem CommittedIn.of_recorded {voteLogs : VoteLogs} (one : Recorded m g₁ acks₁ s)
    (two : Recorded m g₂ acks₂ s') (grows : Grows g₁ g acks₁ acks) (grows' : Grows g₂ g acks₂ acks)
    (records : Records m g acks voteLogs) : CommittedIn s s' := by
  intro id id' i e leads covers found leads' later
  obtain ⟨chosen, old⟩ := one.covered covers
  obtain ⟨-, -, -, logs, -, -⟩ := one
  obtain ⟨-, -, -, logs', -, leaders'⟩ := two
  have sound := (logs.node id).sound
  have sound' := (logs'.node id').sound
  rw [RaftLog.get_eq sound] at found
  rw [RaftLog.get_eq sound']
  cases i with
  | zero =>
    rw [sound.first] at found
    rw [sound'.first, found]
  | succ i =>
    have here : ((s.nodes id).log.entries.take (i + 1 + 1))[i + 1]? = some e := by
      rw [getElem?_take, if_pos (Nat.lt_succ_self _), found]
    have long : 1 < ((s.nodes id).log.entries.take (i + 1 + 1)).length := by
      have := (List.getElem?_eq_some_iff.1 here).1
      omega
    have part : (s'.nodes id').log.entries <+: g (s'.nodes id').term := (logs'.leader id' leads').2 ▸ grows'.logs _
    have inside := records.chosen_of_own (chosen.mono grows.logs grows.stored le_rfl) long old part
      (leaders'.leader id' leads').2 later
    exact getElem?_of_isPrefix inside here

end

/-- In every run whose steps are orderly and acknowledge only what is stored, the leaders of later
terms have every entry that a leader's commit index covers. -/
theorem leaderCompleteness_of_acknowledged (F : FSM) (m : Membership) (s s' : Cluster F)
    (reached : Reach (Cluster.next m) Acknowledged {} s)
    (later : Reach (Cluster.next m) Acknowledged s s') : LeaderCompleteness s s' := by
  obtain ⟨g₀, acks₀, start⟩ := Recorded.start (F := F) m
  obtain ⟨g₁, acks₁, -, one⟩ := start.run reached
  obtain ⟨g₂, acks₂, grows, two⟩ := one.run later
  have now := two
  obtain ⟨votes, voteLogs, -, -, inv, -⟩ := now
  exact ⟨.of_recorded one two grows (.refl ..) inv.toRecords, .of_recorded two one (.refl ..) grows inv.toRecords⟩

/-- `a` commits its entry of term 1 with `b`; `b` is elected by `c` in term 2 and has the entry. -/
theorem leaderCompleteness_handover : ∃ s s' : Cluster emptyFSM,
    Reach (Cluster.next trio) Acknowledged {} s ∧ Reach (Cluster.next trio) Acknowledged s s' ∧
    (((s.nodes [97]).role, (s.nodes [97]).commitIndex), (s'.nodes [98]).role, (s'.nodes [98]).log.entries) =
      ((.leader, 1), .leader, [dummy, { index := 1, term := 1 }, { index := 2, term := 2 }]) ∧
    LeaderCompleteness s s' := by
  obtain ⟨s, s', reached, later, seen⟩ := Reach.exists_of_segments (Cluster.next (F := emptyFSM) trio)
    Acknowledged Acknowledged {}
    [.timeout [97], .deliver 0, .receive 0 0, .replicate [97] [98], .deliver 2, .receive 2 1]
    [.timeout [98], .deliver 4, .receive 4 2]
    (fun s s' => (((s.nodes [97]).role, (s.nodes [97]).commitIndex), (s'.nodes [98]).role,
      (s'.nodes [98]).log.entries) =
        ((.leader, 1), .leader, [dummy, { index := 1, term := 1 }, { index := 2, term := 2 }])) (by decide)
  exact ⟨s, s', reached, later, seen, leaderCompleteness_of_acknowledged emptyFSM trio s s' reached later⟩

/-- `b`, elected by `c` in term 2, sends its entry to `a`, which cuts its entry of term 1, does not store the new one
and reports success; `b` commits. Then `a` elects `c` in term 3, which has never seen the entry. -/
theorem not_leaderCompleteness : ¬ ∀ (F : FSM) (m : Membership) (s s' : Cluster F),
    Reach (Cluster.next m) NoCompaction {} s → Reach (Cluster.next m) NoCompaction s s' →
    LeaderCompleteness s s' := by
  intro claim
  obtain ⟨s, s', reached, later, leads, covers, found, leads', newer, other⟩ :=
    Reach.exists_of_segments (Cluster.next (F := emptyFSM) trio) NoCompaction NoCompaction {}
    [.timeout [97], .deliver 0, .receive 0 0, .timeout [98], .deliver 3, .receive 3 1,
      .replicate [98] [97], .deliver 4, .receive 4 2]
    [.timeout [99], .deliver 5, .receive 5 3]
    (fun s s' => (s.nodes [98]).role = .leader ∧ 1 ≤ (s.nodes [98]).commitIndex ∧
      (s.nodes [98]).log.get 1 = some { index := 1, term := 2 } ∧ (s'.nodes [99]).role = .leader ∧
      (s.nodes [98]).term < (s'.nodes [99]).term ∧
      (s'.nodes [99]).log.get 1 = some { index := 1, term := 3 }) (by decide)
  have same := (claim emptyFSM trio s s' reached later).1 _ _ _ _ leads covers found leads' newer
  rw [other] at same
  exact absurd (congrArg (Option.map Entry.term) same) (by decide)

end TransactionManager.Raft
