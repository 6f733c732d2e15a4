import TransactionManager.Raft.Completeness

/-!
# State machine safety

Every node keeps what it has stored unless a later leader lacks it; what a node has committed,
or picked for its FSM, is part of what a majority has stored. So two nodes pass equal entries
of one index to their FSMs. Beyond what log matching needs, a leader must not take the success
of a delivery that cut the log for an acknowledgement of the entries: the append loop does not
store the entry at which it cuts.
-/

namespace TransactionManager.Raft
open Lib List Function Option Cluster RaftLog Node

variable {F : FSM}

/-- The log of a node has this index, and what it holds up to it is chosen. -/
def Safe (m : Membership) (g : LeaderLogs) (acks : Acks) (n : Node F) (i : Nat) : Prop :=
  i < n.log.entries.length ∧ Chosen m g acks n.term (n.log.entries.take (i + 1))

/-- What a node has stored, knows of its peers, and has committed. -/
structure NodeSafe (m : Membership) (g : LeaderLogs) (acks : Acks) (id : NodeID) (n : Node F) : Prop where
  kept : ∀ t k, k ≤ acks id t → Keeps g t k (n.term + 1) n.log.entries
  term : ∀ t, 0 < acks id t → t ≤ n.term
  lead : n.role = .leader → n.log.entries.length ≤ acks id n.term
  peers : n.role = .leader → ∀ peer k, n.matchIndex.get peer = some k → k = 0 ∨ k < acks peer n.term
  commit : Safe m g acks n n.commitIndex
  pick : ∀ i, n.phase = .picked i → 0 < i ∧ Safe m g acks n i

structure Safety (m : Membership) (votes : Votes) (g : LeaderLogs) (acks : Acks)
    (voteLogs : VoteLogs) (s : Cluster F) : Prop extends Records m g acks voteLogs where
  node : ∀ id, NodeSafe m g acks id (s.nodes id)
  ballot : ∀ v u ℓ, voteLogs v u = some ℓ → u ≤ (s.nodes v).term
  votes : ∀ v t c, votes v t = some c → t ≤ (s.nodes c).term ∧ (g t = [] →
    ∃ ℓ, voteLogs v t = some ℓ ∧ ((s.nodes c).role = .candidate → (s.nodes c).term = t →
      UpToDate (s.nodes c).log.entries ℓ))
  asked : ∀ c src dst args, Asks s c src dst args → (s.nodes src).role = .candidate →
    (s.nodes src).term = args.term → (s.nodes src).log.lastIndex = some args.lastLogIndex ∧
      (s.nodes src).log.lastTerm = some args.lastLogTerm
  answered : ∀ a ∈ s.answers, ∀ reply, a.reply = .append reply → reply.success = true →
    a.cut = false → ∃ call args, s.calls[a.call]? = some call ∧ call.request = .append args ∧
      args.prevLogIndex + args.entries.length < acks call.dst args.term
  sent : ∀ call ∈ s.calls, ∀ args, call.request = .append args →
    args.leaderCommit ≤ args.prevLogIndex + args.entries.length ∧
    args.leaderCommit < (g args.term).length ∧
    Chosen m g acks args.term ((g args.term).take (args.leaderCommit + 1))
  applied : ∀ id e, .applied id e ∈ s.history → ∃ t k, Committed m g acks t k ∧ ((g t).take (k + 1))[e.index]? = some e

/-- Leaders only append, and what has been stored stays acknowledged. -/
structure Grows (g g' : LeaderLogs) (acks acks' : Acks) : Prop where
  logs : ∀ t, g t <+: g' t
  stored : ∀ v t, acks v t ≤ acks' v t

section
variable {m : Membership} {votes votes' : Votes} {g g' : LeaderLogs} {acks acks' : Acks} {voteLogs : VoteLogs}
  {s s' : Cluster F} {t k i term index c : Nat} {ℓ : List Entry} {n n' : Node F} {id : NodeID} {e : Entry}
  {call : Call F} {args : AppendEntriesArgs} {L : Law}

theorem Keeps.mono {stop stop' : Nat} {ℓ' : List Entry} (keeps : Keeps g t k stop ℓ)
    (later : stop ≤ stop') (part : ℓ <+: ℓ') : Keeps g t k stop' ℓ' := fun have' =>
  (keeps fun w low high some => have' w low (by omega) some).trans part

theorem Grows.refl (g : LeaderLogs) (acks : Acks) : Grows g g acks acks := ⟨fun _ => prefix_refl _, fun _ _ => le_rfl⟩

theorem Safe.mono (safe : Safe m g acks n i) (grows : Grows g g' acks acks') (later : n.term ≤ n'.term)
    (part : n.log.entries <+: n'.log.entries) : Safe m g' acks' n' i := by
  refine ⟨safe.1.trans_le part.length_le, ?_⟩
  rw [show n'.log.entries.take (i + 1) = n.log.entries.take (i + 1) from ?_]
  · exact safe.2.mono grows.logs grows.stored later
  · obtain ⟨rest, eq⟩ := part
    rw [← eq, take_append_of_le_length safe.1]

theorem Safe.of_same (safe : Safe m g acks n i)
    (later : n.term ≤ n'.term) (log : n'.log = n.log) : Safe m g acks n' i :=
  safe.mono (.refl ..) later (log ▸ prefix_refl _)

theorem Safe.zero (sound : Sound g n.log.entries) : Safe m g acks n 0 :=
  ⟨length_pos_iff.2 sound.ne, .inl (by rw [length_take]; omega)⟩

theorem Safe.lower {j : Nat} (safe : Safe m g acks n j) (low : i ≤ j) : Safe m g acks n i := by
  refine ⟨low.trans_lt safe.1, safe.2.of_isPrefix ?_⟩
  exact take_prefix_take_left (by omega)

theorem NodeSafe.of_same (safe : NodeSafe m g acks id n) (log : n'.log = n.log) (later : n.term ≤ n'.term)
    (lead : n'.role = .leader → n.role = .leader ∧ n'.term = n.term ∧ n'.matchIndex = n.matchIndex)
    (commit : Safe m g acks n' n'.commitIndex)
    (pick : ∀ i, n'.phase = .picked i → 0 < i ∧ Safe m g acks n' i) : NodeSafe m g acks id n' where
  kept t k stored := (safe.kept t k stored).mono (by omega) (log ▸ prefix_refl _)
  term t stored := (safe.term t stored).trans later
  lead leads := by
    obtain ⟨led, term, -⟩ := lead leads
    rw [log, term]
    exact safe.lead led
  peers leads := by
    obtain ⟨led, term, index⟩ := lead leads
    rw [index, term]
    exact safe.peers led
  commit := commit
  pick := pick

theorem NodeSafe.grow (safe : NodeSafe m g acks id n) (grows : Grows g g' acks acks')
    (kept : ∀ t k, k ≤ acks' id t → Keeps g' t k (n.term + 1) n.log.entries)
    (term : ∀ t, 0 < acks' id t → t ≤ n.term) : NodeSafe m g' acks' id n where
  kept := kept
  term := term
  lead leads := (safe.lead leads).trans (grows.stored ..)
  peers leads peer k known := (safe.peers leads peer k known).imp_right fun less => less.trans_le (grows.stored ..)
  commit := safe.commit.mono grows le_rfl (prefix_refl _)
  pick i picked := (safe.pick i picked).imp_right fun old => old.mono grows le_rfl (prefix_refl _)

section
variable (inv : Safety m votes g acks voteLogs s)
include inv

namespace Safety

/-- The records grow, and nodes change. Who runs did so before, with the same log. -/
theorem change (grows : Grows g g' acks acks')
    (records : Records m g' acks' voteLogs) (node : ∀ v, NodeSafe m g' acks' v (s'.nodes v))
    (later : ∀ v, (s.nodes v).term ≤ (s'.nodes v).term)
    (runs : ∀ v, (s'.nodes v).role = .candidate → (s.nodes v).role = .candidate ∧
      (s'.nodes v).term = (s.nodes v).term ∧ (s'.nodes v).log = (s.nodes v).log)
    (calls : s'.calls = s.calls) (answers : s'.answers = s.answers)
    (applied : ∀ v x, .applied v x ∈ s'.history → .applied v x ∈ s.history) :
    Safety m votes g' acks' voteLogs s' := by
  refine { records with node, ballot := ?_, votes := ?_, asked := ?_, answered := ?_, sent := ?_, applied := ?_ }
  · exact fun v u ℓ ballot => (inv.ballot v u ℓ ballot).trans (later v)
  · intro v t c voted
    obtain ⟨past, log⟩ := inv.votes v t c voted
    refine ⟨past.trans (later c), fun none => ?_⟩
    obtain ⟨ℓ, ballot, upToDate⟩ := log (prefix_nil.1 (none ▸ grows.logs t))
    refine ⟨ℓ, ballot, fun role term => ?_⟩
    obtain ⟨ran, same, log⟩ := runs c role
    rw [log]
    exact upToDate ran (same ▸ term)
  · intro c src dst args asks role term
    obtain ⟨ran, same, log⟩ := runs src role
    rw [log]
    unfold Asks at asks
    rw [calls] at asks
    exact inv.asked c src dst args asks ran (same ▸ term)
  · intro a mem reply replied yes uncut
    obtain ⟨call, args, made, asked, less⟩ := inv.answered a (answers ▸ mem) reply replied yes uncut
    exact ⟨call, args, calls ▸ made, asked, less.trans_le (grows.stored ..)⟩
  · intro call mem args asked
    obtain ⟨fits, less, chosen⟩ := inv.sent call (calls ▸ mem) args asked
    refine ⟨fits, less.trans_le (grows.logs _).length_le, ?_⟩
    obtain ⟨tail, eq⟩ := grows.logs args.term
    rw [← eq, take_append_of_le_length less]
    exact chosen.mono grows.logs grows.stored le_rfl
  · intro v x mem
    obtain ⟨w, k, committed, at'⟩ := inv.applied v x (applied v x mem)
    exact ⟨w, k, committed.mono grows.logs grows.stored, getElem?_of_isPrefix ((grows.logs w).take _) at'⟩

theorem set (node : NodeSafe m g acks id n') (later : (s.nodes id).term ≤ n'.term)
    (candidate : n'.role = .candidate → (s.nodes id).role = .candidate ∧
      n'.term = (s.nodes id).term ∧ n'.log = (s.nodes id).log) :
    Safety m votes g acks voteLogs (s.set id n') := by
  refine inv.change (.refl ..) inv.toRecords (fun v => ?_) (fun v => ?_) (fun v => ?_) rfl rfl fun _ _ mem => mem
  · exact nodes_set_elim v node fun _ => inv.node v
  · exact nodes_set_elim (motive := fun v n => (s.nodes v).term ≤ n.term) v later fun _ => le_rfl
  · exact nodes_set_elim (motive := fun v n => n.role = .candidate → (s.nodes v).role = .candidate ∧
      n.term = (s.nodes v).term ∧ n.log = (s.nodes v).log) v candidate fun _ role => ⟨role, rfl, rfl⟩

theorem set_same (term : n'.term = (s.nodes id).term) (role : n'.role = (s.nodes id).role)
    (log : n'.log = (s.nodes id).log) (index : n'.matchIndex = (s.nodes id).matchIndex)
    (commit : Safe m g acks (s.nodes id) n'.commitIndex)
    (pick : ∀ i, n'.phase = .picked i → 0 < i ∧ Safe m g acks (s.nodes id) i) :
    Safety m votes g acks voteLogs (s.set id n') :=
  inv.set ((inv.node id).of_same log term.ge (fun leads => ⟨role ▸ leads, term, index⟩)
    (commit.of_same term.ge log) fun i picked => (pick i picked).imp_right (·.of_same term.ge log))
    term.ge fun runs => ⟨role ▸ runs, term, log⟩

theorem set_follower (later : (s.nodes id).term ≤ n'.term) (role : n'.role = .follower)
    (log : n'.log = (s.nodes id).log) (commit : Safe m g acks (s.nodes id) n'.commitIndex)
    (pick : ∀ i, n'.phase = .picked i → 0 < i ∧ Safe m g acks (s.nodes id) i) :
    Safety m votes g acks voteLogs (s.set id n') := by
  refine inv.set ((inv.node id).of_same log later ?_ (commit.of_same later log) fun i picked =>
    (pick i picked).imp_right (·.of_same later log)) later ?_ <;>
  · rw [role]
    nofun

theorem answer {a : Answer} (honest : ∀ reply, a.reply = .append reply → reply.success = true → a.cut = false →
      ∃ call args, s.calls[a.call]? = some call ∧ call.request = .append args ∧
        args.prevLogIndex + args.entries.length < acks call.dst args.term) :
    Safety m votes g acks voteLogs (s.answer a) := by
  exact { inv with answered := forall_mem_append.2 ⟨inv.answered, forall_mem_singleton.2 honest⟩ }

theorem record {x : Event}
    (chosen : ∀ id e, x = .applied id e → ∃ t k, Committed m g acks t k ∧ ((g t).take (k + 1))[e.index]? = some e) :
    Safety m votes g acks voteLogs (s.record x) := by
  refine { inv with applied := ?_ }
  intro id e mem
  rcases mem_append.1 mem with old | new
  · exact inv.applied id e old
  · exact chosen id e (mem_singleton.1 new).symm

theorem send {calls : List (Call F)} (asked : ∀ call ∈ calls, ∀ args, call.request = .vote args → call.src = id →
      (s.nodes id).role = .candidate → (s.nodes id).term = args.term →
      (s.nodes id).log.lastIndex = some args.lastLogIndex ∧
        (s.nodes id).log.lastTerm = some args.lastLogTerm) (own : ∀ call ∈ calls, call.src = id)
    (sent : ∀ call ∈ calls, ∀ args, call.request = .append args →
      args.leaderCommit ≤ args.prevLogIndex + args.entries.length ∧
      args.leaderCommit < (g args.term).length ∧
      Chosen m g acks args.term ((g args.term).take (args.leaderCommit + 1))) :
    Safety m votes g acks voteLogs (s.send id calls) := by
  have waits : Safety m votes g acks voteLogs (s.set id { s.nodes id with
      waiting := (s.nodes id).waiting ++ List.range' s.calls.length calls.length }) :=
    inv.set_same rfl rfl rfl rfl (inv.node id).commit (inv.node id).pick
  have here := nodes_send_self s id calls
  refine { inv.toRecords with
    node := waits.node, ballot := waits.ballot, votes := waits.votes, applied := waits.applied
    asked := ?_, answered := ?_, sent := ?_ }
  · intro c src dst args asks
    unfold Asks at asks
    rw [show (s.send id calls).calls = s.calls ++ calls from rfl, getElem?_append] at asks
    split at asks
    · exact waits.asked c src dst args asks
    · have mem := mem_of_getElem? asks
      have eq : src = id := own _ mem
      rw [eq, here]
      exact asked _ mem args rfl eq
  · intro a mem reply replied yes uncut
    obtain ⟨call, args, made, rest⟩ := inv.answered a mem reply replied yes uncut
    exact ⟨call, args, (List.getElem?_append_left (List.getElem?_eq_some_iff.1 made).1).trans made, rest⟩
  · exact forall_mem_append.2 ⟨inv.sent, sent⟩

end Safety

end

def VoteLogs.give (voteLogs : VoteLogs) (id : NodeID) (term : Nat) (ℓ : List Entry) : VoteLogs :=
  fun v t => if v = id ∧ t = term then some ℓ else voteLogs v t

theorem VoteLogs.give_self (voteLogs : VoteLogs) (id : NodeID) (term : Nat) (ℓ : List Entry) :
    voteLogs.give id term ℓ id term = some ℓ := if_pos ⟨rfl, rfl⟩

theorem VoteLogs.give_of_ne (voteLogs : VoteLogs) {v : NodeID} (ℓ : List Entry)
    (ne : ¬ (v = id ∧ t = term)) : voteLogs.give id term ℓ v t = voteLogs v t := if_neg ne

/-- A node votes with its log in a term without a leader, or in which it has not voted. -/
theorem Records.give (records : Records m g acks voteLogs) (sound : Sound g ℓ)
    (keeps : ∀ t < term, ∀ k ≤ acks id t, Keeps g t k term ℓ) (free : g term = [] ∨ voteLogs id term = none) :
    Records m g acks (voteLogs.give id term ℓ) := by
  refine { records with voted := ?_, led := ?_ }
  · intro v u ℓ' ballot
    by_cases here : v = id ∧ u = term
    · obtain ⟨rfl, rfl⟩ := here
      rw [VoteLogs.give_self] at ballot
      cases ballot
      exact ⟨sound, keeps⟩
    · rw [VoteLogs.give_of_ne _ _ here] at ballot
      exact records.voted v u ℓ' ballot
  · intro u pos some
    obtain ⟨voters, log, majority, part, sound, old, voted⟩ := records.led u pos some
    refine ⟨voters, log, majority, part, sound, old, fun v mem => ?_⟩
    obtain ⟨ℓ', ballot, upToDate⟩ := voted v mem
    refine ⟨ℓ', ?_, upToDate⟩
    rw [VoteLogs.give_of_ne, ballot]
    rintro ⟨rfl, rfl⟩
    rcases free with none | none
    · exact some none
    · rw [none] at ballot
      cases ballot

theorem UpToDate.refl {l : List Entry} (some : l ≠ []) : UpToDate l l :=
  ⟨_, _, getLast?_eq_some_getLast some, getLast?_eq_some_getLast some, .inr ⟨rfl, le_rfl⟩⟩

/-- A candidate votes for itself with its log. -/
theorem Safety.campaign (inv : Safety m votes g acks voteLogs s) (elections : Elections m votes s)
    (logs : Matching g s) (id : NodeID) :
    Safety m (votes.give id ((s.nodes id).term + 1) id) g acks
      (voteLogs.give id ((s.nodes id).term + 1) (s.nodes id).log.entries)
      (s.set id ((s.nodes id).campaign id)) := by
  have sound := (logs.node id).sound
  have none : voteLogs id ((s.nodes id).term + 1) = none := by
    cases ballot : voteLogs id ((s.nodes id).term + 1) with
    | none => rfl
    | some ℓ => exact absurd (inv.ballot _ _ _ ballot) (Nat.not_succ_le_self _)
  have here := nodes_set_self s id ((s.nodes id).campaign id)
  have elsewhere {other : NodeID} (ne : other ≠ id) := nodes_set_of_ne s ((s.nodes id).campaign id) ne
  have high (other : NodeID) : (s.nodes other).term ≤ ((s.set id ((s.nodes id).campaign id)).nodes other).term :=
    nodes_set_elim (motive := fun v n => (s.nodes v).term ≤ n.term) other (Nat.le_succ _) fun _ => le_rfl
  have safe : NodeSafe m g acks id ((s.nodes id).campaign id) :=
    (inv.node id).of_same rfl (Nat.le_succ _) (nofun)
      ((inv.node id).commit.of_same (Nat.le_succ _) rfl) fun i picked =>
        ((inv.node id).pick i picked).imp_right (·.of_same (Nat.le_succ _) rfl)
  have records := inv.toRecords.give sound (fun t _ k stored => (inv.node id).kept t k stored) (.inr none)
  refine { records with
    node := ?_, ballot := ?_, votes := ?_, asked := ?_
    answered := inv.answered, sent := inv.sent, applied := inv.applied }
  · exact fun other => nodes_set_elim other safe fun _ => inv.node other
  · intro v u ℓ ballot
    by_cases at' : v = id ∧ u = (s.nodes id).term + 1
    · rw [at'.1, here, at'.2]
      exact le_rfl
    · rw [VoteLogs.give_of_ne _ _ at'] at ballot
      exact (inv.ballot v u ℓ ballot).trans (high v)
  · intro v t c voted
    by_cases at' : v = id ∧ t = (s.nodes id).term + 1
    · rw [at'.1, at'.2, Votes.give_self] at voted
      cases voted
      rw [at'.1, at'.2, here, VoteLogs.give_self]
      exact ⟨le_rfl, fun _ => ⟨_, rfl, fun _ _ => .refl sound.ne⟩⟩
    · rw [Votes.give_of_ne _ _ at'] at voted
      rw [VoteLogs.give_of_ne _ _ at']
      obtain ⟨past, log⟩ := inv.votes v t c voted
      refine ⟨past.trans (high c), fun none => ?_⟩
      obtain ⟨ℓ, ballot, upToDate⟩ := log none
      refine ⟨ℓ, ballot, fun role term => ?_⟩
      by_cases self : c = id
      · rw [self] at past
        rw [self, here] at term
        exact absurd (term.le.trans past) (Nat.not_succ_le_self _)
      · rw [elsewhere self] at role term ⊢
        exact upToDate role term
  · intro c src dst args asks role term
    by_cases self : src = id
    · have past := (elections.asked c src dst args asks).2.2.2.2
      rw [self] at past
      rw [self, here] at term
      exact absurd (term.le.trans past) (Nat.not_succ_le_self _)
    · rw [elsewhere self] at role term ⊢
      exact inv.asked c src dst args asks role term

theorem upToDate_of_last (sound : Sound g n.log.entries) (sound' : Sound g n'.log.entries)
    {index' term' : Nat} (last : n.log.lastIndex = some index)
    (lastTerm : n.log.lastTerm = some term) (last' : n'.log.lastIndex = some index')
    (lastTerm' : n'.log.lastTerm = some term') (newer : term' < term ∨ term = term' ∧ index' ≤ index) :
    UpToDate n.log.entries n'.log.entries := by
  have length := lastIndex_eq sound last
  have length' := lastIndex_eq sound' last'
  obtain ⟨e, at', rfl⟩ := map_eq_some_iff.1 lastTerm
  obtain ⟨e', at'', rfl⟩ := map_eq_some_iff.1 lastTerm'
  refine ⟨e, e', at', at'', newer.imp_right fun same => ⟨same.1, ?_⟩⟩
  omega

/-- A node grants its vote. Its log is recorded if the term has no leader yet. -/
theorem Safety.grant (inv : Safety m votes g acks voteLogs s) (elections : Elections m votes s)
    (logs : Matching g s) {src dst : NodeID} {args : RequestVoteArgs} {lastTerm lastIndex : Nat}
    (asks : Asks s c src dst args) (same : (s.nodes dst).term = args.term)
    (term : (s.nodes dst).log.lastTerm = some lastTerm) (index : (s.nodes dst).log.lastIndex = some lastIndex)
    (upToDate : lastTerm < args.lastLogTerm ∨ args.lastLogTerm = lastTerm ∧ lastIndex ≤ args.lastLogIndex) :
    ∃ voteLogs', Safety m (votes.give dst args.term args.candidateID) g acks voteLogs'
      (s.set dst ((s.nodes dst).vote args.candidateID)) := by
  have set : Safety m votes g acks voteLogs (s.set dst ((s.nodes dst).vote args.candidateID)) :=
    inv.set_same rfl rfl rfl rfl (inv.node dst).commit (inv.node dst).pick
  obtain ⟨own, -, -, ne, past⟩ := elections.asked c src dst args asks
  have there : (s.set dst ((s.nodes dst).vote args.candidateID)).nodes src = s.nodes src := nodes_set_of_ne _ _ ne.symm
  by_cases none : g args.term = []
  · have keeps : ∀ t < args.term, ∀ k ≤ acks dst t, Keeps g t k args.term (s.nodes dst).log.entries := by
      intro t _ k stored have'
      refine (inv.node dst).kept t k stored fun w low high some => have' w low ?_ some
      rcases Nat.lt_or_ge w args.term with less | more
      · exact less
      · rw [show w = args.term by omega] at some
        exact absurd none some
    refine ⟨voteLogs.give dst args.term (s.nodes dst).log.entries,
      { inv.toRecords.give (logs.node dst).sound keeps (.inl none) with
        node := set.node, ballot := ?_, votes := ?_, asked := set.asked
        answered := inv.answered, sent := inv.sent, applied := inv.applied }⟩
    · intro v u ℓ ballot
      by_cases at' : v = dst ∧ u = args.term
      · rw [at'.1, at'.2, nodes_set_self, ← same]
        exact le_rfl
      · rw [VoteLogs.give_of_ne _ _ at'] at ballot
        exact set.ballot v u ℓ ballot
    · intro v t c' voted
      by_cases at' : v = dst ∧ t = args.term
      · rw [at'.1, at'.2, Votes.give_self, own] at voted
        cases voted
        rw [at'.1, at'.2, there, VoteLogs.give_self]
        refine ⟨past, fun _ => ⟨_, rfl, fun role now => ?_⟩⟩
        obtain ⟨last, lastTerm'⟩ := inv.asked c src dst args asks role now
        exact upToDate_of_last (logs.node src).sound (logs.node dst).sound last lastTerm' index term upToDate
      · rw [Votes.give_of_ne _ _ at'] at voted
        rw [VoteLogs.give_of_ne _ _ at']
        exact set.votes v t c' voted
  · refine ⟨voteLogs, { set with votes := ?_ }⟩
    intro v t c' voted
    by_cases at' : v = dst ∧ t = args.term
    · rw [at'.1, at'.2, Votes.give_self, own] at voted
      cases voted
      rw [at'.2, there]
      exact ⟨past, fun empty => absurd empty none⟩
    · rw [Votes.give_of_ne _ _ at'] at voted
      exact set.votes v t c' voted

/-- A leader's log grows by an entry of its term, which is not in what was stored before. -/
theorem Keeps.extend {u stop : Nat} {log : List Entry} (keeps : Keeps g u k stop log)
    (terms : ∀ x ∈ g u, x.term ≤ u) (before : g t = [] ∨ g t = ℓ) (own : e.term = t)
    (fits : k ≤ (g u).length) : Keeps (update g t (ℓ ++ [e])) u k stop log := by
  have now : update g t (ℓ ++ [e]) t = ℓ ++ [e] := update_self ..
  have rest {w : Nat} (ne : w ≠ t) : update g t (ℓ ++ [e]) w = g w := update_of_ne ne ..
  have same : (update g t (ℓ ++ [e]) u).take k = (g u).take k := by
    by_cases eq : u = t
    · subst eq
      rw [now]
      rcases before with empty | whole
      · rw [empty, length_nil] at fits
        rw [Nat.le_zero.1 fits, take_zero, take_zero]
      · rw [whole] at fits ⊢
        exact take_append_of_le_length fits
    · rw [rest eq]
  unfold Keeps
  rw [same]
  refine fun have' => keeps fun w low high some => ?_
  by_cases eq : w = t
  · subst eq
    have whole := before.resolve_left some
    have part := have' w low high (by rw [now]; simp)
    rw [now] at part
    rw [whole]
    rcases Nat.lt_or_ge ℓ.length ((g u).take k).length with long | short
    · -- the whole new log would be older than its last entry
      have all := part.eq_of_length (by
        have := part.length_le
        rw [length_append, length_singleton] at this ⊢
        omega)
      have mem : e ∈ (g u).take k := all ▸ mem_append_right _ (mem_singleton.2 rfl)
      have := terms e (mem_of_mem_take mem)
      omega
    · exact prefix_of_prefix_length_le part (prefix_append ..) short
  · have part := have' w low high (by rwa [rest eq])
    rwa [rest eq] at part

def Acks.give (acks : Acks) (id : NodeID) (term k : Nat) : Acks :=
  fun v t => if v = id ∧ t = term then max k (acks v t) else acks v t

theorem Acks.give_self (acks : Acks) (id : NodeID) (term k : Nat) :
    acks.give id term k id term = max k (acks id term) := if_pos ⟨rfl, rfl⟩

theorem Acks.give_of_ne (acks : Acks) {v : NodeID} (k : Nat)
    (ne : ¬ (v = id ∧ t = term)) : acks.give id term k v t = acks v t := if_neg ne

theorem Acks.le_give (acks : Acks) (id : NodeID) (term k : Nat) (v : NodeID) (t : Nat) :
    acks v t ≤ acks.give id term k v t := by
  unfold give
  split
  · exact le_max_right ..
  · exact le_rfl

theorem Grows.give (g : LeaderLogs) (acks : Acks) (id : NodeID) (term k : Nat) : Grows g g acks (acks.give id term k) :=
  ⟨fun _ => prefix_refl _, acks.le_give id term k⟩

/-- The log of one leader grows, which has stored what it appends. -/
theorem Grows.extend (acks : Acks) {log : List Entry} (part : g term <+: log) (id : NodeID) (k : Nat) :
    Grows g (update g term log) acks (acks.give id term k) := by
  refine ⟨fun t => ?_, acks.le_give id term k⟩
  by_cases eq : t = term
  · rw [eq, update_self]
    exact part
  · rw [update_of_ne eq]

section
variable (inv : Safety m votes g acks voteLogs s)
include inv

/-- Who has voted in a term stores no more for earlier ones. -/
theorem Safety.give_of_ballot {v : NodeID} {u w : Nat}
    (ballot : voteLogs v u = some ℓ) (earlier : w < u) (id : NodeID) (k : Nat) :
    acks.give id (s.nodes id).term k v w = acks v w := by
  refine acks.give_of_ne k ?_
  rintro ⟨rfl, rfl⟩
  have := inv.ballot v u ℓ ballot
  omega

/-- The leader of a term appends to its log; it may be elected with that. -/
theorem Safety.extend
    (nodes : s'.nodes = (s.set id n').nodes) (calls : s'.calls = s.calls) (answers : s'.answers = s.answers)
    (applied : ∀ v x, .applied v x ∈ s'.history → .applied v x ∈ s.history)
    (before : g (s.nodes id).term = [] ∨ g (s.nodes id).term = (s.nodes id).log.entries)
    (own : e.term = (s.nodes id).term) (log : n'.log = (s.nodes id).log.append e)
    (term : n'.term = (s.nodes id).term) (role : n'.role = .leader)
    (peers : ∀ peer k, n'.matchIndex.get peer = some k → k = 0 ∨ k < acks peer (s.nodes id).term)
    (commit : n'.commitIndex = (s.nodes id).commitIndex) (phase : n'.phase = (s.nodes id).phase)
    (logs' : Matching (update g (s.nodes id).term ((s.nodes id).log.entries ++ [e])) s')
    (led : g (s.nodes id).term = [] → Led m
      (update g (s.nodes id).term ((s.nodes id).log.entries ++ [e])) voteLogs (s.nodes id).term) :
    Safety m votes (update g (s.nodes id).term ((s.nodes id).log.entries ++ [e]))
      (acks.give id (s.nodes id).term ((s.nodes id).log.entries.length + 1)) voteLogs s' := by
  have part : g (s.nodes id).term <+: (s.nodes id).log.entries ++ [e] := by
    rcases before with empty | whole
    · rw [empty]
      exact nil_prefix
    · rw [whole]
      exact prefix_append ..
  have grows := Grows.extend acks part id ((s.nodes id).log.entries.length + 1)
  have voted {v u w ℓ} (ballot : voteLogs v u = some ℓ) (earlier : w < u) :=
    inv.give_of_ballot ballot earlier id ((s.nodes id).log.entries.length + 1)
  generalize at' : (s.nodes id).term = t at *
  generalize old : (s.nodes id).log.entries = ℓ at *
  generalize new : update g t (ℓ ++ [e]) = g' at *
  generalize more : acks.give id t (ℓ.length + 1) = acks' at *
  have now : g' t = ℓ ++ [e] := by rw [← new, update_self]
  have rest {w : Nat} (ne : w ≠ t) : g' w = g w := by rw [← new, update_of_ne ne]
  have self : acks' id t = ℓ.length + 1 := by
    rw [← more, Acks.give_self]
    have short := inv.short id t
    have length : (g t).length ≤ ℓ.length := by
      rcases before with empty | whole
      · rw [empty]
        exact Nat.zero_le _
      · rw [whole]
    omega
  have others {v : NodeID} {w : Nat} (ne : ¬ (v = id ∧ w = t)) : acks' v w = acks v w := by
    rw [← more, Acks.give_of_ne _ _ ne]
  have keep {v : NodeID} {w k stop : Nat} {log : List Entry} (fits : k ≤ acks v w)
      (keeps : Keeps g w k stop log) : Keeps g' w k stop log :=
    new ▸ keeps.extend (inv.terms w) before own (fits.trans (inv.short v w))
  have records : Records m g' acks' voteLogs := by
    refine { logs := logs'.logs, terms := logs'.terms, short := ?_, voted := ?_, led := ?_ }
    · intro v w
      by_cases eq : v = id ∧ w = t
      · rw [eq.1, eq.2, self, now, length_append, length_singleton]
      · rw [others eq]
        exact (inv.short v w).trans (grows.logs w).length_le
    · intro v u voteLog ballot
      obtain ⟨sound, keeps⟩ := inv.voted v u voteLog ballot
      refine ⟨sound.mono grows.logs, fun w earlier k stored => ?_⟩
      rw [voted ballot earlier] at stored
      exact keep stored (keeps w earlier k stored)
    · intro u pos some
      by_cases eq : u = t ∧ g t = []
      · rw [eq.1]
        exact led eq.2
      have some : g u ≠ [] := by
        by_cases same : u = t
        · rw [same]
          exact fun empty => eq ⟨same, empty⟩
        · rwa [rest same] at some
      obtain ⟨voters, log, majority, part, sound, old, voted⟩ := inv.led u pos some
      exact ⟨voters, log, majority, part.trans (grows.logs u), sound.mono grows.logs, old, voted⟩
  have entries : n'.log.entries = ℓ ++ [e] := by
    rw [log, ← old]
    rfl
  have longer : (s.nodes id).log.entries <+: n'.log.entries := by
    rw [entries, old]
    exact prefix_append ..
  have safe {i : Nat} (was : Safe m g acks (s.nodes id) i) : Safe m g' acks' n' i :=
    was.mono grows (by rw [term, at']) longer
  have node : NodeSafe m g' acks' id n' := by
    refine ⟨fun w k stored => ?_, fun w stored => ?_, fun _ => ?_, fun _ peer k known => ?_, ?_, fun i picked => ?_⟩
    · by_cases same : w = t
      · intro _
        rw [same, now, entries]
        exact take_prefix ..
      · rw [others fun both => same both.2] at stored
        exact (keep stored ((inv.node id).kept w k stored)).mono (by rw [term, at']) longer
    · rw [term]
      by_cases same : w = t
      · exact same.le
      · rw [others fun both => same both.2] at stored
        exact at' ▸ (inv.node id).term w stored
    · rw [entries, term, self, length_append, length_singleton]
    · rw [term]
      exact (peers peer k known).imp_right fun less => less.trans_le (grows.stored peer t)
    · rw [commit]
      exact safe (inv.node id).commit
    · exact ((inv.node id).pick i (phase ▸ picked)).imp_right safe
  refine inv.change grows records (fun v => ?_) (fun v => ?_) (fun v => ?_) calls answers applied
  all_goals rw [nodes]
  · refine nodes_set_elim v node fun ne => ?_
    have same (w : Nat) : acks' v w = acks v w := others fun both => ne both.1
    refine (inv.node v).grow grows (fun w k stored => ?_) fun w stored => (inv.node v).term w (same w ▸ stored)
    rw [same] at stored
    exact keep stored ((inv.node v).kept w k stored)
  · exact nodes_set_elim (motive := fun v n => (s.nodes v).term ≤ n.term) v (by rw [term, at']) fun _ => le_rfl
  · refine nodes_set_elim (motive := fun v n => n.role = .candidate → (s.nodes v).role = .candidate ∧
      n.term = (s.nodes v).term ∧ n.log = (s.nodes v).log) v ?_ fun _ role => ⟨role, rfl, rfl⟩
    rw [role]
    nofun

/-- A node has stored entries of the leader of its term. -/
theorem Safety.acknowledge (id : NodeID) (k : Nat) (fits : k ≤ (g (s.nodes id).term).length)
    (has : (g (s.nodes id).term).take k <+: (s.nodes id).log.entries) :
    Safety m votes g (acks.give id (s.nodes id).term k) voteLogs s := by
  refine inv.change (.give ..) { inv.toRecords with short := ?_, voted := ?_ } (fun other => ?_)
    (fun _ => le_rfl) (fun _ role => ⟨role, rfl, rfl⟩) rfl rfl fun _ _ mem => mem
  · intro v w
    by_cases eq : v = id ∧ w = (s.nodes id).term
    · rw [eq.1, eq.2, Acks.give_self]
      exact max_le fits (inv.short _ _)
    · rw [Acks.give_of_ne _ _ eq]
      exact inv.short v w
  · intro v u ℓ ballot
    obtain ⟨sound, keeps⟩ := inv.voted v u ℓ ballot
    refine ⟨sound, fun w earlier j stored => keeps w earlier j ?_⟩
    rwa [inv.give_of_ballot ballot earlier] at stored
  · refine (inv.node other).grow (.give ..) (fun w j stored => ?_) fun w stored => ?_
    all_goals by_cases eq : other = id ∧ w = (s.nodes id).term
    · obtain ⟨rfl, rfl⟩ := eq
      rw [Acks.give_self] at stored
      rcases le_max_iff.1 stored with new | old
      · exact fun _ => (take_prefix_take_left new).trans has
      · exact (inv.node other).kept _ j old
    · exact (inv.node other).kept w j (acks.give_of_ne k eq ▸ stored)
    · rw [eq.1, eq.2]
    · exact (inv.node other).term w (acks.give_of_ne k eq ▸ stored)

/-- A follower takes over a log that keeps what it shares with the leader of its term. -/
theorem Safety.replace (term : n'.term = (s.nodes id).term) (role : n'.role = .follower)
    (led : g (s.nodes id).term ≠ []) (sound : Sound g n'.log.entries)
    (keeps : ∀ p, p <+: (s.nodes id).log.entries → p <+: g (s.nodes id).term → p <+: n'.log.entries)
    (commit : n'.commitIndex = (s.nodes id).commitIndex ∨ Safe m g acks n' n'.commitIndex)
    (pick : ∀ i, n'.phase = .picked i → (s.nodes id).phase = .picked i) :
    Safety m votes g acks voteLogs (s.set id n') := by
  have was := inv.node id
  have safe {i : Nat} (old : Safe m g acks (s.nodes id) i) : Safe m g acks n' i := by
    obtain ⟨long, chosen⟩ := old
    have length : ((s.nodes id).log.entries.take (i + 1)).length = i + 1 := by
      rw [length_take]
      omega
    rcases Nat.eq_zero_or_pos i with zero | pos
    · rw [zero]
      exact .zero sound
    have part := keeps _ (List.take_prefix ..) (inv.toRecords.chosen_isPrefix chosen (by omega) le_rfl led)
    have all := prefix_iff_eq_take.1 part
    rw [length] at all
    refine ⟨?_, ?_⟩
    · have := part.length_le
      omega
    rw [← all, term]
    exact chosen
  refine inv.set ⟨?_, ?_, ?_, ?_, ?_, ?_⟩ term.ge (by rw [role]; rintro ⟨⟩)
  · intro w k stored between
    rw [term] at between
    refine keeps _ (was.kept w k stored between) ?_
    rcases Nat.eq_zero_or_pos (acks id w) with none | some
    · rw [show k = 0 by omega, take_zero]
      exact nil_prefix
    · rcases (was.term w some).eq_or_lt with same | earlier
      · rw [same]
        exact take_prefix ..
      · exact between _ earlier (Nat.lt_succ_self _) led
  · exact fun w stored => term ▸ was.term w stored
  · rw [role]
    nofun
  · rw [role]
    nofun
  · rcases commit with same | new
    · rw [same]
      exact safe was.commit
    · exact new
  · intro i picked
    obtain ⟨pos, old⟩ := was.pick i (pick i picked)
    exact ⟨pos, safe old⟩

omit inv in
/-- What the append loop leaves of a log. -/
theorem Matching.takeover (inv : Matching g s)
    (made : call ∈ s.calls) (asked : call.request = .append args) (log : NodeLog g n)
    (prev : n.prevMatches args = true) (clean : ∀ e ∈ args.entries.dropLast, n.log.conflicts e = false) :
    args.prevLogIndex + args.entries.length < (g args.term).length ∧
    (∀ p, p <+: n.log.entries → p <+: g args.term → p <+: (n.log.storeEntries args.entries).entries) ∧
    (∀ c ≤ args.prevLogIndex + args.entries.length,
      (n.log.storeEntries args.entries).entries.take (c + 1) <+: g args.term) ∧
    (n.log.cuts args.entries = false → (g args.term).take (args.prevLogIndex + args.entries.length + 1) <+:
        (n.log.storeEntries args.entries).entries) := by
  obtain ⟨ℓ, part, sound, long, long', entries, agree⟩ := inv.agree made asked log prev
  rw [entries] at clean ⊢
  have length : args.prevLogIndex + (ℓ.drop (args.prevLogIndex + 1)).length + 1 = ℓ.length := by
    rw [length_drop]
    omega
  have whole : (g args.term).take ℓ.length = ℓ := (prefix_iff_eq_take.1 part).symm
  rw [length, whole]
  refine ⟨by have := part.length_le; omega, ?_⟩
  rcases storeEntries_spec log.sound sound long long' (Nat.succ_pos _) agree clean with
    ⟨keep, inside⟩ | ⟨all, inside⟩ | ⟨cut, k, e, e', low, at', at'', differ, rest⟩
  · rw [keep]
    refine ⟨fun p has _ => has, fun c less => ?_, fun _ => inside⟩
    obtain ⟨tail, eq⟩ := inside
    rw [← eq, take_append_of_le_length (by omega)]
    exact (List.take_prefix ..).trans part
  · rw [all]
    exact ⟨fun p has _ => has.trans inside, fun c _ => (List.take_prefix ..).trans part, fun _ => prefix_refl _⟩
  · rw [rest]
    refine ⟨fun p has has' => ?_, fun c _ => ?_, fun uncut => ?_⟩
    · have short : p.length ≤ k := by
        by_contra beyond
        have at₁ := getElem?_eq_getElem (show k < p.length by omega)
        have one := (getElem?_of_isPrefix has at₁).symm.trans at'
        have two := (getElem?_of_isPrefix has' at₁).symm.trans (getElem?_of_isPrefix part at'')
        exact differ (congrArg Entry.term (some.inj (one.symm.trans two)))
      refine prefix_of_prefix_length_le has' ((List.take_prefix ..).trans part) ?_
      have := (List.getElem?_eq_some_iff.1 at'').1
      rw [length_take]
      omega
    · exact ((List.take_prefix ..).trans (List.take_prefix ..)).trans part
    · rw [uncut] at cut
      cases cut

section
variable (elections : Elections m votes s)
include elections

namespace Safety

/-- What a leader counts as replicated is committed. -/
theorem replicated (logs : Matching g s) (leads : (s.nodes id).role = .leader)
    (enough : (s.nodes id).replicated (m.peers id) index = true) :
    Safe m g acks (s.nodes id) index := by
  obtain ⟨found, many⟩ := of_decide_eq_true enough
  obtain ⟨elected, log⟩ := logs.leader id leads
  have sound := (logs.node id).sound
  rw [get_eq sound] at found
  obtain ⟨e, at', own⟩ := exists_of_any found
  have own := of_decide_eq_true own
  have pos : 0 < index := by
    rcases Nat.eq_zero_or_pos index with zero | pos
    · rw [zero, sound.first] at at'
      have now := (logs.past id _ elected).1
      rw [← own, ← some.inj at'] at now
      cases now
    · exact pos
  have long : index < (s.nodes id).log.entries.length := (List.getElem?_eq_some_iff.1 at').1
  have member : id ∈ m.ids := elections.member id (by rw [leads]; rintro ⟨⟩)
  refine ⟨long, .inr ⟨_, le_rfl, index, ⟨⟨e, log ▸ at', own⟩, ?_⟩, log ▸ prefix_refl _⟩⟩
  let has (p : NodeID) : Bool := index ≤ ((s.nodes id).matchIndex.get p).getD 0
  have part : (m.peers id).filter has ⊆ m.ids := List.Subset.trans (filter_subset_self _) erase_subset
  refine ⟨id :: (m.peers id).filter has, ⟨?_, ?_, ?_⟩, ?_⟩
  · refine nodup_cons.2 ⟨fun mem => ?_, (m.nodup.erase id).filter _⟩
    exact m.nodup.not_mem_erase (mem_of_mem_filter mem)
  · exact cons_subset.2 ⟨member, part⟩
  · have size : (m.peers id).length = m.ids.length - 1 := length_erase_of_mem member
    unfold majority at many
    rw [length_cons]
    have : ((m.peers id).filter fun p => index ≤ ((s.nodes id).matchIndex.get p).getD 0).length =
        ((m.peers id).filter has).length := rfl
    omega
  · intro v mem
    rcases mem_cons.1 mem with rfl | peer
    · exact long.trans_le ((inv.node v).lead leads)
    have known : index ≤ ((s.nodes id).matchIndex.get v).getD 0 := of_decide_eq_true (mem_filter.1 peer).2
    cases at'' : (s.nodes id).matchIndex.get v with
    | none =>
      rw [at''] at known
      exact absurd known (by simp; omega)
    | some k =>
      rw [at''] at known
      have known : index ≤ k := known
      rcases (inv.node id).peers leads v k at'' with zero | less
      · omega
      · omega

/-- A follower stores the entries of a request, and acknowledges them if it did not cut its log. -/
theorem store (logs : Matching g s) {commit : Nat}
    (made : s.calls[c]? = some call) (asked : call.request = .append args)
    (same : (s.nodes call.dst).term = args.term) (follows : (s.nodes call.dst).role ≠ .candidate)
    (prev : (s.nodes call.dst).prevMatches args = true)
    (clean : ∀ e ∈ args.entries.dropLast, (s.nodes call.dst).log.conflicts e = false)
    (committed : commit = (s.nodes call.dst).commitIndex ∨
      ∃ last, ((s.nodes call.dst).log.storeEntries args.entries).lastIndex = some last ∧
        commit = min args.leaderCommit last) :
    ∃ acks', Grows g g acks acks' ∧ Safety m votes g acks' voteLogs ((s.set call.dst
      { (s.nodes call.dst).store args.entries with commitIndex := commit }).answer
      { call := c, reply := .append { term := args.term, success := true }
        cut := (s.nodes call.dst).log.cuts args.entries }) := by
  have mem := mem_of_getElem? made
  have stored := logs.stored mem asked (logs.node call.dst) same prev clean
  obtain ⟨fits, keeps, within, whole⟩ := logs.takeover mem asked (logs.node call.dst) prev clean
  obtain ⟨covered, -, chosen⟩ := inv.sent call mem args asked
  have role : (s.nodes call.dst).role = .follower := by
    cases role : (s.nodes call.dst).role with
    | follower => rfl
    | candidate => exact absurd role follows
    | leader => exact absurd role (logs.not_leader elections mem asked same)
  rw [← same] at fits keeps within whole
  have replaced : Safety m votes g acks voteLogs (s.set call.dst
      { (s.nodes call.dst).store args.entries with commitIndex := commit }) := by
    refine inv.replace rfl role (length_pos_iff.1 (by omega)) stored.sound keeps ?_ fun i picked => picked
    refine committed.imp_right fun ⟨last, index, least⟩ => ?_
    have length := lastIndex_eq stored.sound index
    refine ⟨?_, (same ▸ chosen).of_isPrefix ?_⟩
    · show commit < (((s.nodes call.dst).store args.entries).log.entries).length
      omega
    · refine prefix_take_iff.2 ⟨within commit (by omega), ?_⟩
      have few := length_take_le (commit + 1) ((s.nodes call.dst).log.storeEntries args.entries).entries
      exact few.trans (by omega)
  let k := if (s.nodes call.dst).log.cuts args.entries then 0 else args.prevLogIndex + args.entries.length + 1
  have here := nodes_set_self s call.dst { (s.nodes call.dst).store args.entries with commitIndex := commit }
  have acknowledged := replaced.acknowledge call.dst k
  rw [here] at acknowledged
  refine ⟨_, .give .., (acknowledged ?_ ?_).answer ?_⟩
  · unfold k
    split
    · exact Nat.zero_le _
    · exact fits
  · unfold k
    split
    · exact nil_prefix
    · exact whole (Bool.not_eq_true _ ▸ ‹_›)
  · rintro reply ⟨⟩ - uncut
    have uncut : (s.nodes call.dst).log.cuts args.entries = false := uncut
    refine ⟨call, args, made, asked, ?_⟩
    rw [← same]
    show _ < acks.give call.dst (s.nodes call.dst).term k call.dst (s.nodes call.dst).term
    rw [Acks.give_self]
    unfold k
    rw [uncut]
    exact (Nat.lt_succ_self _).trans_le (le_max_left ..)

omit elections in
theorem matched {a : Answer} {reply : AppendEntriesReply} (made : s.calls[c]? = some call)
    (asked : call.request = .append args) (answered : a ∈ s.answers) (own : a.call = c)
    (replied : a.reply = .append reply) (yes : reply.success = true) (uncut : a.cut = false)
    (leader : (s.nodes call.src).role = .leader) (same : (s.nodes call.src).term = args.term) :
    Safety m votes g acks voteLogs (s.set call.src ((s.nodes call.src).matched call.dst args)) := by
  have was := inv.node call.src
  obtain ⟨call', args', made', asked', stored⟩ := inv.answered a answered reply replied yes uncut
  rw [own] at made'
  cases some.inj (made.symm.trans made')
  cases asked.symm.trans asked'
  refine inv.set ⟨was.kept, was.term, was.lead, ?_, was.commit, was.pick⟩ le_rfl fun candidate => ?_
  · intro _ peer k known
    show k = 0 ∨ k < acks peer (s.nodes call.src).term
    unfold Node.matched at known
    rw [GoMap.get_set] at known
    split at known
    · rename_i eq
      rw [eq, same]
      refine .inr ((some.inj known) ▸ max_lt stored ?_)
      cases old : (s.nodes call.src).matchIndex.get call.dst with
      | none => exact Nat.zero_lt_of_lt stored
      | some k =>
        rcases was.peers leader call.dst k old with zero | less
        · exact zero ▸ Nat.zero_lt_of_lt stored
        · exact same ▸ less
    · exact was.peers leader peer k known
  · cases leader.symm.trans candidate

omit elections in
/-- The entry that is passed to the FSM is committed. -/
theorem pass (logs : Matching g s)
    (picked : (s.nodes id).phase = .picked index) (found : (s.nodes id).log.get index = some e) :
    Safety m votes g acks voteLogs ((s.set id { s.nodes id with
      fsm := F.apply e (s.nodes id).fsm, phase := .applied index }).record (.applied id e)) := by
  have done : Safety m votes g acks voteLogs (s.set id { s.nodes id with
      fsm := F.apply e (s.nodes id).fsm, phase := .applied index }) :=
    inv.set_same rfl rfl rfl rfl (inv.node id).commit (nofun)
  refine done.record ?_
  rintro _ _ ⟨⟩
  obtain ⟨pos, long, chosen⟩ := (inv.node id).pick index picked
  have sound := (logs.node id).sound
  rw [get_eq sound] at found
  rcases chosen with short | ⟨t, -, k, committed, part⟩
  · rw [length_take] at short
    omega
  · refine ⟨t, k, committed, ?_⟩
    rw [sound.index index e found]
    refine getElem?_of_isPrefix part ?_
    rw [getElem?_take, if_pos (Nat.lt_succ_self _), found]

/-- The moves without votes and new entries, of runs in which the success of a delivery that cut the log is not taken.
-/
theorem silent (logs : Matching g s) (clean : L.clean) (honest : L.honest)
    (plain : L.plain) (move : Silent L m s s') :
    ∃ acks', Grows g g acks acks' ∧ Safety m votes g acks' voteLogs s' := by
  have reopened {n : Node F} (log : NodeLog g n) : n.restart.log = n.log := by
    show n.log.reopen = _
    unfold reopen
    rw [log.file, if_neg log.sound.ne]
    exact congrArg (RaftLog.mk _) log.file.symm
  have term (id : NodeID) : (s.nodes id).restart.term = (s.nodes id).term :=
    congrArg PersistentState.currentTerm (elections.ballot id).saved
  cases move with
  | quiet id n' quiet =>
    have was := inv.node id
    refine ⟨acks, .refl .., inv.set_same quiet.term quiet.role quiet.log quiet.matchIndex
      (quiet.commitIndex ▸ was.commit) fun i picked => ?_⟩
    rcases quiet.phase with same | none
    · exact was.pick i (same ▸ picked)
    · exact absurd picked (none i)
  | forget id c => exact ⟨acks, .refl .., inv.set_same rfl rfl rfl rfl (inv.node id).commit (inv.node id).pick⟩
  | stepDown id term later =>
    exact ⟨acks, .refl .., inv.set_follower later.le rfl rfl (inv.node id).commit (inv.node id).pick⟩
  | yield id =>
    exact ⟨acks, .refl .., inv.set_follower le_rfl rfl rfl (inv.node id).commit (inv.node id).pick⟩
  | restart id =>
    exact ⟨acks, .refl .., inv.set_follower (term id).ge rfl (reopened (logs.node id))
      (.zero (logs.node id).sound) (nofun)⟩
  | answer a idle =>
    refine ⟨acks, .refl .., inv.answer fun reply replied yes => ?_⟩
    unfold Answer.Idle at idle
    rw [replied] at idle
    rw [show reply.success = false from idle] at yes
    cases yes
  | count _ call =>
    exact ⟨acks, .refl .., inv.set_same rfl rfl rfl rfl (inv.node call.src).commit (inv.node call.src).pick⟩
  | winCrash id _ _ panic => exact absurd panic (logs.node id).sound.ne
  | send id peer nextIdx last member leader newer index =>
    have own := (logs.leader id leader).2
    have sound := (logs.node id).sound
    have commit := (inv.node id).commit
    refine ⟨acks, .refl .., inv.send ?_ ?_ ?_⟩
    · intro call mem args asked
      cases mem_singleton.1 mem
      cases asked
    · intro call mem
      cases mem_singleton.1 mem
      rfl
    · intro call mem args asked
      cases mem_singleton.1 mem
      cases asked
      refine ⟨?_, ?_, ?_⟩
      · have few := commit.1
        show (s.nodes id).commitIndex ≤ nextIdx - 1 + ((s.nodes id).log.range nextIdx last).length
        rw [range_eq sound index, length_drop]
        omega
      · exact own ▸ commit.1
      · exact own ▸ commit.2
  | sendSnapshot id _ _ _ data => exact absurd (logs.node id).plain data
  | store _ _ _ _ made asked same follows prev only committed =>
    exact inv.store elections logs made asked same follows prev (only clean) committed
  | storeCrash c call args made asked same follows prev only =>
    have mem := mem_of_getElem? made
    have stored := logs.stored mem asked (logs.node call.dst) same prev (only clean)
    obtain ⟨fits, keeps, -, -⟩ := logs.takeover mem asked (logs.node call.dst) prev (only clean)
    have back := reopened stored
    rw [← same] at fits keeps
    refine ⟨acks, .refl .., inv.replace (term call.dst) rfl (length_pos_iff.1 (by omega)) ?_ ?_ (.inr ?_)
      (nofun)⟩
    · exact back ▸ stored.sound
    · rw [back]
      exact keeps
    · exact .zero (back ▸ stored.sound)
  | matched _ _ _ _ _ made asked answered own replied yes uncut leader same =>
    exact ⟨acks, .refl .., inv.matched made asked answered own replied yes (uncut honest) leader same⟩
  | installed _ call args _ _ made asked =>
    exact absurd asked (logs.whole call (mem_of_getElem? made) args)
  | advance id index leader enough =>
    exact ⟨acks, .refl .., inv.set_same rfl rfl rfl rfl (inv.replicated elections logs leader enough)
      (inv.node id).pick⟩
  | pick id left =>
    refine ⟨acks, .refl .., inv.set_same rfl rfl rfl rfl (inv.node id).commit ?_⟩
    rintro _ ⟨⟩
    exact ⟨Nat.succ_pos _, (inv.node id).commit.lower left⟩
  | pass _ _ _ picked found => exact ⟨acks, .refl .., inv.pass logs picked found⟩
  | compact id data not => exact absurd plain not
  | finishInstall _ _ args _ asked =>
    obtain ⟨call, made, eq⟩ := map_eq_some_iff.1 asked
    exact absurd eq (logs.whole call (mem_of_getElem? made) args)

/-- A candidate with a majority of votes becomes leader. -/
theorem win (logs : Matching g s) {last : Nat} (candidate : (s.nodes id).role = .candidate)
    (enough : majority (m.peers id) ≤ (s.nodes id).votesReceived) (index : (s.nodes id).log.lastIndex = some last) :
    ∃ g' acks', Grows g g' acks acks' ∧ Matching g' ((s.set id ((s.nodes id).lead (m.peers id) last)).record
        (.elected id (s.nodes id).term)) ∧
      Safety m votes g' acks' voteLogs ((s.set id ((s.nodes id).lead (m.peers id) last)).record
        (.elected id (s.nodes id).term)) := by
  obtain ⟨none, logs'⟩ := logs.win elections candidate enough index
  have part : g (s.nodes id).term <+: (s.nodes id).log.entries ++
      [{ index := last + 1, term := (s.nodes id).term }] := none ▸ List.nil_prefix
  have grows := Grows.extend acks part id ((s.nodes id).log.entries.length + 1)
  refine ⟨_, _, grows, logs', inv.extend rfl rfl rfl ?_ (.inl none) rfl rfl rfl rfl ?_ rfl rfl logs' ?_⟩
  · intro v x mem
    rcases mem_append.1 mem with old | new
    · exact old
    · cases mem_singleton.1 new
  · exact fun peer k known => .inl (get_forPeers _ _ peer k known)
  · intro _
    obtain ⟨voters, majority, counts⟩ := elections.majority candidate enough
    refine ⟨voters, (s.nodes id).log.entries, majority, ?_, (logs.node id).sound.mono grows.logs, ?_, ?_⟩
    · rw [update_self]
      exact prefix_append ..
    · intro e mem
      -- an entry of this term would be in the log of a leader of this term
      refine lt_of_le_of_ne ((logs.node id).bound e mem) fun own => ?_
      obtain ⟨k, at'⟩ := mem_iff_getElem?.1 mem
      have part := (logs.node id).sound.own k e at'
      rw [own, none] at part
      have empty := congrArg List.length (prefix_nil.1 part)
      have long := (List.getElem?_eq_some_iff.1 at').1
      rw [length_take, length_nil] at empty
      omega
    · intro v mem
      obtain ⟨-, log⟩ := inv.votes v _ id (counts v mem)
      obtain ⟨ℓ, ballot, upToDate⟩ := log none
      exact ⟨ℓ, ballot, upToDate candidate rfl⟩

theorem propose (logs : Matching g s) {last : Nat} (cmd : Command)
    (leads : (s.nodes id).role = .leader) (index : (s.nodes id).log.lastIndex = some last) :
    ∃ g' acks', Grows g g' acks acks' ∧
      Matching g' (s.set id ((s.nodes id).extend ⟨last + 1, (s.nodes id).term, cmd⟩)) ∧
      Safety m votes g' acks' voteLogs (s.set id ((s.nodes id).extend ⟨last + 1, (s.nodes id).term, cmd⟩)) := by
  have logs' := logs.propose elections cmd leads index
  have own := (logs.leader id leads).2
  refine ⟨_, _, .extend acks (own ▸ prefix_append ..) _ _, logs',
    inv.extend rfl rfl rfl (fun _ _ mem => mem) (.inr own.symm) rfl rfl rfl leads
      ((inv.node id).peers leads) rfl rfl logs' fun none => ?_⟩
  exact absurd (own.trans none) (logs.node id).sound.ne

/-- The moves of runs that respect the law; the records grow. -/
theorem move (logs : Matching g s) (leads : L.leads) (clean : L.clean)
    (honest : L.honest) (plain : L.plain) (move : Move L m s s') :
    ∃ votes' g' acks' voteLogs', Grows g g' acks acks' ∧ Elections m votes' s' ∧ Matching g' s' ∧
      Safety m votes' g' acks' voteLogs' s' := by
  cases move with
  | silent move =>
    obtain ⟨acks', grows, inv'⟩ := inv.silent elections logs clean honest plain move
    exact ⟨votes, g, acks', voteLogs, grows, elections.silent move, logs.silent elections clean plain move, inv'⟩
  | campaign id lastIndex lastTerm _ member _ index term ran =>
    obtain ⟨runs, counted, past⟩ := elections.campaign member
    have run := inv.campaign elections logs id
    subst ran
    refine ⟨_, g, acks, _, .refl .., runs.ballots member counted ?_,
      logs.campaign id lastIndex lastTerm rfl, run.send ?_ ?_ ?_⟩
    · rw [nodes_set_self]
      exact past
    · intro call mem args asked _ _ _
      obtain ⟨peer, -, rfl⟩ := mem_map.1 mem
      cases asked
      rw [nodes_set_self]
      exact ⟨index, term⟩
    · intro call mem
      obtain ⟨peer, -, rfl⟩ := mem_map.1 mem
      rfl
    · intro call mem args asked
      obtain ⟨peer, -, rfl⟩ := mem_map.1 mem
      cases asked
  | campaignCrash id _ _ panic => exact absurd panic (logs.node id).sound.ne
  | grant _ call _ _ _ made asked same term index free upToDate =>
    obtain ⟨src, dst, request⟩ := call
    cases asked
    obtain ⟨voteLogs', granted⟩ := inv.grant elections logs made same term index upToDate
    refine ⟨_, g, acks, voteLogs', .refl .., elections.grant made same free, logs.grant .., granted.answer ?_⟩
    nofun
  | win id last candidate enough index =>
    obtain ⟨g', acks', grows, logs', inv'⟩ := inv.win elections logs candidate enough index
    exact ⟨votes, g', acks', voteLogs, grows, elections.win candidate enough, logs', inv'⟩
  | propose id cmd last leader index =>
    obtain ⟨g', acks', grows, logs', inv'⟩ := inv.propose elections logs cmd (leader leads) index
    exact ⟨votes, g', acks', voteLogs, grows, elections.propose, logs', inv'⟩

end Safety

end

end

def SoundCluster (m : Membership) (s : Cluster F) : Prop :=
  ∃ votes g acks voteLogs, Elections m votes s ∧ Matching g s ∧ Safety m votes g acks voteLogs s

theorem SoundCluster.move (sound : SoundCluster m s) (leads : L.leads)
    (clean : L.clean) (honest : L.honest) (plain : L.plain) (move : Move L m s s') :
    SoundCluster m s' := by
  obtain ⟨votes, g, acks, voteLogs, elections, logs, inv⟩ := sound
  obtain ⟨votes', g', acks', voteLogs', -, sound⟩ := inv.move elections logs leads clean honest plain move
  exact ⟨votes', g', acks', voteLogs', sound⟩

theorem SoundCluster.start (m : Membership) : SoundCluster m ({} : Cluster F) := by
  obtain ⟨g, logs⟩ := Matching.start (F := F)
  refine ⟨_, g, fun _ _ => 0, fun _ _ => none, Elections.start m, logs, ?_⟩
  have safe (id : NodeID) : NodeSafe m g (fun _ _ => 0) id ({} : Node F) := by
    refine ⟨fun t k none => ?_, fun _ some => absurd some (Nat.lt_irrefl 0), nofun, nofun,
      .zero (logs.node id).sound, nofun⟩
    rw [Nat.le_zero.1 none]
    exact fun _ => nil_prefix
  refine { logs := logs.logs, terms := logs.terms, short := fun _ _ => Nat.zero_le _
           voted := nofun, led := fun t pos some => ?_
           node := safe, ballot := nofun, votes := by rintro _ _ _ ⟨⟩
           asked := nofun, answered := nofun, sent := by rintro _ ⟨⟩
           applied := by rintro _ _ ⟨⟩ }
  obtain ⟨id, elected⟩ := logs.elected t pos some
  cases elected

/-- Two entries that are committed at one index are the same. -/
theorem Records.agree (records : Records m g acks voteLogs) {u l : Nat} {x y : Entry}
    (one : Committed m g acks t k) (two : Committed m g acks u l)
    (at' : ((g t).take (k + 1))[i]? = some x) (at'' : ((g u).take (l + 1))[i]? = some y) : x = y := by
  wlog order : t ≤ u generalizing t k u l x y
  · exact (this two one at'' at' (by omega)).symm
  have part : (g t).take (k + 1) <+: g u := by
    rcases order.eq_or_lt with rfl | later
    · exact take_prefix ..
    · obtain ⟨e, some, -⟩ := two.own
      exact records.complete one u later fun empty => by simp [empty] at some
  have one := getElem?_of_isPrefix part at'
  have two := getElem?_of_isPrefix (List.take_prefix ..) at''
  exact some.inj (one.symm.trans two)

end

/-- No two nodes pass different entries of one index to their FSMs. -/
def StateMachineSafety (s : Cluster F) : Prop :=
  ∀ a b x y, .applied a x ∈ s.history → .applied b y ∈ s.history → x.index = y.index → x = y

theorem SoundCluster.safe {m : Membership} {s : Cluster F} (sound : SoundCluster m s) :
    StateMachineSafety s := by
  obtain ⟨votes, g, acks, voteLogs, -, -, inv⟩ := sound
  intro a b x y one two same
  obtain ⟨t, k, committed, at'⟩ := inv.applied a x one
  obtain ⟨u, l, committed', at''⟩ := inv.applied b y two
  rw [same] at at'
  exact inv.toRecords.agree committed committed' at' at''

/-- The step is orderly, and it is not the reply of a delivery that cut the log. -/
def Acknowledged (s : Cluster F) (a : Action) : Prop := Orderly s a ∧ LosesCutReply s a

instance (s : Cluster F) (a : Action) : Decidable (LosesCutReply s a) := by
  unfold LosesCutReply
  repeat' split
  all_goals infer_instance

instance (s : Cluster F) (a : Action) : Decidable (Acknowledged s a) := inferInstanceAs (Decidable (_ ∧ _))

/-- In every run whose steps are orderly and acknowledge only what is stored, nodes that apply
entries of one index apply the same entry. -/
theorem stateMachineSafety_of_acknowledged (F : FSM) (m : Membership) (s : Cluster F)
    (reached : Reach (Cluster.next m) Acknowledged {} s) : StateMachineSafety s := by
  have sound : SoundCluster m s := by
    refine reached.invariant (SoundCluster.start m) fun s a s' inv ok taken => ?_
    have moves := moves_of_next (L := ⟨True, True, True, True, fun _ => True⟩) (fun _ => ok.1.1) (fun _ => ok.1.2.1)
      (fun _ => ok.2) (fun _ => ok.1.2.2) (fun _ _ => trivial) taken
    refine moves.invariant ?_ inv
    exact fun s s' sound move => sound.move trivial trivial trivial trivial move
  exact sound.safe

/-- `a` leads term 1 and commits its entries with `b`; both apply them. -/
theorem stateMachineSafety_two_entries : ∃ s : Cluster emptyFSM, Reach (Cluster.next trio) Acknowledged {} s ∧
    (s.history = let x : Command := { type := .commit, txnID := 1 }
      [.elected [97] 1, .applied [97] ⟨1, 1, {}⟩, .applied [97] ⟨2, 1, x⟩, .applied [98] ⟨1, 1, {}⟩,
        .applied [98] ⟨2, 1, x⟩]) ∧ StateMachineSafety s := by
  let x : Command := { type := .commit, txnID := 1 }
  exact Reach.exists_and [.timeout [97], .deliver 0, .receive 0 0, .proposeTest [97] x, .proposeAppend [97] 0,
      .replicate [97] [98], .deliver 2, .receive 2 1, .apply [97], .apply [97], .apply [97],
      .apply [97], .apply [97], .replicate [97] [98], .deliver 3, .apply [98], .apply [98],
      .apply [98], .apply [98], .apply [98]]
    (by decide) fun s reached _ => stateMachineSafety_of_acknowledged emptyFSM trio s reached

/-- A client's `Propose` passes the test of the role on `a`, the leader of term 1; its command is appended when `a`
follows `b` in term 2, at the index of `b`'s own entry. `a` takes the two for one entry and reports success; `b`
commits its entry, and `a` applies the other. -/
theorem not_stateMachineSafety : ¬ ∀ (F : FSM) (m : Membership) (s : Cluster F),
    Reach (Cluster.next m) NoCompaction {} s → StateMachineSafety s := by
  intro claim
  let x : Command := { type := .commit, txnID := 1 }
  obtain ⟨s, reached, one, two⟩ := Reach.exists_such (Cluster.next (F := emptyFSM) trio) NoCompaction {}
    [.timeout [97], .deliver 0, .receive 0 0, .replicate [97] [98], .deliver 2, .proposeTest [97] x,
      .timeout [98], .deliver 3, .receive 3 2, .proposeAppend [97] 0, .replicate [98] [97],
      .deliver 5, .receive 5 3, .apply [98], .apply [98], .apply [98], .apply [98], .apply [98],
      .replicate [98] [97], .deliver 6, .apply [97], .apply [97], .apply [97], .apply [97], .apply [97]]
    (fun s => .applied [98] ⟨2, 2, {}⟩ ∈ s.history ∧ .applied [97] ⟨2, 2, x⟩ ∈ s.history) (by decide)
  have same := claim emptyFSM trio s reached _ _ _ _ one two rfl
  exact absurd (congrArg Entry.command same) (by decide)

end TransactionManager.Raft
