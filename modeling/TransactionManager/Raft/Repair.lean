import TransactionManager.Raft.Election
import TransactionManager.Raft.Sound

/-!
# The repair of a follower's log

What `handleAppendEntries` does with a log that is not the leader's. A rejection tells the leader
where to go on, and the index of its next request is smaller each time until one is accepted. An
accepted request is stored as long as no entry of it meets one of another term: the append loop
cuts the log there and goes on with the entry after.
-/

namespace TransactionManager.Raft
open Lib List RaftLog

/-- Every entry stands at its index, from the sentinel on. -/
structure RaftLog.Contiguous (l : RaftLog) : Prop where
  first : l.entries[0]? = some dummy
  index : ∀ (k : Nat) (e : Entry), l.entries[k]? = some e → e.index = k

/-- The entries of a request follow on its `PrevLogIndex`. -/
def AppendEntriesArgs.Consecutive (args : AppendEntriesArgs) : Prop :=
  ∀ (k : Nat) (e : Entry), args.entries[k]? = some e → e.index = args.prevLogIndex + 1 + k

/-- What the success of a request tells its leader about the log before and after. -/
structure Stored (args : AppendEntriesArgs) (l l' : RaftLog) : Prop where
  contiguous : l'.Contiguous
  stored : ∀ e ∈ args.entries, l'.get e.index = some e
  below : ∀ j ≤ args.prevLogIndex, l'.get j = l.get j
  kept : (∀ e ∈ args.entries, l.conflicts e = false) →
    ∀ j, args.prevLogIndex + args.entries.length < j → l'.get j = l.get j
  dropped : (∃ e ∈ args.entries, l.conflicts e = true) →
    ∀ j, args.prevLogIndex + args.entries.length < j → l'.get j = none

namespace RaftLog
variable {l : RaftLog} {args : AppendEntriesArgs}

theorem Contiguous.sound (whole : l.Contiguous) : Sound (fun _ => l.entries) l.entries :=
  ⟨whole.first, whole.index, fun _ _ _ => List.take_prefix ..⟩

theorem Contiguous.lastIndex (whole : l.Contiguous) :
    ∃ last, l.lastIndex = some last ∧ l.entries.length = last + 1 := by
  have index := congrArg (Option.map Entry.index) (getLast?_eq_some_getLast whole.sound.ne)
  exact ⟨_, index, lastIndex_eq whole.sound index⟩

/-- The append loop on entries that are in the log or follow on it. -/
theorem Contiguous.stored (whole : l.Contiguous) (within : args.prevLogIndex < l.entries.length)
    (consecutive : args.Consecutive) (fits : ∀ e ∈ args.entries, ∀ old ∈ l.get e.index, old = e) :
    Stored args l (l.storeEntries args.entries) := by
  have entries := storeEntries_of_fits whole.index within consecutive fits
  -- an index is in the old log, or the entry of the message is there
  have at' (j : Nat) : (l.storeEntries args.entries).entries[j]? = if j < l.entries.length then l.entries[j]?
      else args.entries[j - (args.prevLogIndex + 1)]? := by
    rw [entries, getElem?_append, getElem?_drop]
    split
    · rfl
    · congr 1
      omega
  have contiguous : (l.storeEntries args.entries).Contiguous := by
    refine ⟨by rw [at', if_pos (by omega), whole.first], fun k e here => ?_⟩
    rw [at'] at here
    split at here
    · exact whole.index k e here
    · have := consecutive _ e here
      omega
  refine ⟨contiguous, fun e mem => ?_, fun j low => ?_, fun _ j high => ?_, ?_⟩
  · obtain ⟨k, here⟩ := getElem?_of_mem mem
    have index := consecutive k e here
    rw [get_eq contiguous.sound, at']
    split
    · rename_i long
      have there := getElem?_eq_getElem long
      rw [there, fits e mem _ ((get_eq whole.sound _).trans there)]
    · rw [index, Nat.add_sub_cancel_left, here]
  · rw [get_eq contiguous.sound, get_eq whole.sound, at', if_pos (by omega)]
  · rw [get_eq contiguous.sound, get_eq whole.sound, at']
    split
    · rfl
    · rw [getElem?_eq_none (by omega), getElem?_eq_none (by omega)]
  · rintro ⟨e, mem, conflict⟩
    unfold conflicts at conflict
    split at conflict
    · rename_i old here
      simp [fits e mem old here] at conflict
    · cases conflict

theorem get_storeEntries {i : Nat} {es : List Entry} (above : ∀ e ∈ es, i < e.index) :
    (l.storeEntries es).get i = l.get i := by
  induction es generalizing l with
  | nil => rfl
  | cons e es ih =>
    have high := above e mem_cons_self
    have low : i ≤ e.prevIndex := by
      rw [Entry.prevIndex, if_neg (by omega)]
      omega
    refine (ih fun x mem => above x (mem_cons_of_mem _ mem)).trans ?_
    unfold storeEntry
    split
    · rw [get_truncateAfter, if_pos low]
    · split
      · rw [get_append, if_neg (by omega), Option.or_none]
      · rfl

/-- What the append loop cuts it does not store afterwards, and what it finds it does not replace. -/
theorem fits_of_stored {es : List Entry} (order : es.Pairwise fun e e' => e.index < e'.index)
    (pos : ∀ e ∈ es, 0 < e.index) (stored : ∀ e ∈ es, (l.storeEntries es).get e.index = some e) :
    ∀ e ∈ es, ∀ old ∈ l.get e.index, old = e := by
  induction es generalizing l with
  | nil => nofun
  | cons e es ih =>
    obtain ⟨above, order⟩ := pairwise_cons.1 order
    have first := pos e mem_cons_self
    have here : (l.storeEntry e).get e.index = some e := (get_storeEntries above).symm.trans (stored e mem_cons_self)
    have calm : ¬ l.conflicts e = true := by
      intro conflict
      rw [storeEntry, if_pos conflict, get_truncateAfter, Entry.prevIndex, if_neg first.ne', if_neg (by omega)] at here
      cases here
    have keep {j : Nat} {old : Entry} (there : l.get j = some old) : (l.storeEntry e).get j = some old := by
      rw [storeEntry, if_neg calm]
      split
      · rw [get_append, there, Option.some_or]
      · exact there
    have rest := ih order (fun x mem => pos x (mem_cons_of_mem _ mem)) fun x mem => stored x (mem_cons_of_mem _ mem)
    intro x mem old there
    rcases mem_cons.1 mem with rfl | mem
    · exact Option.some.inj ((keep there).symm.trans here)
    · exact rest x mem old (keep there)

theorem firstOfTerm_bounds (l : RaftLog) (term : Nat) {idx found : Nat} (low : idx < found) :
    1 ≤ l.firstOfTerm term idx found ∧ l.firstOfTerm term idx found ≤ found := by
  induction idx generalizing found with
  | zero => exact ⟨low, le_rfl⟩
  | succ idx ih =>
    rw [firstOfTerm]
    split
    · obtain ⟨pos, le⟩ := ih (Nat.lt_succ_self idx)
      exact ⟨pos, le.trans low.le⟩
    · omega

end RaftLog

variable {F : FSM}

namespace Node
variable {n n' leader follower : Node F} {args : AppendEntriesArgs} {reply : AppendEntriesReply}

theorem prevMatches_yield (n : Node F) (args : AppendEntriesArgs) :
    (n.catchUp args.term).yield.prevMatches args = n.prevMatches args := by
  unfold prevMatches
  rw [log_yield, log_catchUp]

theorem handleAppendEntries_success (handled : n.handleAppendEntries args = .done n' reply)
    (success : reply.success = true) :
    n.prevMatches args = true ∧ n'.log = n.log.storeEntries args.entries := by
  unfold handleAppendEntries takeEntries at handled
  rw [prevMatches_yield] at handled
  split at handled
  · cases handled
    cases success
  split at handled
  · refine ⟨‹_›, ?_⟩
    have log : ((n.catchUp args.term).yield.store args.entries).log = n.log.storeEntries args.entries := by
      show (n.catchUp args.term).yield.log.storeEntries _ = _
      rw [log_yield, log_catchUp]
    unfold followCommit at handled
    split at handled
    · split at handled <;> cases handled
      exact log
    · cases handled
      exact log
  · split at handled <;> cases handled
    unfold conflictReply at success
    split at success <;> cases success

/-- A request that succeeds is stored exactly when each of its entries is beyond the log or already in it. -/
theorem stored_iff (whole : n.log.Contiguous) (consecutive : args.Consecutive)
    (handled : n.handleAppendEntries args = .done n' reply) (success : reply.success = true) :
    Stored args n.log n'.log ↔ ∀ e ∈ args.entries, ∀ old ∈ n.log.get e.index, old = e := by
  obtain ⟨before, log⟩ := handleAppendEntries_success handled success
  rw [log]
  constructor
  · have index {k : Nat} (short : k < args.entries.length) := consecutive k _ (getElem?_eq_getElem short)
    refine fun stored => fits_of_stored (pairwise_iff_getElem.2 fun i j _ long lt => ?_) (fun e mem => ?_) stored.stored
    · rw [index (lt.trans long), index long]
      omega
    · obtain ⟨k, here⟩ := getElem?_of_mem mem
      rw [consecutive k e here]
      omega
  · refine whole.stored ?_ consecutive
    rcases of_decide_eq_true before with zero | found
    · rw [zero]
      exact length_pos_iff.2 whole.sound.ne
    · obtain ⟨e, here, -⟩ := (Option.any_eq_true _ _).1 found
      rw [get_eq whole.sound] at here
      exact (List.getElem?_eq_some_iff.1 here).1

def logOf (term : Nat) : Node emptyFSM where
  role := .leader
  term := term
  log := ({} : RaftLog).append ⟨1, term, {}⟩

theorem logOf_contiguous (term : Nat) : (logOf term).log.Contiguous := by
  refine ⟨rfl, ?_⟩
  rintro (_ | _ | k) e ⟨⟩ <;> rfl

def firstEntries : AppendEntriesArgs := ⟨2, [97], 0, 0, [⟨1, 2, {}⟩, ⟨2, 2, {}⟩], 1⟩

theorem firstEntries_consecutive : firstEntries.Consecutive := by
  rintro (_ | _ | k) e ⟨⟩ <;> rfl

theorem stored_firstEntries : Stored firstEntries {} (({} : RaftLog).storeEntries firstEntries.entries) :=
  (stored_iff (n := ({} : Node emptyFSM)) ⟨rfl, by rintro (_ | k) e ⟨⟩; rfl⟩ firstEntries_consecutive
    rfl rfl).2 (by decide)

/-- The same entries after a leader of another term wrote the first one: the follower stores neither and answers that
it has both. -/
theorem not_stored_of_conflict : ∃ (n n' : Node emptyFSM) (args : AppendEntriesArgs)
    (reply : AppendEntriesReply), n.log.Contiguous ∧ args.Consecutive ∧
    args.entries.Pairwise (fun e e' => e.term ≤ e'.term) ∧
    n.handleAppendEntries args = .done n' reply ∧ reply.success = true ∧ ¬ Stored args n.log n'.log := by
  refine ⟨logOf 1, _, firstEntries, _, logOf_contiguous 1, firstEntries_consecutive, by decide, rfl, rfl,
    fun stored => absurd (stored.stored ⟨1, 2, {}⟩ mem_cons_self) (by decide)⟩

/-- The `AppendEntries` that a leader has for a peer. -/
def nextAppend (n : Node F) (id peer : NodeID) : Option AppendEntriesArgs :=
  match n.replicateToPeer id peer with
  | .done _ (some (.append args)) => some args
  | _ => none

/-- One round between a leader and a follower with nothing in between: the request is made and
handled and the reply taken. -/
def round (peers : List NodeID) (id peer : NodeID) (pair : Node F × Node F) : Node F × Node F :=
  match pair.1.nextAppend id peer with
  | none => pair
  | some args =>
    match pair.2.handleAppendEntries args with
    | .done follower reply => ((pair.1.receiveAppend peers peer args reply).alive, follower)
    | .panic follower => (pair.1, follower.restart)

/-- The next request passes the consistency check. -/
def Passes (id peer : NodeID) (pair : Node F × Node F) : Prop :=
  ∃ args, pair.1.nextAppend id peer = some args ∧ pair.2.prevMatches args = true

/-- `nextIndex` as `replicateToPeer` reads it. -/
def nextFor (n : Node F) (peer : NodeID) : Nat := ((n.nextIndex.get peer).or (n.log.lastIndex.map (· + 1))).getD 0

/-- Before `bound` rounds a request passes, and each of them makes `nextIndex` smaller. -/
def Converges (peers : List NodeID) (id peer : NodeID) (bound : Nat) (pair : Node F × Node F) : Prop :=
  ∃ rounds < bound, Passes id peer ((round peers id peer)^[rounds] pair) ∧ ∀ k < rounds,
    ((round peers id peer)^[k + 1] pair).1.nextFor peer < ((round peers id peer)^[k] pair).1.nextFor peer

theorem conflict_bounds (whole : n.log.Contiguous) (fresh : n.term ≤ args.term) (differs : n.prevMatches args = false) :
    ∃ reply, n.handleAppendEntries args = .done (n.catchUp args.term).yield reply ∧
      reply.term = args.term ∧ reply.success = false ∧
      1 ≤ reply.conflictIndex ∧ reply.conflictIndex ≤ args.prevLogIndex := by
  obtain ⟨last, index, length⟩ := whole.lastIndex
  refine ⟨(n.catchUp args.term).yield.conflictReply args last, ?_, ?_⟩
  · unfold handleAppendEntries takeEntries
    rw [if_neg (by omega), prevMatches_yield, differs, if_neg (by simp), log_yield, log_catchUp, index]
  have term : (n.catchUp args.term).yield.term = args.term := by rw [term_yield, term_catchUp (by omega)]
  have pos : args.prevLogIndex ≠ 0 := fun zero => by simp [prevMatches, zero] at differs
  unfold conflictReply
  rw [log_yield, log_catchUp]
  cases here : n.log.get args.prevLogIndex with
  | none =>
    rw [get_eq whole.sound, getElem?_eq_none_iff] at here
    exact ⟨term, rfl, Nat.succ_pos _, by dsimp only; omega⟩
  | some =>
    obtain ⟨p, eq⟩ := Nat.exists_eq_succ_of_ne_zero pos
    refine ⟨term, rfl, ?_⟩
    dsimp only
    rw [eq] at here ⊢
    rw [firstOfTerm, here, Option.any_some, decide_eq_true rfl, if_pos rfl]
    exact firstOfTerm_bounds _ _ (Nat.lt_succ_self p)

/-- A leader without a snapshot looks for the place from which its log and a follower's agree. -/
structure Chases (peer : NodeID) (next : Nat) (pair : Node F × Node F) : Prop where
  leads : pair.1.role = .leader
  leader : pair.1.log.Contiguous
  follower : pair.2.log.Contiguous
  plain : pair.1.snapshotIndex = 0
  term : pair.2.term ≤ pair.1.term
  read : (pair.1.nextIndex.get peer).or (pair.1.log.lastIndex.map (· + 1)) = some next
  pos : 0 < next

variable {pair : Node F × Node F} {id peer : NodeID} {next : Nat}

theorem Chases.nextFor (chases : Chases peer next pair) : pair.1.nextFor peer = next := by
  rw [Node.nextFor, chases.read]
  rfl

theorem Chases.nextAppend (chases : Chases peer next pair) (id : NodeID) : ∃ args,
    pair.1.nextAppend id peer = some args ∧ args.term = pair.1.term ∧ args.prevLogIndex = next - 1 := by
  obtain ⟨last, index, -⟩ := chases.leader.lastIndex
  refine ⟨pair.1.appendArgs id next last, ?_, rfl, rfl⟩
  have pos := chases.pos
  unfold Node.nextAppend replicateToPeer
  rw [chases.leads, if_neg (by simp), chases.read]
  dsimp only
  rw [chases.plain, if_neg (by omega), index]

theorem Chases.round (peers : List NodeID) (chases : Chases peer next pair) (fails : ¬ Passes id peer pair) :
    ∃ next' < next, Chases peer next' (round peers id peer pair) := by
  obtain ⟨args, sends, term, prev⟩ := chases.nextAppend id
  have differs : pair.2.prevMatches args = false := Bool.eq_false_iff.2 fun same => fails ⟨args, sends, same⟩
  obtain ⟨reply, handled, current, failed, some, low⟩ :=
    conflict_bounds chases.follower (chases.term.trans_eq term.symm) differs
  have back : pair.1.receiveAppend peers peer args reply = .done (pair.1.backtrack peer reply.conflictIndex) () := by
    unfold receiveAppend
    rw [if_neg (by omega), if_neg (by simp [chases.leads, term]), failed, if_neg (by simp)]
    exact if_pos some
  unfold Node.round
  simp only [sends, handled, back]
  refine ⟨reply.conflictIndex, by omega, chases.leads, chases.leader, ?_, chases.plain, ?_, ?_, some⟩
  · rw [log_yield, log_catchUp]
    exact chases.follower
  · rw [term_yield, term_catchUp (by have := chases.term; omega)]
    exact term.le
  · show (((pair.1.nextIndex.set peer _).get peer).or _) = _
    rw [GoMap.get_set, if_pos rfl]
    rfl

/-- The run lemma: the leader comes back to its peer until a request passes. -/
theorem Chases.passes (peers : List NodeID) (chases : Chases peer next pair) :
    Converges peers id peer next pair := by
  induction next using Nat.strong_induction_on generalizing pair with
  | _ next ih =>
    by_cases passes : Passes id peer pair
    · exact ⟨0, chases.pos, passes, fun k low => absurd low k.not_lt_zero⟩
    obtain ⟨next', less, chases'⟩ := chases.round peers passes
    obtain ⟨rounds, few, done, down⟩ := ih next' less chases'
    refine ⟨rounds + 1, by omega, done, ?_⟩
    rintro (_ | k) low
    · exact (chases'.nextFor.trans_lt less).trans_eq chases.nextFor.symm
    · exact down k (by omega)

/-- A rejection for `PrevLogIndex` or `PrevLogTerm` has a hint that is not above the request's index, so `nextIndex`
decreases, and before as many rounds as its first value a request passes. -/
theorem backtracking (peers : List NodeID) (id : NodeID) (leads : leader.role = .leader)
    (whole : leader.log.Contiguous) (whole' : follower.log.Contiguous) (plain : leader.snapshotIndex = 0)
    (current : follower.term ≤ leader.term) (pos : 0 < leader.nextFor peer) :
    (∀ request : AppendEntriesArgs, follower.term ≤ request.term → follower.prevMatches request = false →
      ∃ follower' reply, follower.handleAppendEntries request = .done follower' reply ∧
        reply.success = false ∧ 1 ≤ reply.conflictIndex ∧ reply.conflictIndex ≤ request.prevLogIndex) ∧
    Converges peers id peer (leader.nextFor peer) (leader, follower) := by
  refine ⟨fun request fresh differs => ?_, ?_⟩
  · obtain ⟨reply, handled, -, failed, bounds⟩ := conflict_bounds whole' fresh differs
    exact ⟨_, reply, handled, failed, bounds⟩
  refine Chases.passes peers ⟨leads, whole, whole', plain, current, ?_, pos⟩
  unfold nextFor at pos ⊢
  cases read : (leader.nextIndex.get peer).or (leader.log.lastIndex.map (· + 1)) with
  | none =>
    rw [read] at pos
    exact absurd pos (Nat.lt_irrefl 0)
  | some => rfl

/-- The leader of term 2 comes back to the sentinel. -/
theorem backtracking_to_the_start : Converges [[98]] [97] [98] 2 (logOf 2, logOf 1) :=
  (@backtracking emptyFSM (logOf 2) (logOf 1) [98] [[98]] [97] rfl (logOf_contiguous 2) (logOf_contiguous 1)
    rfl (by decide) (by decide)).2

end Node

end TransactionManager.Raft
