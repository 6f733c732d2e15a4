import TransactionManager.Raft.Move
import TransactionManager.Lib.Quorum

/-!
# Election safety

A vote is written down before it is given, and a term is never left for a lower one, so a node
votes for one candidate per term over all its processes. `Votes` is the record of all votes; it
is no part of the cluster. A candidate has counted only votes of this record, each once, and
two majorities meet: a term has at most one leader.
-/

namespace TransactionManager.Raft
open Lib List Cluster List.Sublist

variable {F : FSM}

/-- The votes given so far, by voter and term. -/
abbrev Votes := NodeID → Nat → Option NodeID

/-- A node has on disk, and remembers, what it voted in its term. -/
structure Ballot (votes : Votes) (id : NodeID) (n : Node F) : Prop where
  saved : n.saved = ⟨n.term, n.votedFor⟩
  free : n.votedFor = [] → votes id n.term = none
  voted : n.votedFor ≠ [] → votes id n.term = some n.votedFor
  later : ∀ t, n.term < t → votes id t = none

def Asks (s : Cluster F) (c : Nat) (src dst : NodeID) (args : RequestVoteArgs) : Prop :=
  s.calls[c]? = some ⟨src, dst, .vote args⟩

/-- The votes that a candidate has counted. Those it still waits for are not among them. -/
structure Counted (m : Membership) (votes : Votes) (s : Cluster F) (id : NodeID) (voters : List NodeID) : Prop where
  nodup : voters.Nodup
  sub : voters ⊆ m.ids
  length : voters.length = (s.nodes id).votesReceived
  votes : ∀ v ∈ voters, votes v (s.nodes id).term = some id
  open_ : ∀ c ∈ (s.nodes id).waiting, ∀ dst args, Asks s c id dst args → args.term = (s.nodes id).term → dst ∉ voters

/-- What the record of votes has to do with the cluster. -/
structure Elections (m : Membership) (votes : Votes) (s : Cluster F) : Prop where
  ballot : ∀ id, Ballot votes id (s.nodes id)
  member : ∀ id, (s.nodes id).role ≠ .follower → id ∈ m.ids
  waiting : ∀ id, (s.nodes id).waiting.Nodup
  made : ∀ id, ∀ c ∈ (s.nodes id).waiting, c < s.calls.length
  asked : ∀ c src dst args, Asks s c src dst args →
    args.candidateID = src ∧ src ∈ m.ids ∧ dst ∈ m.ids ∧ dst ≠ src ∧ args.term ≤ (s.nodes src).term
  once : ∀ c c' src dst args args', Asks s c src dst args → Asks s c' src dst args' → args.term = args'.term → c = c'
  granted : ∀ a ∈ s.answers, ∀ reply, a.reply = .vote reply → reply.voteGranted = true →
    ∃ src dst args, Asks s a.call src dst args ∧ votes dst args.term = some src
  counted : ∀ id, (s.nodes id).role = .candidate → ∃ voters, Counted m votes s id voters
  elected : ∀ id t, .elected id t ∈ s.history → ∃ voters, IsMajority m.ids voters ∧ ∀ v ∈ voters, votes v t = some id

section
variable {m : Membership} {votes votes' : Votes} {s s' : Cluster F} {id : NodeID} {n' : Node F} {term : Nat}

theorem Elections.start (m : Membership) : Elections m (fun _ _ => none) ({} : Cluster F) where
  ballot _ := ⟨rfl, fun _ => rfl, fun no => absurd rfl no, fun _ _ => rfl⟩
  member _ leads := absurd rfl leads
  waiting _ := nodup_nil
  made _ _ mem := by cases mem
  asked _ _ _ _ asks := by cases asks
  once _ _ _ _ _ _ asks := by cases asks
  granted _ mem := by cases mem
  counted _ candidate := by cases candidate
  elected _ _ mem := by cases mem

theorem Counted.keep {voters : List NodeID} (counted : Counted m votes s id voters)
    (keeps : ∀ v t c, votes v t = some c → votes' v t = some c)
    (term : (s'.nodes id).term = (s.nodes id).term)
    (received : (s'.nodes id).votesReceived = (s.nodes id).votesReceived)
    (waits : ∀ c ∈ (s'.nodes id).waiting, ∀ dst args, Asks s' c id dst args →
      c ∈ (s.nodes id).waiting ∧ Asks s c id dst args) : Counted m votes' s' id voters where
  nodup := counted.nodup
  sub := counted.sub
  length := counted.length.trans received.symm
  votes v mem := by
    rw [term]
    exact keeps _ _ _ (counted.votes v mem)
  open_ c mem dst args asks same := by
    obtain ⟨waited, asked⟩ := waits c mem dst args asks
    rw [term] at same
    exact counted.open_ c waited dst args asked same

section
variable (inv : Elections m votes s)
include inv

namespace Elections

/-- A node changes; it may give a vote or count one. -/
theorem set (keeps : ∀ v t c, votes v t = some c → votes' v t = some c)
    (others : ∀ v t, v ≠ id → votes' v t = votes v t) (ballot : Ballot votes' id n')
    (member : n'.role ≠ .follower → id ∈ m.ids)
    (waiting : n'.waiting.Sublist (s.nodes id).waiting) (later : (s.nodes id).term ≤ n'.term)
    (counted : n'.role = .candidate → ∃ voters, Counted m votes' (s.set id n') id voters) :
    Elections m votes' (s.set id n') where
  ballot other := by
    refine nodes_set_elim other ballot fun ne => ?_
    obtain ⟨saved, free, voted, last⟩ := inv.ballot other
    refine ⟨saved, ?_, ?_, ?_⟩ <;> simpa only [others _ _ ne]
  member other := nodes_set_elim other member fun _ => inv.member other
  waiting other := nodes_set_elim other ((inv.waiting id).sublist waiting) fun _ => inv.waiting other
  made other := nodes_set_elim other (fun c mem => inv.made id c (waiting.subset mem)) fun _ => inv.made other
  asked c src dst args asks := by
    obtain ⟨own, member, member', ne, bound⟩ := inv.asked c src dst args asks
    refine ⟨own, member, member', ne, bound.trans ?_⟩
    exact nodes_set_elim (motive := fun v n => (s.nodes v).term ≤ n.term) src later fun _ => le_rfl
  once := inv.once
  granted a mem reply replied yes := by
    obtain ⟨src, dst, args, asks, voted⟩ := inv.granted a mem reply replied yes
    exact ⟨src, dst, args, asks, keeps _ _ _ voted⟩
  counted other role := by
    by_cases here : other = id
    · subst here
      rw [nodes_set_self] at role
      exact counted role
    · have same := nodes_set_of_ne s n' here
      rw [same] at role
      obtain ⟨voters, old⟩ := inv.counted other role
      refine ⟨voters, old.keep keeps ?_ ?_ ?_⟩ <;> rw [same]
      exact fun c mem dst args asks => ⟨mem, asks⟩
  elected other t mem := by
    obtain ⟨voters, majority, counts⟩ := inv.elected other t mem
    exact ⟨voters, majority, fun v mem => keeps _ _ _ (counts v mem)⟩

/-- A candidate stays one and counts nothing. -/
theorem counted_set (keeps : ∀ v t c, votes v t = some c → votes' v t = some c)
    (candidate : (s.nodes id).role = .candidate) (term : n'.term = (s.nodes id).term)
    (received : n'.votesReceived = (s.nodes id).votesReceived) (waiting : n'.waiting.Sublist (s.nodes id).waiting) :
    ∃ voters, Counted m votes' (s.set id n') id voters := by
  obtain ⟨voters, old⟩ := inv.counted id candidate
  refine ⟨voters, old.keep keeps ?_ ?_ ?_⟩ <;> rw [nodes_set_self]
  · exact term
  · exact received
  · exact fun c mem dst args asks => ⟨waiting.subset mem, asks⟩

theorem set_node (ballot : Ballot votes id n') (waiting : n'.waiting.Sublist (s.nodes id).waiting)
    (later : (s.nodes id).term ≤ n'.term) (role : n'.role = .follower) :
    Elections m votes (s.set id n') := by
  refine inv.set (fun _ _ _ voted => voted) (fun _ _ _ => rfl) ballot (fun no => absurd role no) waiting
    later fun candidate => ?_
  rw [role] at candidate
  cases candidate

/-- The ballot and the counted votes of a node are the same, and it is candidate only if it
was. -/
theorem set_same (term : n'.term = (s.nodes id).term) (votedFor : n'.votedFor = (s.nodes id).votedFor)
    (saved : n'.saved = (s.nodes id).saved) (member : n'.role ≠ .follower → (s.nodes id).role ≠ .follower)
    (role : n'.role = .candidate → (s.nodes id).role = .candidate)
    (received : n'.votesReceived = (s.nodes id).votesReceived)
    (waiting : n'.waiting.Sublist (s.nodes id).waiting) : Elections m votes (s.set id n') := by
  have ballot : Ballot votes id n' := by
    obtain ⟨save, free, voted, later⟩ := inv.ballot id
    constructor <;> simpa only [saved, term, votedFor]
  exact inv.set (fun _ _ _ voted => voted) (fun _ _ _ => rfl) ballot
    (fun leads => inv.member id (member leads)) waiting term.ge fun candidate =>
      inv.counted_set (fun _ _ _ voted => voted) (role candidate) term received waiting

/-- More answers and more history change nothing, unless they grant or elect. -/
theorem answer {a : Answer} (granted : ∀ reply, a.reply = .vote reply → reply.voteGranted = true →
      ∃ src dst args, Asks s a.call src dst args ∧ votes dst args.term = some src) :
    Elections m votes (s.answer a) := by
  refine { inv with
    granted := forall_mem_append.2 ⟨inv.granted, forall_mem_singleton.2 granted⟩
    counted := fun id candidate => ?_ }
  obtain ⟨voters, counted⟩ := inv.counted id candidate
  exact ⟨voters, { counted with }⟩

theorem record {e : Event}
    (elected : ∀ id t, e = .elected id t → ∃ voters, IsMajority m.ids voters ∧ ∀ v ∈ voters, votes v t = some id) :
    Elections m votes (s.record e) := by
  refine { inv with counted := fun id candidate => ?_, elected := fun id t mem => ?_ }
  · obtain ⟨voters, counted⟩ := inv.counted id candidate
    exact ⟨voters, { counted with }⟩
  · rcases mem_append.1 mem with old | new
    · exact inv.elected id t old
    · exact elected id t (mem_singleton.1 new).symm

end Elections

end

def Votes.give (votes : Votes) (id : NodeID) (term : Nat) (candidate : NodeID) : Votes :=
  fun v t => if v = id ∧ t = term then some candidate else votes v t

theorem Votes.give_self (votes : Votes) (id : NodeID) (term : Nat) (candidate : NodeID) :
    votes.give id term candidate id term = some candidate := if_pos ⟨rfl, rfl⟩

theorem Votes.give_of_ne (votes : Votes) {v : NodeID} {t : Nat} (candidate : NodeID)
    (ne : ¬ (v = id ∧ t = term)) : votes.give id term candidate v t = votes v t := if_neg ne

theorem Votes.keeps_give {votes : Votes} {candidate : NodeID} (free : ∀ c, votes id term = some c → c = candidate)
    (v : NodeID) (t : Nat) (c : NodeID) (voted : votes v t = some c) : votes.give id term candidate v t = some c := by
  by_cases here : v = id ∧ t = term
  · obtain ⟨rfl, rfl⟩ := here
    rw [Votes.give_self, free c voted]
  · rwa [Votes.give_of_ne _ _ here]

section
variable (inv : Elections m votes s)
include inv

namespace Elections

theorem stepDown (later : (s.nodes id).term < term) :
    Elections m votes (s.set id ((s.nodes id).becomeFollower term)) :=
  inv.set_node ⟨rfl, fun _ => (inv.ballot id).later term later, fun no => absurd rfl no,
    fun t high => (inv.ballot id).later t (later.trans high)⟩ (refl _) later.le rfl

theorem restart (saved : n'.saved = (s.nodes id).saved) : Elections m votes (s.set id n'.restart) := by
  obtain ⟨save, free, voted, later⟩ := inv.ballot id
  have ballot : n'.saved = ⟨(s.nodes id).term, (s.nodes id).votedFor⟩ := saved.trans save
  have term : n'.restart.term = (s.nodes id).term := congrArg PersistentState.currentTerm ballot
  have vote : n'.restart.votedFor = (s.nodes id).votedFor := congrArg PersistentState.votedFor ballot
  refine inv.set_node ⟨?_, ?_, ?_, ?_⟩ (nil_sublist _) term.ge rfl
  · rw [term, vote]
    exact ballot
  · rwa [term, vote]
  · rwa [term, vote]
  · rwa [term]

section
variable {c : Nat} {src dst : NodeID} {args : RequestVoteArgs} (asks : Asks s c src dst args)
include asks

theorem grant {t : Nat} (same : (s.nodes dst).term = args.term)
    (free : (s.nodes dst).votedFor = [] ∨ (s.nodes dst).votedFor = args.candidateID) :
    Elections m (votes.give dst args.term args.candidateID) ((s.set dst ((s.nodes dst).vote args.candidateID)).answer
        { call := c, reply := .vote ⟨t, true⟩ }) := by
  obtain ⟨own, member, -⟩ := inv.asked c src dst args asks
  obtain ⟨saved, unvoted, voted, later⟩ := inv.ballot dst
  have named : args.candidateID ≠ [] := fun empty => m.named (empty ▸ own ▸ member)
  let votes' := votes.give dst args.term args.candidateID
  have first : Elections m votes' (s.set dst ((s.nodes dst).vote args.candidateID)) := by
    have keeps : ∀ v t c, votes v t = some c → votes' v t = some c := by
      refine Votes.keeps_give ?_
      intro c voted'
      rw [← same] at voted'
      rcases free with empty | same'
      · rw [unvoted empty] at voted'
        cases voted'
      · rw [voted (same' ▸ named), same'] at voted'
        exact (Option.some.inj voted').symm
    refine inv.set keeps (fun v t ne => Votes.give_of_ne _ _ fun h => ne h.1)
      ⟨rfl, fun empty => absurd empty named, fun _ => ?_, fun t high => ?_⟩ (inv.member dst)
      (refl _) le_rfl fun role => inv.counted_set keeps role rfl rfl (refl _)
    · show votes' dst (s.nodes dst).term = _
      rw [same]
      exact Votes.give_self ..
    · have ne : t ≠ args.term := fun eq => by
        rw [eq, ← same] at high
        exact lt_irrefl _ high
      exact (Votes.give_of_ne _ _ fun h => ne h.2).trans (later t high)
  refine first.answer fun _ _ _ => ⟨src, dst, args, asks, ?_⟩
  rw [← own]
  exact Votes.give_self ..

theorem count {a : Answer} {reply : RequestVoteReply} (waits : c ∈ (s.nodes src).waiting) (answered : a ∈ s.answers)
    (own : a.call = c) (granted : a.reply = .vote reply) (yes : reply.voteGranted = true)
    (candidate : (s.nodes src).role = .candidate) (same : (s.nodes src).term = args.term) :
    Elections m votes (s.set src ((s.nodes src).stopWaiting c).count) := by
  obtain ⟨src', dst', args', asks', voted⟩ := inv.granted a answered reply granted yes
  rw [own] at asks'
  cases Option.some.inj (asks.symm.trans asks')
  obtain ⟨voters, nodup, sub, length, counts, free⟩ := inv.counted src candidate
  refine inv.set (fun _ _ _ voted => voted) (fun _ _ _ => rfl) { inv.ballot src with }
    (inv.member src) erase_sublist le_rfl fun _ => ⟨dst :: voters, ?_⟩
  have here := nodes_set_self s src ((s.nodes src).stopWaiting c).count
  refine ⟨nodup.cons (free c waits dst args asks same.symm), ?_, ?_, ?_, ?_⟩
  · exact cons_subset.2 ⟨(inv.asked c src dst args asks).2.2.1, sub⟩
  · rw [here]
    exact congrArg (· + 1) length
  · rw [here]
    intro v mem
    rcases mem_cons.1 mem with rfl | mem
    · show votes v (s.nodes src).term = _
      rwa [same]
    · exact counts v mem
  · rw [here]
    intro c' (mem : c' ∈ (s.nodes src).waiting.erase c) dst' args' asks' (same' : args'.term = (s.nodes src).term) among
    rcases mem_cons.1 among with eq | among
    · rw [eq] at asks'
      rw [inv.once c' c src dst args' args asks' asks (same'.trans same)] at mem
      exact (inv.waiting src).not_mem_erase mem
    · exact free c' (mem_of_mem_erase mem) dst' args' asks' same' among

end

/-- The votes that a winner has counted are a majority. -/
theorem majority (candidate : (s.nodes id).role = .candidate)
    (enough : Node.majority (m.peers id) ≤ (s.nodes id).votesReceived) :
    ∃ voters, IsMajority m.ids voters ∧ ∀ v ∈ voters, votes v (s.nodes id).term = some id := by
  obtain ⟨voters, nodup, sub, length, counts, -⟩ := inv.counted id candidate
  refine ⟨voters, ⟨nodup, sub, ?_⟩, counts⟩
  have peers : m.ids.length - 1 ≤ (m.peers id).length := le_length_erase
  unfold Node.majority at enough
  omega

/-- A candidate votes for itself in a term it has not been in before. -/
theorem campaign (member : id ∈ m.ids) :
    Elections m (votes.give id ((s.nodes id).term + 1) id) (s.set id ((s.nodes id).campaign id)) ∧
      Counted m (votes.give id ((s.nodes id).term + 1) id) (s.set id ((s.nodes id).campaign id)) id [id] ∧
      ∀ c dst args, Asks s c id dst args → args.term ≠ (s.nodes id).term + 1 := by
  obtain ⟨-, -, -, later⟩ := inv.ballot id
  have named : id ≠ [] := fun empty => m.named (empty ▸ member)
  have past : ∀ c dst args, Asks s c id dst args → args.term ≠ (s.nodes id).term + 1 := by
    intro c dst args asks
    have := (inv.asked c id dst args asks).2.2.2.2
    omega
  let votes' := votes.give id ((s.nodes id).term + 1) id
  have keeps : ∀ v t c, votes v t = some c → votes' v t = some c := by
    refine Votes.keeps_give ?_
    intro c voted
    rw [later _ (Nat.lt_succ_self _)] at voted
    cases voted
  have counted : Counted m votes' (s.set id ((s.nodes id).campaign id)) id [id] := by
    have here := nodes_set_self s id ((s.nodes id).campaign id)
    refine ⟨nodup_singleton id, by simpa using member, ?_, ?_, ?_⟩
    · rw [here]
      rfl
    · rw [here]
      intro v mem
      rw [mem_singleton.1 mem]
      exact Votes.give_self ..
    · rw [here]
      exact fun c _ dst args asks same => absurd same (past c dst args asks)
  refine ⟨?_, counted, past⟩
  refine inv.set keeps (fun v t ne => Votes.give_of_ne _ _ fun h => ne h.1)
    ⟨rfl, fun empty => absurd empty named, fun _ => Votes.give_self .., fun t high => ?_⟩
    (fun _ => member) (refl _) (Nat.le_succ _) fun _ => ⟨[id], counted⟩
  have high : (s.nodes id).term + 1 < t := high
  exact (Votes.give_of_ne _ _ fun h => by omega).trans (later t (by omega))

/-- A node makes calls. If they ask for votes, then for the first time in its term, each of another peer, none of them
counted yet. -/
theorem send {calls : List (Call F)}
    (asked : ∀ call ∈ calls, ∀ args, call.request = .vote args → call.src = id ∧
      args.candidateID = id ∧ id ∈ m.ids ∧ call.dst ∈ m.ids ∧ call.dst ≠ id ∧
      args.term = (s.nodes id).term)
    (first : ∀ call ∈ calls, ∀ args, call.request = .vote args → ∀ c dst args', Asks s c id dst args' →
      args'.term ≠ (s.nodes id).term) (distinct : (calls.map (·.dst)).Nodup)
    (counted : (s.nodes id).role = .candidate → ∃ voters, Counted m votes s id voters ∧
      ∀ call ∈ calls, ∀ args, call.request = .vote args → call.dst ∉ voters) :
    Elections m votes (s.send id calls) := by
  have here := nodes_send_self s id calls
  have elsewhere {other : NodeID} (ne : other ≠ id) : (s.send id calls).nodes other = s.nodes other :=
    nodes_set_of_ne _ _ ne
  have known : ∀ c ∈ (s.nodes id).waiting, c < s.calls.length := inv.made id
  -- a request for a vote is an old call or one of the new ones
  have either {c : Nat} {src dst : NodeID} {args : RequestVoteArgs}
      (asks : Asks (s.send id calls) c src dst args) : Asks s c src dst args ∨
      s.calls.length ≤ c ∧ calls[c - s.calls.length]? = some ⟨src, dst, .vote args⟩ := by
    unfold Asks Cluster.send at asks
    rw [getElem?_append] at asks
    split at asks
    · exact .inl asks
    · exact .inr ⟨by omega, asks⟩
  have keep {c : Nat} {src dst : NodeID} {args : RequestVoteArgs} (asks : Asks s c src dst args) :
      Asks (s.send id calls) c src dst args :=
    (List.getElem?_append_left (List.getElem?_eq_some_iff.1 asks).1).trans asks
  have term (other : NodeID) : ((s.send id calls).nodes other).term = (s.nodes other).term :=
    nodes_send_elim (motive := fun other n => n.term = (s.nodes other).term) other rfl fun _ => rfl
  constructor
  case ballot =>
    exact fun other => nodes_send_elim other { inv.ballot id with } fun _ => inv.ballot other
  case member => exact fun other => nodes_send_elim other (inv.member id) fun _ => inv.member other
  case waiting =>
    refine fun other => nodes_send_elim other ?_ fun _ => inv.waiting other
    refine List.Nodup.append (inv.waiting id) (nodup_range' ..) fun c old new => ?_
    have low := known c old
    have high := (mem_range'_1.1 new).1
    omega
  case made =>
    have length : (s.send id calls).calls.length = s.calls.length + calls.length := length_append
    rw [length]
    refine fun other => nodes_send_elim other (fun c mem => ?_) fun _ c mem => ?_
    · rcases mem_append.1 mem with old | new
      · have := known c old
        omega
      · exact (mem_range'_1.1 new).2
    · have := inv.made other c mem
      omega
  case asked =>
    intro c src dst args asks
    rw [term]
    rcases either asks with old | ⟨-, new⟩
    · exact inv.asked c src dst args old
    · obtain ⟨rfl, own, member, member', ne, same⟩ := asked _ (mem_of_getElem? new) args rfl
      exact ⟨own, member, member', ne, same.le⟩
  case once =>
    intro c c' src dst args args' asks asks' same
    rcases either asks with old | ⟨low, new⟩
    · rcases either asks' with old' | ⟨-, new'⟩
      · exact inv.once c c' src dst args args' old old' same
      · obtain ⟨rfl, -, -, -, -, now⟩ := asked _ (mem_of_getElem? new') args' rfl
        exact absurd (same.trans now) (first _ (mem_of_getElem? new') args' rfl c dst args old)
    · obtain ⟨rfl, -, -, -, -, now⟩ := asked _ (mem_of_getElem? new) args rfl
      rcases either asks' with old' | ⟨low', new'⟩
      · exact absurd (same.symm.trans now) (first _ (mem_of_getElem? new) args rfl c' dst args' old')
      have eq : (calls.map (·.dst))[c - s.calls.length]? = (calls.map (·.dst))[c' - s.calls.length]? := by
        rw [getElem?_map, getElem?_map, new, new']
        rfl
      have inside : c - s.calls.length < (calls.map (·.dst)).length := by
        rw [length_map]
        exact (List.getElem?_eq_some_iff.1 new).1
      have := (getElem?_inj inside distinct).1 eq
      omega
  case granted =>
    intro a mem reply replied yes
    obtain ⟨src, dst, args, asks, voted⟩ := inv.granted a mem reply replied yes
    exact ⟨src, dst, args, keep asks, voted⟩
  case counted =>
    intro other candidate
    by_cases at' : other = id
    · subst at'
      rw [here] at candidate
      obtain ⟨voters, ⟨nodup, sub, length, counts, free⟩, apart⟩ := counted candidate
      refine ⟨voters, nodup, sub, ?_, ?_, ?_⟩ <;> rw [here]
      · exact length
      · exact counts
      intro c mem dst args asks same
      rcases either asks with old | ⟨-, new⟩
      · rcases mem_append.1 mem with mem | mem
        · exact free c mem dst args old same
        · have low := (List.getElem?_eq_some_iff.1 old).1
          have high := (mem_range'_1.1 mem).1
          omega
      · exact apart _ (mem_of_getElem? new) args rfl
    · rw [elsewhere at'] at candidate
      obtain ⟨voters, old⟩ := inv.counted other candidate
      refine ⟨voters, old.keep (fun _ _ _ voted => voted) ?_ ?_ ?_⟩ <;> rw [elsewhere at']
      intro c mem dst args asks
      rcases either asks with asks | ⟨-, new⟩
      · exact ⟨mem, asks⟩
      · exact absurd (asked _ (mem_of_getElem? new) args rfl).1 at'
  case elected => exact inv.elected

theorem send_unasked {call : Call F}
    (unasked : ∀ args, call.request ≠ .vote args) : Elections m votes (s.send id [call]) := by
  have none {call' : Call F} (mem : call' ∈ [call]) {args : RequestVoteArgs} : call'.request ≠ .vote args :=
    mem_singleton.1 mem ▸ unasked args
  refine inv.send (fun call' mem args asked => absurd asked (none mem))
    (fun call' mem args asked => absurd asked (none mem)) (nodup_singleton _) fun candidate => ?_
  obtain ⟨voters, counted⟩ := inv.counted id candidate
  exact ⟨voters, counted, fun call' mem args asked => absurd asked (none mem)⟩

theorem ballots {lastIndex lastTerm : Nat} (member : id ∈ m.ids) (counted : Counted m votes s id [id])
    (past : ∀ c dst args, Asks s c id dst args → args.term ≠ (s.nodes id).term) :
    Elections m votes (s.send id (s.ballots m id lastIndex lastTerm)) := by
  have peers {call : Call F} (mem : call ∈ s.ballots m id lastIndex lastTerm) :
      ∃ peer ∈ m.peers id, call = ⟨id, peer, .vote ((s.nodes id).voteArgs id lastIndex lastTerm)⟩ := by
    obtain ⟨peer, among, rfl⟩ := mem_map.1 mem
    exact ⟨peer, among, rfl⟩
  have other {peer : NodeID} (mem : peer ∈ m.peers id) : peer ≠ id := fun eq =>
    m.nodup.not_mem_erase (eq ▸ mem)
  refine inv.send ?_ ?_ ?_ fun _ => ⟨[id], counted, ?_⟩
  · intro call mem args asked
    obtain ⟨peer, among, rfl⟩ := peers mem
    cases asked
    exact ⟨rfl, rfl, member, mem_of_mem_erase among, other among, rfl⟩
  · exact fun _ _ _ _ => past
  · have dsts : (s.ballots m id lastIndex lastTerm).map (·.dst) = m.peers id := by
      unfold Cluster.ballots
      rw [map_map]
      exact map_id _
    rw [dsts]
    exact m.nodup.erase id
  · intro call mem args _
    obtain ⟨peer, among, rfl⟩ := peers mem
    exact fun self => other among (mem_singleton.1 self)

/-- A move that casts no vote keeps the elections sound. -/
theorem silent {L : Law} (move : Silent L m s s') : Elections m votes s' := by
  cases move with
  | quiet id n' quiet =>
    exact inv.set_same quiet.term quiet.votedFor quiet.saved (fun r => quiet.role ▸ r)
      (fun c => quiet.role ▸ c) quiet.votesReceived (quiet.waiting ▸ refl _)
  | forget id c => exact inv.set_same rfl rfl rfl (fun r => r) (fun c => c) rfl erase_sublist
  | stepDown id term later => exact inv.stepDown later
  | yield =>
    exact inv.set_same rfl rfl rfl (fun no => absurd rfl no) (nofun) rfl (refl _)
  | restart id => exact inv.restart rfl
  | answer a idle =>
    refine inv.answer fun reply replied yes => ?_
    unfold Answer.Idle at idle
    rw [replied] at idle
    cases idle.symm.trans yes
  | count _ call _ _ _ made asked waits answered own granted yes candidate same =>
    obtain ⟨src, dst, request⟩ := call
    cases asked
    exact inv.count made waits answered own granted yes candidate same
  | winCrash id candidate enough =>
    have back : Elections m votes (s.set id { s.nodes id with role := .leader }.restart) := inv.restart rfl
    refine back.record ?_
    rintro _ _ ⟨⟩
    exact inv.majority candidate enough
  | send | sendSnapshot =>
    refine inv.send_unasked ?_
    nofun
  | store c call args commit =>
    have stores : Elections m votes (s.set call.dst
        { (s.nodes call.dst).store args.entries with commitIndex := commit }) :=
      inv.set_same rfl rfl rfl (fun r => r) (fun c => c) rfl (refl _)
    refine stores.answer ?_
    nofun
  | storeCrash => exact inv.restart rfl
  | pass id index e =>
    have passes : Elections m votes (s.set id { s.nodes id with
        fsm := F.apply e (s.nodes id).fsm, phase := .applied index }) :=
      inv.set_same rfl rfl rfl (fun r => r) (fun c => c) rfl (refl _)
    refine passes.record ?_
    nofun
  | _ =>
    exact inv.set_same rfl rfl rfl (fun r => r) (fun c => c) rfl (refl _)

theorem win {last : Nat} (candidate : (s.nodes id).role = .candidate)
    (enough : Node.majority (m.peers id) ≤ (s.nodes id).votesReceived) :
    Elections m votes ((s.set id ((s.nodes id).lead (m.peers id) last)).record (.elected id (s.nodes id).term)) := by
  have leads : Elections m votes (s.set id ((s.nodes id).lead (m.peers id) last)) :=
    inv.set_same rfl rfl rfl (fun _ => by rw [candidate]; rintro ⟨⟩) (nofun) rfl (refl _)
  refine leads.record ?_
  rintro _ _ ⟨⟩
  exact inv.majority candidate enough

theorem propose {e : Entry} : Elections m votes (s.set id ((s.nodes id).extend e)) :=
  inv.set_same rfl rfl rfl (fun r => r) (fun c => c) rfl (refl _)

/-- Every move keeps the elections sound. -/
theorem move {L : Law} (move : Move L m s s') : ∃ votes', Elections m votes' s' := by
  cases move with
  | silent move => exact ⟨votes, inv.silent move⟩
  | campaign _ _ _ _ member _ _ _ ran =>
    obtain ⟨runs, counted, past⟩ := inv.campaign member
    rw [ran]
    refine ⟨_, runs.ballots member counted ?_⟩
    rw [nodes_set_self]
    exact past
  | campaignCrash id member =>
    obtain ⟨runs, -, -⟩ := inv.campaign member
    have saved : ((s.nodes id).campaign id).saved =
        ((s.set id ((s.nodes id).campaign id)).nodes id).saved := by rw [nodes_set_self]
    have back := runs.restart saved
    rw [Cluster.set_set] at back
    exact ⟨_, back⟩
  | grant _ call _ _ _ made asked same _ _ free =>
    obtain ⟨src, dst, request⟩ := call
    cases asked
    exact ⟨_, inv.grant made same free⟩
  | win _ _ candidate enough => exact ⟨votes, inv.win candidate enough⟩
  | propose => exact ⟨votes, inv.propose⟩

end Elections

end

end

def ElectionSafety (s : Cluster F) : Prop := ∀ t a b, .elected a t ∈ s.history → .elected b t ∈ s.history → a = b

theorem Elections.safe {m : Membership} {votes : Votes} {s : Cluster F} (inv : Elections m votes s) :
    ElectionSafety s := by
  intro t a b one two
  obtain ⟨voters, majority, counts⟩ := inv.elected a t one
  obtain ⟨voters', majority', counts'⟩ := inv.elected b t two
  obtain ⟨v, mem, mem'⟩ := majority.meets majority'
  have same := (counts v mem).symm.trans (counts' v mem')
  exact Option.some.inj same

/-- The votes of a cluster can be told from its run. -/
def SoundElections (m : Membership) (s : Cluster F) : Prop := ∃ votes, Elections m votes s

theorem soundElections {m : Membership} {s : Cluster F} {ok : Cluster F → Action → Prop}
    (reached : Reach (Cluster.next m) ok {} s) : SoundElections m s := by
  refine reached.invariant ⟨_, Elections.start m⟩ fun s a s' inv _ taken => ?_
  have moves := moves_of_next (L := ⟨False, False, False, False, fun _ => True⟩) False.elim False.elim False.elim False.elim (fun _ _ => trivial) taken
  refine moves.invariant ?_ inv
  rintro s s' ⟨votes, inv⟩ move
  exact inv.move move

/-- Over every order, loss, duplication and delay of the messages and any number of restarts,
at most one node becomes leader of a term. -/
theorem electionSafety (F : FSM) (m : Membership) (s : Cluster F)
    (reached : Reach (Cluster.next m) AnyStep {} s) : ElectionSafety s := by
  obtain ⟨votes, inv⟩ := soundElections reached
  exact inv.safe

def emptyFSM : FSM where
  State := Unit
  Data := Unit
  seed := ()
  apply _ _ := ()
  snapshot _ := none
  restore _ _ := (true, ())

def trio : Membership where
  ids := [[97], [98], [99]]
  nodup := by decide
  named := by decide

/-- `a` and `b` run for term 1; `c` votes for `a`, restarts, and refuses `b`. -/
theorem electionSafety_split_vote : ∃ s : Cluster emptyFSM, Reach (Cluster.next trio) AnyStep {} s ∧
    s.history = [.elected [97] 1] ∧ ElectionSafety s := by
  exact Reach.exists_and
    [.timeout [97], .timeout [98], .deliver 1, .restart [99], .deliver 3, .receive 1 0, .receive 3 1]
    (by decide) fun s reached _ => electionSafety emptyFSM trio s reached

/-- Whenever a node stops, its disk has the term it is in and its vote. -/
theorem ballot_saved (F : FSM) (m : Membership) (s : Cluster F) (reached : Reach (Cluster.next m) AnyStep {} s)
    (id : NodeID) : (s.nodes id).saved = ⟨(s.nodes id).term, (s.nodes id).votedFor⟩ := by
  obtain ⟨votes, inv⟩ := soundElections reached
  exact (inv.ballot id).saved

/-- `c` has voted for `a`. -/
theorem ballot_saved_vote : ∃ s : Cluster emptyFSM, Reach (Cluster.next trio) AnyStep {} s ∧
    (s.nodes [99]).votedFor = [97] ∧ (s.nodes [99]).saved = ⟨(s.nodes [99]).term, (s.nodes [99]).votedFor⟩ := by
  exact Reach.exists_and [.timeout [97], .deliver 1] (by decide) fun s reached _ => ballot_saved emptyFSM trio s reached [99]

end TransactionManager.Raft
