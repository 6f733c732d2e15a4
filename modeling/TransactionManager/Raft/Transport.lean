import TransactionManager.Raft.Election

/-!
# Calls over one connection

`internal/raft/transport.go`: `getConn`, `send`, `removeConn` on the caller's side and `handleConn`
on the server's. All callers of a peer share its cached connection, and nothing spans the write of
a request and the read of its reply. A connection carries frames in order in both directions, the
server answers the requests of a connection in order, and a frame is written or read at once. Each
frame carries the number of the call it belongs to, which no one sees.
-/

namespace TransactionManager.Raft
open Lib List GoMap Function

variable {F : FSM}

/-- `Term`, the field that the three replies have in common. -/
def Reply.term : Reply → Nat
  | .vote r => r.term
  | .append r => r.term
  | .install r => r.term

/-- The reply is at the type of the request. -/
def Request.Takes : Request F → Reply → Prop
  | .vote _, .vote _ | .append _, .append _ | .install _, .install _ => True
  | _, _ => False

instance (req : Request F) (r : Reply) : Decidable (req.Takes r) := by
  cases req <;> cases r <;> unfold Request.Takes <;> infer_instance

/-- The decoding in `SendRequestVote`, `SendAppendEntries` and `SendInstallSnapshot`. The frame's type is not looked
at, and gob matches fields by name: of another reply it takes `Term` and leaves the other fields zero. -/
def Request.decodeReply : Request F → Reply → Reply
  | .vote _, .vote r => .vote r
  | .vote _, r => .vote { term := r.term }
  | .append _, .append r => .append r
  | .append _, r => .append { term := r.term }
  | .install _, r => .install { term := r.term }

/-- Where a `send` stands: before `getConn`, its write, its read or `removeConn`, or returned, with an error or what
the caller decoded. -/
inductive SendPhase where
  | start
  | write (conn : Nat)
  | read (conn : Nat)
  | failed (conn : Nat)
  | returned (reply : Option Reply)
  deriving DecidableEq

/-- The connection that the call has in its hands. -/
def SendPhase.conn : SendPhase → Option Nat
  | .write c | .read c | .failed c => some c
  | .start | .returned _ => none

structure SendCall (F : FSM) where
  peer : NodeID
  request : Request F
  phase : SendPhase := .start

/-- A connection: the requests that the server has not taken, the replies that no one has read, and whether the
caller's side is open. A failed write has cut its frame short, and the server takes nothing after it. -/
structure Conn (F : FSM) where
  requests : List (Nat × Request F) := []
  replies : List (Nat × Reply) := []
  isOpen : Bool := true
  cut : Bool := false

/-- The transport of a node, with the server's ends of its connections. `served` are the replies that the servers
gave, by call. -/
structure Transport (F : FSM) where
  conns : GoMap NodeID Nat := ∅
  streams : Nat → Conn F := fun _ => {}
  nextConn : Nat := 0
  calls : List (SendCall F) := []
  served : List (Nat × Reply) := []

/-- One step of a call or of a server. -/
inductive SendAction (F : FSM) where
  | send (peer : NodeID) (request : Request F)
  | getConn (call : Nat) (dials : Bool)
  | write (call : Nat) (ok : Bool)
  | serve (conn : Nat) (reply : Reply)
  | read (call : Nat) (ok : Bool)
  | removeConn (call : Nat)

namespace Transport

def goto (s : Transport F) (i : Nat) (phase : SendPhase) : Transport F :=
  { s with calls := s.calls.modify i fun c => { c with phase } }

def setConn (s : Transport F) (c : Nat) (conn : Conn F) : Transport F := { s with streams := update s.streams c conn }

/-- `getConn`: the cached connection, or a new one if the peer can be reached. -/
def getConn (s : Transport F) (i : Nat) (peer : NodeID) (dials : Bool) : Transport F :=
  match s.conns.get peer with
  | some c => s.goto i (.write c)
  | none =>
    if dials then
      { s.goto i (.write s.nextConn) with
        conns := s.conns.set peer s.nextConn
        nextConn := s.nextConn + 1 }
    else s.goto i (.returned none)

def write (s : Transport F) (i c : Nat) (request : Request F) (ok : Bool) : Transport F :=
  let conn := s.streams c
  if ok ∧ conn.isOpen then
    let requests := if conn.cut then conn.requests else conn.requests ++ [(i, request)]
    (s.setConn c { conn with requests }).goto i (.read c)
  else (s.setConn c { conn with cut := true }).goto i (.failed c)

/-- `removeConn` closes whatever is cached for the peer now. -/
def removeConn (s : Transport F) (peer : NodeID) : Transport F :=
  match s.conns.get peer with
  | some c => { s.setConn c { s.streams c with isOpen := false } with conns := s.conns.delete peer }
  | none => s

def next (s : Transport F) : SendAction F → Option (Transport F)
  | .send peer request => some { s with calls := s.calls ++ [{ peer, request }] }
  | .getConn i dials =>
    match s.calls[i]? with
    | some ⟨peer, _, .start⟩ => some (s.getConn i peer dials)
    | _ => none
  | .write i ok =>
    match s.calls[i]? with
    | some ⟨_, request, .write c⟩ => some (s.write i c request ok)
    | _ => none
  | .serve c reply =>
    match (s.streams c).requests with
    | (i, request) :: rest =>
      if request.Takes reply then
        let conn := s.streams c
        some { s.setConn c { conn with requests := rest, replies := conn.replies ++ [(i, reply)] } with
          served := s.served ++ [(i, reply)] }
      else none
    | [] => none
  | .read i ok =>
    match s.calls[i]? with
    | some ⟨_, request, .read c⟩ =>
      if ok then
        match (s.streams c).isOpen, (s.streams c).replies with
        | true, (_, reply) :: rest =>
          some ((s.setConn c { s.streams c with replies := rest }).goto i
            (.returned (some (request.decodeReply reply))))
        | _, _ => none
      else some (s.goto i (.failed c))
    | _ => none
  | .removeConn i =>
    match s.calls[i]? with
    | some ⟨peer, _, .failed _⟩ => some ((s.removeConn peer).goto i (.returned none))
    | _ => none

/-- Every reply that a call returned was given to its own request, and is at the type of that request. -/
def Belongs (s : Transport F) : Prop := ∀ i call reply, s.calls[i]? = some call → call.phase = .returned (some reply) →
    (i, reply) ∈ s.served ∧ call.request.Takes reply

/-- A call takes the cached connection only while no other call has it in its hands. -/
def Alone (s : Transport F) : SendAction F → Prop
  | .getConn i _ =>
    match (s.calls[i]?).bind fun call => s.conns.get call.peer with
    | some c => ∀ other ∈ s.calls, other.phase.conn ≠ some c
    | none => True
  | _ => True

instance (s : Transport F) (a : SendAction F) : Decidable (s.Alone a) := by
  unfold Alone
  split
  · split <;> infer_instance
  · infer_instance

end Transport

def Conn.Idle (conn : Conn F) : Prop := conn.requests = [] ∧ conn.replies = []

namespace Transport

/-- What a call may rely on. While it waits the connection carries its request or the reply to it and nothing else. -/
def Fits (s : Transport F) (i : Nat) (call : SendCall F) : Prop :=
  match call.phase with
  | .start | .failed _ | .returned none => True
  | .write c => (s.streams c).Idle
  | .read c => (s.streams c).requests.length + (s.streams c).replies.length ≤ 1 ∧
      (∀ e ∈ (s.streams c).requests, e = (i, call.request)) ∧
      ∀ e ∈ (s.streams c).replies, e ∈ s.served ∧ e.1 = i ∧ call.request.Takes e.2
  | .returned (some reply) => (i, reply) ∈ s.served ∧ call.request.Takes reply

/-- The invariant of runs in which connections are not shared. -/
structure Solo (s : Transport F) : Prop where
  fits : ∀ i call, s.calls[i]? = some call → s.Fits i call
  own : ∀ (i j : Nat) (call call' : SendCall F) (c : Nat), s.calls[i]? = some call →
    s.calls[j]? = some call' → call.phase.conn = some c → call'.phase.conn = some c → i = j
  inUse : ∀ (i : Nat) (call : SendCall F) (c : Nat), s.calls[i]? = some call → call.phase.conn = some c → c < s.nextConn
  cached : ∀ peer c, s.conns.get peer = some c → c < s.nextConn
  distinct : ∀ peer peer' c, s.conns.get peer = some c → s.conns.get peer' = some c → peer = peer'
  peers : ∀ (i : Nat) (call : SendCall F) (c : Nat) (peer : NodeID), s.calls[i]? = some call →
    call.phase.conn = some c → s.conns.get peer = some c → peer = call.peer
  fresh : ∀ c, s.nextConn ≤ c → (s.streams c).Idle
  quiet : ∀ peer c, s.conns.get peer = some c →
    (∀ (i : Nat) (call : SendCall F), s.calls[i]? = some call → call.phase.conn ≠ some c) → (s.streams c).Idle

section Step
variable {s s' : Transport F} {i j c : Nat} {call : SendCall F} {request : Request F} {peer : NodeID}

theorem calls_goto (s : Transport F) (i j : Nat) (phase : SendPhase) : (s.goto i phase).calls[j]? =
    if i = j then s.calls[j]?.map fun c => { c with phase } else s.calls[j]? := by
  unfold goto
  rw [getElem?_modify]
  split
  · rfl
  · simp

/-- A call relies on what its own connection carries and on what has been served. -/
theorem Fits.frame (fits : s.Fits i call)
    (streams : ∀ c, call.phase.conn = some c → (s'.streams c).requests = (s.streams c).requests ∧
      (s'.streams c).replies = (s.streams c).replies)
    (served : ∀ e ∈ s.served, e ∈ s'.served) : s'.Fits i call := by
  unfold Fits at fits ⊢
  split
  · trivial
  · trivial
  · trivial
  · rename_i c here
    rw [here] at fits streams
    obtain ⟨requests, replies⟩ := streams c rfl
    unfold Conn.Idle
    rw [requests, replies]
    exact fits
  · rename_i c here
    rw [here] at fits streams
    obtain ⟨requests, replies⟩ := streams c rfl
    rw [requests, replies]
    obtain ⟨one, asked, answered⟩ := fits
    exact ⟨one, asked, fun e mem => ⟨served e (answered e mem).1, (answered e mem).2⟩⟩
  · rename_i reply here
    rw [here] at fits
    exact ⟨served _ fits.1, fits.2⟩

/-- A step of call `i` on the connection `c`, which no other call has. -/
theorem Solo.change (solo : Solo s) {phase : SendPhase} (here : s.calls[i]? = some call)
    (calls : s'.calls = (s.goto i phase).calls) (served : s'.served = s.served)
    (streams : ∀ k ≠ c, (s'.streams k).requests = (s.streams k).requests ∧
      (s'.streams k).replies = (s.streams k).replies)
    (grows : s.nextConn ≤ s'.nextConn) (known : c < s'.nextConn ∨
      phase.conn = none ∧ (s'.streams c).Idle ∧ ∀ peer, s'.conns.get peer ≠ some c)
    (conns : ∀ peer k, k ≠ c → s'.conns.get peer = some k → s.conns.get peer = some k)
    (mine : ∀ k, phase.conn = some k → k = c) (was : ∀ k, call.phase.conn = some k → k = c)
    (alone : ∀ (j : Nat) (other : SendCall F), s.calls[j]? = some other →
      other.phase.conn = some c → j = i) (owner : ∀ peer, s'.conns.get peer = some c → peer = call.peer)
    (fits : s'.Fits i { call with phase })
    (quiet : phase.conn = none → (∃ peer, s'.conns.get peer = some c) → (s'.streams c).Idle) :
    Solo s' := by
  have get (j : Nat) (other : SendCall F) (found : s'.calls[j]? = some other) :
      j = i ∧ other = { call with phase } ∨ j ≠ i ∧ s.calls[j]? = some other := by
    rw [calls, calls_goto] at found
    split at found
    · rename_i eq
      subst eq
      rw [here] at found
      cases found
      exact .inl ⟨rfl, rfl⟩
    · rename_i ne
      exact .inr ⟨fun eq => ne eq.symm, found⟩
  have idle (k : Nat) (ne : k ≠ c) (idle : (s.streams k).Idle) : (s'.streams k).Idle := by
    unfold Conn.Idle
    rw [(streams k ne).1, (streams k ne).2]
    exact idle
  have elsewhere (j : Nat) (other : SendCall F) (ne : j ≠ i) (found : s.calls[j]? = some other)
      (k : Nat) (holds : other.phase.conn = some k) : k ≠ c := by
    rintro rfl
    exact ne (alone j other found holds)
  refine ⟨fun j other found => ?_, fun j j' other other' k found found' holds holds' => ?_,
    fun j other k found holds => ?_, fun peer k found => ?_, fun peer peer' k found found' => ?_,
    fun j other k peer found holds cached => ?_, fun k large => ?_, fun peer k found free => ?_⟩
  · rcases get j other found with ⟨rfl, rfl⟩ | ⟨ne, found⟩
    · exact fits
    · exact (solo.fits j other found).frame
        (fun k holds => streams k (elsewhere j other ne found k holds)) (by simp [served])
  · rcases get j other found with ⟨rfl, rfl⟩ | ⟨ne, found⟩ <;>
      rcases get j' other' found' with ⟨rfl, rfl⟩ | ⟨ne', found'⟩
    · rfl
    · exact absurd (mine k holds) (elsewhere j' other' ne' found' k holds')
    · exact absurd (mine k holds') (elsewhere j other ne found k holds)
    · exact solo.own j j' other other' k found found' holds holds'
  · rcases get j other found with ⟨rfl, rfl⟩ | ⟨ne, found⟩
    · rcases known with lt | ⟨none, -⟩
      · rwa [mine k holds]
      · exact absurd (none.symm.trans holds) (by simp)
    · exact (solo.inUse j other k found holds).trans_le grows
  · by_cases eq : k = c
    · subst eq
      rcases known with lt | ⟨-, -, uncached⟩
      · exact lt
      · exact absurd found (uncached peer)
    · exact (solo.cached peer k (conns peer k eq found)).trans_le grows
  · by_cases eq : k = c
    · subst eq
      rw [owner peer found, owner peer' found']
    · exact solo.distinct peer peer' k (conns peer k eq found) (conns peer' k eq found')
  · rcases get j other found with ⟨rfl, rfl⟩ | ⟨ne, found⟩
    · exact owner peer (mine k holds ▸ cached)
    · have eq := elsewhere j other ne found k holds
      exact solo.peers j other k peer found holds (conns peer k eq cached)
  · by_cases eq : k = c
    · subst eq
      rcases known with lt | ⟨-, still, -⟩
      · omega
      · exact still
    · exact idle k eq (solo.fresh k (grows.trans large))
  · by_cases eq : k = c
    · subst eq
      refine quiet ?_ ⟨peer, found⟩
      have := free i { call with phase } (by rw [calls, calls_goto, if_pos rfl, here]; rfl)
      cases at' : phase.conn with
      | none => rfl
      | some k' =>
        rw [mine k' at'] at at'
        exact absurd at' this
    · refine idle k eq (solo.quiet peer k (conns peer k eq found) fun j other there holds => ?_)
      by_cases same : j = i
      · subst same
        rw [here] at there
        cases there
        exact eq (was k holds)
      · refine free j other ?_ holds
        rw [calls, calls_goto, if_neg fun eq => same eq.symm]
        exact there

/-- A request is answered: if a call waits for the reply it is the one the request came from. -/
theorem Solo.serve (solo : Solo s) {reply : Reply} {rest : List (Nat × Request F)}
    (first : (s.streams c).requests = (i, request) :: rest) (takes : request.Takes reply) :
    Solo { s.setConn c { s.streams c with
      requests := rest
      replies := (s.streams c).replies ++ [(i, reply)] } with served := s.served ++ [(i, reply)] } := by
  have busy : ¬ (s.streams c).Idle := by
    rintro ⟨none, -⟩
    rw [first] at none
    cases none
  have elsewhere (k : Nat) (ne : k ≠ c) (conn : Conn F) : update s.streams c conn k = s.streams k := update_of_ne ne ..
  refine ⟨fun j call found => ?_, solo.own, solo.inUse, solo.cached, solo.distinct, solo.peers, fun k large => ?_,
    fun peer k found free => ?_⟩
  · have fits := solo.fits j call found
    by_cases here : call.phase.conn = some c
    · cases at' : call.phase with
      | start | returned r =>
        rw [at'] at here
        cases here
      | failed k =>
        unfold Fits
        rw [at']
        trivial
      | write k =>
        rw [at'] at here
        cases here
        unfold Fits at fits
        rw [at'] at fits
        exact absurd fits busy
      | read k =>
        rw [at'] at here
        cases here
        unfold Fits at fits ⊢
        rw [at'] at fits ⊢
        obtain ⟨one, asked, answered⟩ := fits
        rw [first] at one asked
        obtain ⟨rfl, rfl⟩ := Prod.mk.inj (asked _ mem_cons_self)
        have empty : rest = [] ∧ (s.streams c).replies = [] := by
          rw [length_cons] at one
          exact ⟨eq_nil_of_length_eq_zero (by omega), eq_nil_of_length_eq_zero (by omega)⟩
        simp [setConn, empty.1, empty.2, takes]
    · refine fits.frame (fun k holds => ?_) fun e mem => mem_append_left _ mem
      have ne : k ≠ c := by
        rintro rfl
        exact here holds
      show (update s.streams c _ k).requests = _ ∧ (update s.streams c _ k).replies = _
      rw [elsewhere k ne]
      exact ⟨rfl, rfl⟩
  · have ne : k ≠ c := by
      rintro rfl
      exact busy (solo.fresh k large)
    show (update s.streams c _ k).Idle
    rw [elsewhere k ne]
    exact solo.fresh k large
  · have ne : k ≠ c := by
      rintro rfl
      exact busy (solo.quiet peer k found free)
    show (update s.streams c _ k).Idle
    rw [elsewhere k ne]
    exact solo.quiet peer k found free

theorem decodeReply_of_takes {reply : Reply} (takes : request.Takes reply) : request.decodeReply reply = reply := by
  cases request <;> cases reply <;> first | exact takes.elim | rfl

theorem Solo.getConn (solo : Solo s) (dials : Bool)
    (here : s.calls[i]? = some ⟨peer, request, .start⟩) (alone : s.Alone (.getConn i dials)) :
    Solo (s.getConn i peer dials) := by
  unfold Transport.getConn
  cases found : s.conns.get peer with
  | some c =>
    have free (j : Nat) (other : SendCall F) (there : s.calls[j]? = some other) : other.phase.conn ≠ some c := by
      simp only [Alone, here, Option.bind_some, found] at alone
      exact alone other (mem_of_getElem? there)
    have idle := solo.quiet peer c found free
    refine solo.change (c := c) here rfl rfl (fun _ _ => ⟨rfl, rfl⟩) le_rfl
      (.inl (solo.cached peer c found)) (fun _ _ _ found => found) ?_ ?_ ?_ ?_ idle ?_
    · rintro k ⟨⟩
      rfl
    · rintro k ⟨⟩
    · exact fun j other there holds => absurd holds (free j other there)
    · exact fun peer' cached => solo.distinct peer' peer c cached found
    · rintro ⟨⟩
  | none =>
    have unused (j : Nat) (other : SendCall F) (there : s.calls[j]? = some other) :
        other.phase.conn ≠ some s.nextConn := by
      intro holds
      have := solo.inUse j other s.nextConn there holds
      omega
    have uncached (peer' : NodeID) : s.conns.get peer' ≠ some s.nextConn := by
      intro cached
      have := solo.cached peer' s.nextConn cached
      omega
    have idle := solo.fresh s.nextConn le_rfl
    cases dials with
    | true =>
      refine solo.change (c := s.nextConn) here rfl rfl
        (fun _ _ => ⟨rfl, rfl⟩) (Nat.le_succ _) (.inl (Nat.lt_succ_self _)) ?_ ?_ ?_ ?_ ?_ idle ?_
      · intro peer' k ne cached
        have cached : (s.conns.set peer s.nextConn).get peer' = some k := cached
        rw [get_set] at cached
        split at cached
        · cases cached
          exact absurd rfl ne
        · exact cached
      · rintro k ⟨⟩
        rfl
      · rintro k ⟨⟩
      · exact fun j other there holds => absurd holds (unused j other there)
      · intro peer' cached
        have cached : (s.conns.set peer s.nextConn).get peer' = some s.nextConn := cached
        rw [get_set] at cached
        split at cached
        · assumption
        · exact absurd cached (uncached peer')
      · rintro ⟨⟩
    | false =>
      refine solo.change (c := s.nextConn) here rfl rfl
        (fun _ _ => ⟨rfl, rfl⟩) le_rfl (.inr ⟨rfl, idle, uncached⟩) (fun _ _ _ found => found) ?_ ?_ ?_
        (fun peer' cached => absurd cached (uncached peer')) trivial (fun _ _ => idle)
      · rintro k ⟨⟩
      · rintro k ⟨⟩
      · exact fun j other there holds => absurd holds (unused j other there)

theorem Solo.proceed (solo : Solo s) {phase : SendPhase} {conn : Conn F} (here : s.calls[i]? = some call)
    (holds : call.phase.conn = some c) (mine : ∀ k, phase.conn = some k → k = c)
    (fits : ((s.setConn c conn).goto i phase).Fits i { call with phase }) (quiet : phase.conn = none → conn.Idle) :
    Solo ((s.setConn c conn).goto i phase) := by
  refine solo.change here rfl rfl (fun k ne => ?_) le_rfl (.inl (solo.inUse i call c here holds))
    (fun _ _ _ found => found) mine ?_ ?_ (fun peer cached => solo.peers i call c peer here holds cached)
    fits fun free _ => ?_
  · show (update s.streams c conn k).requests = _ ∧ (update s.streams c conn k).replies = _
    rw [update_of_ne ne]
    exact ⟨rfl, rfl⟩
  · intro k at'
    rw [holds] at at'
    cases at'
    rfl
  · exact fun j other there at' => solo.own j i other call c there here at' holds
  · show (update s.streams c conn c).Idle
    rw [update_self]
    exact quiet free

theorem conns_removeConn {peer' : NodeID} {k : Nat} (cached : (s.removeConn peer).conns.get peer' = some k) :
    s.conns.get peer' = some k ∧ peer' ≠ peer := by
  unfold Transport.removeConn at cached
  cases found : s.conns.get peer with
  | none =>
    rw [found] at cached
    refine ⟨cached, ?_⟩
    rintro rfl
    exact absurd (found.symm.trans cached) (by simp)
  | some c =>
    rw [found] at cached
    rw [get_delete] at cached
    split at cached
    · cases cached
    · exact ⟨cached, by assumption⟩

/-- A connection that is closed keeps what is under way on it. -/
theorem streams_removeConn (s : Transport F) (peer : NodeID) (k : Nat) :
    ((s.removeConn peer).streams k).requests = (s.streams k).requests ∧
      ((s.removeConn peer).streams k).replies = (s.streams k).replies := by
  unfold Transport.removeConn
  split
  · rename_i c _
    show (update s.streams c _ k).requests = _ ∧ (update s.streams c _ k).replies = _
    rw [update_apply]
    split
    · rename_i eq
      rw [eq]
      exact ⟨rfl, rfl⟩
    · exact ⟨rfl, rfl⟩
  · exact ⟨rfl, rfl⟩

theorem Solo.removeConn (solo : Solo s) (here : s.calls[i]? = some ⟨peer, request, .failed c⟩) :
    Solo ((s.removeConn peer).goto i (.returned none)) := by
  have parts : (s.removeConn peer).calls = s.calls ∧ (s.removeConn peer).served = s.served ∧
      (s.removeConn peer).nextConn = s.nextConn := by
    unfold Transport.removeConn
    split <;> exact ⟨rfl, rfl, rfl⟩
  have calls : ((s.removeConn peer).goto i (.returned none)).calls =
      s.calls.modify i ({ · with phase := .returned none }) := by
    show (s.removeConn peer).calls.modify i _ = s.calls.modify i _
    rw [parts.1]
  refine solo.change (c := c) here calls parts.2.1
    (fun k _ => s.streams_removeConn peer k) parts.2.2.ge (.inl (parts.2.2 ▸ solo.inUse i _ c here rfl))
    (fun peer' k _ cached => (conns_removeConn cached).1) ?_ ?_ ?_ ?_ trivial fun _ cached => ?_
  · nofun
  · rintro k ⟨⟩
    rfl
  · exact fun j other there at' => solo.own j i other _ c there here at' rfl
  · exact fun peer' cached => solo.peers i _ c peer' here rfl (conns_removeConn cached).1
  · obtain ⟨peer', cached⟩ := cached
    obtain ⟨old, other⟩ := conns_removeConn cached
    exact absurd (solo.peers i _ c peer' here rfl old) other

theorem Solo.next (solo : Solo s) {a : SendAction F} (alone : s.Alone a) (taken : s.next a = some s') : Solo s' := by
  cases a with (dsimp only [Transport.next] at taken; (try split at taken) <;> try contradiction)
  | send peer request =>
    cases taken
    have get (j : Nat) (other : SendCall F) (found : (s.calls ++ [⟨peer, request, .start⟩])[j]? = some other) :
        s.calls[j]? = some other ∨ other = ⟨peer, request, .start⟩ := by
      rw [getElem?_append] at found
      split at found
      · exact .inl found
      · exact .inr (mem_singleton.1 (mem_of_getElem? found))
    have holds {j : Nat} {other : SendCall F} {c : Nat}
        (found : (s.calls ++ [⟨peer, request, .start⟩])[j]? = some other)
        (at' : other.phase.conn = some c) : s.calls[j]? = some other := by
      rcases get j other found with old | rfl
      · exact old
      · cases at'
    refine ⟨fun j other found => ?_, fun j j' other other' c found found' at' at'' => ?_,
      fun j other c found at' => ?_, solo.cached, solo.distinct, fun j other c peer' found at' cached => ?_,
      solo.fresh, fun peer' c cached free => ?_⟩
    · rcases get j other found with old | rfl
      · exact (solo.fits j other old).frame (fun _ _ => ⟨rfl, rfl⟩) fun e mem => mem
      · trivial
    · exact solo.own j j' other other' c (holds found at') (holds found' at'') at' at''
    · exact solo.inUse j other c (holds found at') at'
    · exact solo.peers j other c peer' (holds found at') at' cached
    · refine solo.quiet peer' c cached fun j other there => free j other ?_
      exact List.getElem?_append_left (List.getElem?_eq_some_iff.1 there).1 ▸ there
  | getConn i dials =>
    rename_i peer request here
    cases taken
    exact solo.getConn dials here alone
  | write i ok =>
    rename_i peer request c here
    have idle : (s.streams c).Idle := solo.fits i _ here
    cases taken
    unfold Transport.write
    dsimp only
    split
    · refine solo.proceed here rfl ?_ ?_ ?_
      · rintro k ⟨⟩
        rfl
      · show (update s.streams c _ c).requests.length + (update s.streams c _ c).replies.length ≤ 1 ∧ _
        cases (s.streams c).cut <;> simp [setConn, goto, idle.1, idle.2]
      · nofun
    · refine solo.proceed here rfl ?_ trivial ?_
      · rintro k ⟨⟩
        rfl
      · nofun
  | serve =>
    rename_i i request rest first
    obtain ⟨takes, rfl⟩ := of_guard taken
    exact solo.serve first takes
  | read i ok =>
    rename_i peer request c here
    obtain ⟨one, asked, answered⟩ :
      (s.streams c).requests.length + (s.streams c).replies.length ≤ 1 ∧ _ := solo.fits i _ here
    cases ok with
    | true =>
      simp only [if_true] at taken
      split at taken
      · rename_i j reply rest isOpen first
        cases taken
        rw [first] at one answered
        obtain ⟨served, rfl, takes⟩ := answered _ mem_cons_self
        rw [length_cons] at one
        refine solo.proceed here rfl ?_ ?_ fun _ => ?_
        · nofun
        · rw [decodeReply_of_takes takes]
          exact ⟨served, takes⟩
        · have empty : (s.streams c).requests.length = 0 ∧ rest.length = 0 := by omega
          exact ⟨eq_nil_of_length_eq_zero empty.1, eq_nil_of_length_eq_zero empty.2⟩
      · cases taken
    | false =>
      cases taken
      have same : s.setConn c (s.streams c) = s := by
        unfold setConn
        rw [update_eq_self]
      have step : Solo ((s.setConn c (s.streams c)).goto i (.failed c)) := solo.proceed here rfl ?_ trivial ?_
      · rwa [same] at step
      · rintro k ⟨⟩
        rfl
      · nofun
  | removeConn i =>
    rename_i peer request c here
    cases taken
    exact solo.removeConn here

end Step

theorem Solo.start : Solo ({} : Transport F) := by
  have idle : (({} : Transport F).streams 0).Idle := ⟨rfl, rfl⟩
  refine ⟨?_, ?_, ?_, ?_, ?_, ?_, fun _ _ => idle, fun _ _ _ _ => idle⟩
  · nofun
  · nofun
  · nofun
  · nofun
  · nofun
  · nofun

/-- As long as no two calls have one connection in their hands, every call returns the reply to its
own request. -/
theorem belongs_of_alone {s : Transport F} (reached : Reach next Alone {} s) : s.Belongs := by
  have solo : Solo s := reached.invariant .start fun _ _ _ solo alone taken => solo.next alone taken
  intro i call reply found returned
  have fits := solo.fits i call found
  unfold Fits at fits
  rwa [returned] at fits

def voteRequest : Request emptyFSM := .vote ⟨2, [97], 5, 1⟩

def appendRequest : Request emptyFSM := .append ⟨2, [97], 5, 1, [], 5⟩

/-- One call after the other over the same connection. -/
def inTurn : List (SendAction emptyFSM) :=
  [.send [98] voteRequest, .getConn 0 true, .write 0 true, .serve 0 (.vote ⟨2, true⟩), .read 0 true,
    .send [98] appendRequest, .getConn 1 true, .write 1 true, .serve 0 (.append ⟨2, false, 1, 3⟩),
    .read 1 true]

theorem belongs_in_turn : ∃ s, Reach next Alone ({} : Transport emptyFSM) s ∧ s.Belongs ∧
    s.calls.map (·.phase) = [.returned (some (.vote ⟨2, true⟩)), .returned (some (.append ⟨2, false, 1, 3⟩))] := by
  obtain ⟨s, reached, phases⟩ := Reach.exists_such next Alone ({} : Transport emptyFSM) inTurn
    (fun s => s.calls.map (·.phase) = [.returned (some (.vote ⟨2, true⟩)),
      .returned (some (.append ⟨2, false, 1, 3⟩))]) (by decide)
  exact ⟨s, reached, belongs_of_alone reached, phases⟩

/-- Both calls write before either reads, and the append is the first to read: it takes the vote's
reply for its own. -/
def crossed : List (SendAction emptyFSM) :=
  [.send [98] voteRequest, .send [98] appendRequest, .getConn 0 true, .getConn 1 true, .write 0 true,
    .write 1 true, .serve 0 (.vote ⟨2, true⟩), .serve 0 (.append ⟨2, true, 0, 0⟩), .read 1 true]

theorem not_belongs : ∃ s, Reach next AnyStep ({} : Transport emptyFSM) s ∧ ¬ s.Belongs := by
  obtain ⟨s, reached, phase, served⟩ := Reach.exists_such next AnyStep ({} : Transport emptyFSM) crossed
    (fun s => s.calls[1]?.map (·.phase) = some (.returned (some (.append ⟨2, false, 0, 0⟩))) ∧
      s.served = [(0, .vote ⟨2, true⟩), (1, .append ⟨2, true, 0, 0⟩)]) (by decide)
  refine ⟨s, reached, fun belongs => ?_⟩
  obtain ⟨call, found, phase⟩ := Option.map_eq_some_iff.1 phase
  have := (belongs 1 call _ found phase).1
  rw [served] at this
  revert this
  decide

end Transport

end TransactionManager.Raft
