import TransactionManager.Txn.ChainAccess

/-!
# Chain reaping and the versions of returned writes

`ReapEmpty` sets a tombstone on an empty chain and deletes the map entry; a writer that finds the
tombstone deletes the entry as well and starts over. The entry is deleted by key, so a goroutine that
acts on a tombstone it saw earlier can remove a chain another writer has created and written to since,
and a writer that meets four tombstones goes on without any lock. Where neither happens, a live chain is
always the one in the map, and nothing is lost.
-/

namespace TransactionManager.Txn
open Lib TransactionManager.Types Mvcc List Function Option Reach Routine

/-- The goroutine is a write that has prepended a version and returned nil. -/
def Routine.landed : Routine → Bool
  | .mvccWrite w (.returned .ok) => w.op != .delete
  | _ => false

namespace ChainRun

/-- The call has prepended a version and returned nil. -/
def Landed (s : ChainRun) (g : Nat) : Prop := ∃ r ∈ s.routines[g]?, r.landed = true

instance (s : ChainRun) (g : Nat) : Decidable (s.Landed g) := inferInstanceAs (Decidable (∃ r ∈ _, _))

def Carries (obj : ChainObject) (g : Nat) : Prop := some g ∈ obj.versions.map Cell.call

/-- No version is lost and no lock is released by a goroutine that does not hold it. -/
structure Kept (s : ChainRun) : Prop where
  inChain : ∀ g, s.Landed g → g ∉ s.gone → ∃ c, s.entry = some c ∧ Carries (s.chains c) g
  unlocks : s.strayUnlock = false

end ChainRun

namespace Routine

def chain : Routine → Option Nat
  | .mvccWrite _ (.probe _ c) | .mvccWrite _ (.probed _ c) | .mvccWrite _ (.drop _ c)
  | .mvccWrite _ (.lock _ c) | .mvccWrite _ (.test _ c) | .mvccWrite _ (.evict _ c)
  | .mvccWrite _ (.write c) | .mvccWrite _ (.leave c _) => some c
  | .reapEmpty (.lock c) | .reapEmpty (.test c) | .reapEmpty (.delete c) | .reapEmpty (.unlock c) => some c
  | .applyMVCCUndo _ (.removeByXMin c) | .applyMVCCUndo _ (.clearXMax c) => some c
  | .pruneVersions _ (.prune c) => some c
  | _ => none

def holds : Routine → Option Nat
  | .mvccWrite _ (.probed _ c) | .mvccWrite _ (.test _ c) | .mvccWrite _ (.write c)
  | .mvccWrite _ (.leave c _) => some c
  | .reapEmpty (.test c) | .reapEmpty (.delete c) | .reapEmpty (.unlock c) => some c
  | _ => none

/-- The chain a goroutine has seen a tombstone on and deletes next. -/
def deletes : Routine → Option Nat
  | .mvccWrite _ (.drop _ c) | .mvccWrite _ (.evict _ c) => some c
  | .reapEmpty (.delete c) => some c
  | _ => none

def writes : Routine → Option Nat
  | .mvccWrite _ (.write c) => some c
  | _ => none

/-- The tombstones a writer will have met when it next gets a chain. -/
def attempt : Routine → Option Nat
  | .mvccWrite _ (.load a) | .mvccWrite _ (.probe a _) | .mvccWrite _ (.probed a _)
  | .mvccWrite _ (.drop a _) | .mvccWrite _ (.store a) => some a
  | .mvccWrite _ (.lock a _) | .mvccWrite _ (.test a _) => some a
  | .mvccWrite _ (.evict a _) => some (a + 1)
  | _ => none

def Done : Routine → Prop
  | .mvccWrite w (.leave _ .ok) | .mvccWrite w (.returned .ok) => w.op ≠ .delete
  | _ => False

/-- A deletion finds the entry empty or at the chain it is meant for, and a tombstone is not the last one
the loop allows for. -/
def Careful (s : ChainRun) (r : Routine) : Prop := (∀ c ∈ r.deletes, s.entry = none ∨ s.entry = some c) ∧
  match r with
  | .mvccWrite _ (.test a c) => (s.chains c).tombstoned = true → a + 1 < maxRetry
  | _ => True

instance (s : ChainRun) (r : Routine) : Decidable (r.Careful s) := by
  unfold Careful
  split <;> infer_instance

/-- What the state says of a goroutine. -/
structure Fits (s : ChainRun) (g : Nat) (r : Routine) : Prop where
  known : ∀ c ∈ r.chain, c < s.allocated
  held : ∀ c ∈ r.holds, (s.chains c).mu = some g
  dead : ∀ c ∈ r.deletes, (s.chains c).tombstoned = true
  live : ∀ c ∈ r.writes, (s.chains c).tombstoned = false
  tries : ∀ a ∈ r.attempt, a < maxRetry

end Routine

theorem Routine.done_of_landed {r : Routine} (landed : r.landed = true) : r.Done := by
  unfold Routine.landed at landed
  split at landed
  · exact bne_iff_ne.1 landed
  · cases landed

namespace ChainRun

def Careful (s : ChainRun) : ChainAction → Prop
  | .step g => ∀ r ∈ s.routines[g]?, r.Careful s
  | _ => True

instance (s : ChainRun) (a : ChainAction) : Decidable (s.Careful a) := by
  unfold Careful
  split <;> infer_instance

/-- The invariant: the live chain is the one in the map, and tombstoned chains are empty. -/
structure Orderly (s : ChainRun) : Prop where
  entry : ∀ c, s.entry = some c → c < s.allocated
  live : ∀ c < s.allocated, (s.chains c).tombstoned = false → s.entry = some c
  dead : ∀ c, (s.chains c).tombstoned = true → (s.chains c).versions = []
  routines : ∀ g (r : Routine), s.routines[g]? = some r → r.Fits s g
  present : ∀ g (r : Routine), s.routines[g]? = some r → r.Done → g ∉ s.gone → ∃ c < s.allocated, Carries (s.chains c) g
  unlocks : s.strayUnlock = false

variable {s : ChainRun} {g c : Nat} {r : Routine}

/-- A version on a chain shows that the chain is live, so it is the one in the map. -/
theorem Orderly.kept (inv : Orderly s) : s.Kept := by
  refine ⟨fun g ⟨r, found, landed⟩ here => ?_, inv.unlocks⟩
  obtain ⟨c, lt, carries⟩ := inv.present g r found (done_of_landed landed) here
  refine ⟨c, inv.live c lt ?_, carries⟩
  cases tomb : (s.chains c).tombstoned with
  | false => rfl
  | true =>
    unfold Carries at carries
    rw [inv.dead c tomb] at carries
    exact absurd carries not_mem_nil

end ChainRun

namespace Routine
variable {s s' : ChainRun} {g c : Nat} {r : Routine}

theorem holds_of_writes (mem : c ∈ r.writes) : c ∈ r.holds := by
  unfold writes at mem
  split at mem
  · exact mem
  · cases mem

theorem chain_of_holds (mem : c ∈ r.holds) : c ∈ r.chain := by
  unfold holds at mem
  split at mem <;> first | exact mem | cases mem

theorem chain_of_deletes (mem : c ∈ r.deletes) : c ∈ r.chain := by
  unfold deletes at mem
  split at mem <;> first | exact mem | cases mem

theorem done_leave {w : WriteCall} {result : Outcome} :
    (mvccWrite w (.leave c result)).Done ↔ result = .ok ∧ w.op ≠ .delete := by
  cases result <;> simp [Done]

theorem done_returned {w : WriteCall} {result : Outcome} :
    (mvccWrite w (.returned result)).Done ↔ (mvccWrite w (.leave c result)).Done := by
  cases result <;> rfl

/-- Of a goroutine without a chain only the tombstones it has met are to be shown. -/
theorem Fits.unbound (none : r.chain = none) (tries : ∀ a ∈ r.attempt, a < maxRetry) : r.Fits s g := by
  have away (c : Nat) : c ∉ r.chain := by
    rw [none]
    exact not_mem_none c
  exact ⟨fun c mem => absurd mem (away c), fun c mem => absurd (chain_of_holds mem) (away c),
    fun c mem => absurd (chain_of_deletes mem) (away c),
    fun c mem => absurd (chain_of_holds (holds_of_writes mem)) (away c), tries⟩

/-- What the others do to chains that a goroutine does not hold is nothing to it. -/
theorem Fits.mono (fits : r.Fits s g) (more : s.allocated ≤ s'.allocated)
    (held : ∀ c ∈ r.holds, (s'.chains c).mu = some g)
    (dead : ∀ c < s.allocated, (s.chains c).tombstoned = true → (s'.chains c).tombstoned = true)
    (live : ∀ c ∈ r.writes, (s'.chains c).tombstoned = (s.chains c).tombstoned) : r.Fits s' g where
  known c mem := Nat.lt_of_lt_of_le (fits.known c mem) more
  held := held
  dead c mem := dead c (fits.known c (chain_of_deletes mem)) (fits.dead c mem)
  live c mem := (live c mem).trans (fits.live c mem)
  tries := fits.tries

theorem Fits.same (fits : r.Fits s g) (chains : s'.chains = s.chains) (allocated : s'.allocated = s.allocated) :
    r.Fits s' g := by
  refine fits.mono allocated.ge ?_ ?_ ?_ <;> rw [chains]
  · exact fits.held
  · exact fun _ _ tomb => tomb
  · exact fun _ _ => rfl

end Routine

namespace ChainRun
variable {s s' : ChainRun} {g c : Nat} {r : Routine}

theorem chains_put (obj : ChainObject) (c' : Nat) :
    (s.put c obj).chains c' = if c' = c then obj else s.chains c' := update_apply ..

theorem chains_put_self (obj : ChainObject) : (s.put c obj).chains c = obj := update_self ..

theorem routines_move {h : Nat} {r' : Routine} (found : (s.move g r).routines[h]? = some r') :
    h = g ∧ r' = r ∨ h ≠ g ∧ s.routines[h]? = some r' := by
  rw [move, getElem?_set] at found
  split at found
  · rename_i same
    obtain ⟨_, rfl⟩ := of_guard found
    exact .inl ⟨same.symm, rfl⟩
  · rename_i other
    exact .inr ⟨fun same => other same.symm, found⟩

namespace Orderly

theorem vacuous {p : Nat → Prop} : ∀ c ∈ (none : Option Nat), p c := fun c mem =>
  absurd mem (not_mem_none c)

section
variable (inv : Orderly s)
include inv

theorem move (fits : r.Fits s g)
    (present : r.Done → g ∉ s.gone → ∃ c < s.allocated, Carries (s.chains c) g) : Orderly (s.move g r) := by
  refine { inv with routines := fun h r' found => ?_, present := fun h r' found done here => ?_ }
  all_goals obtain ⟨rfl, rfl⟩ | ⟨-, found⟩ := routines_move found
  · exact fits.same rfl rfl
  · exact (inv.routines h r' found).same rfl rfl
  · exact present done here
  · exact inv.present h r' found done here

/-- A chain object changes: its lock stays with its holders, a tombstone is set only where nobody writes, and no
prepended version goes. -/
theorem put {obj : ChainObject}
    (mu : ∀ (h : Nat) (r : Routine), s.routines[h]? = some r → c ∈ r.holds → obj.mu = some h)
    (tombstoned : obj.tombstoned = (s.chains c).tombstoned ∨
      obj.tombstoned = true ∧ ∀ (h : Nat) (r : Routine), s.routines[h]? = some r → c ∉ r.writes)
    (dead : obj.tombstoned = true → obj.versions = [])
    (present : ∀ h, h ∉ s.gone → Carries (s.chains c) h → Carries obj h) : Orderly (s.put c obj) where
  entry := inv.entry
  live c' lt alive := by
    rw [chains_put] at alive
    split at alive
    · rename_i same
      subst same
      rcases tombstoned with same | ⟨set, -⟩
      · exact inv.live c' lt (same ▸ alive)
      · rw [set] at alive
        cases alive
    · exact inv.live c' lt alive
  dead c' tomb := by
    rw [chains_put] at tomb ⊢
    split at tomb
    · rename_i same
      rw [if_pos same]
      exact dead tomb
    · rename_i other
      rw [if_neg other]
      exact inv.dead c' tomb
  routines h r found := by
    have old := inv.routines h r found
    refine old.mono (Nat.le_refl _) (fun c' mem => ?_) (fun c' _ tomb => ?_) (fun c' mem => ?_)
    · rw [chains_put]
      split
      · rename_i same
        exact mu h r found (same ▸ mem)
      · exact old.held c' mem
    · rw [chains_put]
      split
      · rename_i same
        rcases tombstoned with eq | ⟨set, -⟩
        · rw [eq, ← same, tomb]
        · exact set
      · exact tomb
    · rw [chains_put]
      split
      · rename_i same
        rcases tombstoned with eq | ⟨-, idle⟩
        · rw [eq, same]
        · exact absurd (same ▸ mem) (idle h r found)
      · rfl
  present h r found done here := by
    obtain ⟨c', lt, carries⟩ := inv.present h r found done here
    refine ⟨c', lt, ?_⟩
    rw [chains_put]
    split
    · rename_i same
      exact present h here (same ▸ carries)
    · exact carries
  unlocks := inv.unlocks

theorem lock (taken : s.lock g c = some s') : Orderly s' ∧ (s'.chains c).mu = some g ∧ s'.allocated = s.allocated := by
  obtain ⟨free, rfl⟩ := of_guard taken
  refine ⟨inv.put (fun h r found mem => ?_) (.inl rfl) (inv.dead c) (fun _ _ carries => carries),
    congrArg ChainObject.mu (chains_put_self _), rfl⟩
  rw [(inv.routines h r found).held c mem] at free
  cases free

theorem unlock (held : (s.chains c).mu = some g)
    (free : ∀ r : Routine, s.routines[g]? = some r → c ∉ r.holds) : Orderly (s.unlock g c) := by
  have after : Orderly (s.put c { s.chains c with mu := none }) := by
    refine inv.put (fun h r found mem => ?_) (.inl rfl) (inv.dead c) (fun _ _ carries => carries)
    have mine := (inv.routines h r found).held c mem
    rw [held] at mine
    cases mine
    exact absurd mem (free r found)
  refine ⟨after.entry, after.live, after.dead, fun h r found => ?_, after.present, ?_⟩
  · exact (after.routines h r found).same rfl rfl
  · show (s.strayUnlock || (s.chains c).mu != some g) = false
    rw [inv.unlocks, held]
    simp

theorem deleteEntry (tomb : (s.chains c).tombstoned = true)
    (meant : s.entry = none ∨ s.entry = some c) : Orderly s.deleteEntry := by
  refine { inv with
    entry := nofun, live := fun c' lt alive => ?_
    routines := fun h r found => (inv.routines h r found).same rfl rfl }
  have eq := inv.live c' lt alive
  rcases meant with none | here
  · rw [none] at eq
    cases eq
  · rw [here] at eq
    have alive : (s.chains c').tombstoned = false := alive
    rw [← some.inj eq, tomb] at alive
    cases alive

theorem storeNew (none : s.entry = none) : Orderly s.storeNew := by
  have old (c : Nat) (lt : c < s.allocated) : s.storeNew.chains c = s.chains c :=
    (chains_put {} c).trans (if_neg (Nat.ne_of_lt lt))
  refine ⟨fun c eq => ?_, fun c lt alive => ?_, fun c tomb => ?_, fun h r found => ?_,
    fun h r found done here => ?_, inv.unlocks⟩
  · cases eq
    exact Nat.lt_succ_self _
  · rcases Nat.lt_succ_iff_lt_or_eq.1 lt with before | rfl
    · rw [old c before] at alive
      rw [inv.live c before alive] at none
      cases none
    · rfl
  · rw [show s.storeNew.chains c = _ from chains_put {} c] at tomb ⊢
    split at tomb
    · cases tomb
    · rename_i other
      rw [if_neg other]
      exact inv.dead c tomb
  · have fits := inv.routines h r found
    refine fits.mono (Nat.le_succ _) (fun c mem => ?_) (fun c lt tomb => ?_) (fun c mem => ?_)
    · rw [old c (fits.known c (chain_of_holds mem))]
      exact fits.held c mem
    · rw [old c lt]
      exact tomb
    · rw [old c (fits.known c (chain_of_holds (holds_of_writes mem)))]
  · obtain ⟨c, lt, carries⟩ := inv.present h r found done here
    refine ⟨c, Nat.lt_succ_of_lt lt, ?_⟩
    rw [old c lt]
    exact carries

theorem leave (held : (s.chains c).mu = some g) (fits : r.Fits s g) (free : c ∉ r.holds)
    (present : r.Done → g ∉ s.gone → ∃ c < s.allocated, Carries (s.chains c) g) :
    Orderly ((s.unlock g c).move g r) := by
  have moved : Orderly (s.move g r) := inv.move fits present
  refine moved.unlock held fun r' found => ?_
  obtain ⟨-, rfl⟩ | ⟨other, -⟩ := routines_move found
  · exact free
  · exact absurd rfl other

theorem enter (taken : (s.lock g c).map (·.move g r) = some s')
    (fits : ∀ mid : ChainRun, mid.allocated = s.allocated → (mid.chains c).mu = some g → r.Fits mid g)
    (idle : ¬ r.Done) : Orderly s' := by
  obtain ⟨mid, locked, rfl⟩ := map_eq_some_iff.1 taken
  obtain ⟨inv', held, allocated⟩ := inv.lock locked
  exact inv'.move (fits mid allocated held) fun done => absurd done idle

/-- With a round of the loop left, `MVCCWrite` goes on to lock the chain it got. -/
theorem obtain {w : WriteCall} {attempt : Nat} (known : c < s.allocated)
    (tries : attempt < maxRetry) : Orderly (s.move g (.mvccWrite w (obtained attempt c))) := by
  rw [obtained, if_pos tries]
  exact inv.move ⟨fun _ mem => by cases mem; exact known, vacuous, vacuous, vacuous,
    fun _ mem => by cases mem; exact tries⟩ False.elim

/-- The rest of the manager says nothing about the row. -/
theorem manager (m : Manager) : Orderly { s with manager := m } :=
  { inv with routines := fun h r found => (inv.routines h r found).same rfl rfl }

theorem stepWrite {row : RowRef} {w : WriteCall} {pc : WritePc} (found : s.routines[g]? = some (.mvccWrite w pc))
    (careful : (mvccWrite w pc).Careful s) (taken : s.stepWrite row g w pc = some s') : Orderly s' := by
  have fits := inv.routines g _ found
  cases pc with
  | load =>
    dsimp only [ChainRun.stepWrite] at taken
    split at taken
    · rename_i c here
      cases taken
      exact inv.move ⟨fun _ mem => by cases mem; exact inv.entry c here, vacuous, vacuous, vacuous,
        fits.tries⟩ False.elim
    · cases taken
      exact inv.move (.unbound rfl fits.tries) False.elim
  | probe attempt c | lock attempt c =>
    refine inv.enter taken (fun mid allocated held => ⟨fun _ mem => ?_, fun _ mem => ?_, vacuous, vacuous,
      fits.tries⟩) False.elim
    · rw [allocated]
      exact fits.known _ mem
    · cases mem
      exact held
  | probed attempt c =>
    cases taken
    cases tomb : (s.chains c).tombstoned with
    | true =>
      exact inv.leave (fits.held c rfl) ⟨fits.known, vacuous, fun _ mem => by cases mem; exact tomb, vacuous,
        fits.tries⟩ (not_mem_none _) False.elim
    | false =>
      rw [obtained, if_pos (fits.tries attempt rfl)]
      exact inv.leave (fits.held c rfl) ⟨fits.known, vacuous, vacuous, vacuous, fits.tries⟩ (not_mem_none _) False.elim
  | drop attempt c | evict attempt c =>
    cases taken
    exact (inv.deleteEntry (fits.dead c rfl) (careful.1 c rfl)).move (.unbound rfl fits.tries) False.elim
  | store attempt =>
    dsimp only [ChainRun.stepWrite] at taken
    split at taken
    · rename_i c here
      cases taken
      exact inv.obtain (inv.entry c here) (fits.tries attempt rfl)
    · rename_i none
      cases taken
      exact (inv.storeNew none).obtain (Nat.lt_succ_self _) (fits.tries attempt rfl)
  | test _ c =>
    dsimp only [ChainRun.stepWrite] at taken
    split at taken
    · rename_i tomb
      cases taken
      exact inv.leave (fits.held c rfl) ⟨fits.known, vacuous, fun _ mem => by cases mem; exact tomb, vacuous,
        fun _ mem => by cases mem; exact careful.2 tomb⟩ (not_mem_none _) False.elim
    · rename_i alive
      cases taken
      exact inv.move ⟨fits.known, fits.held, vacuous, fun _ mem => by cases mem; exact Bool.eq_false_iff.2 alive,
        vacuous⟩ False.elim
  | write c =>
    cases taken
    have calls := @Manager.writeLocked_calls s.manager row g w (s.chains c).versions
    have mono (h : Nat) (carries : Carries (s.chains c) h) :
        some h ∈ (s.manager.writeLocked row g w (s.chains c).versions).2.2.map Cell.call := by
      rcases calls with ⟨-, -, eq⟩ | ⟨-, eq⟩
      · rw [eq]
        exact mem_cons_of_mem _ carries
      · rw [eq]
        exact carries
    have written : Orderly (({ s with manager := (s.manager.writeLocked row g w (s.chains c).versions).2.1 }).put c
        { s.chains c with versions := (s.manager.writeLocked row g w (s.chains c).versions).2.2 }) := by
      refine (inv.manager _).put (fun h r found mem => (inv.routines h r found).held c mem) (.inl rfl)
        (fun tomb => ?_) (fun h _ carries => mono h carries)
      rw [fits.live c rfl] at tomb
      cases tomb
    refine written.move ⟨fits.known, fun _ mem => ?_, vacuous, vacuous, vacuous⟩ fun done _ =>
      ⟨c, fits.known c rfl, ?_⟩
    · cases mem
      rw [chains_put_self]
      exact fits.held c rfl
    · unfold Carries
      rw [chains_put_self]
      rcases calls with ⟨-, -, eq⟩ | ⟨noVersion, -⟩
      · rw [eq]
        exact mem_cons_self
      · obtain ⟨ok, op⟩ := done_leave.1 done
        exact absurd (noVersion ok) op
  | leave c =>
    cases taken
    exact inv.leave (fits.held c rfl) (.unbound rfl vacuous)
      (not_mem_none _) fun done => inv.present g _ found (done_returned.1 done)
  | returned => cases taken

theorem stepReap {pc : ReapPc} (found : s.routines[g]? = some (.reapEmpty pc))
    (careful : (reapEmpty pc).Careful s) (taken : s.stepReap g pc = some s') : Orderly s' := by
  have fits := inv.routines g _ found
  cases pc with
  | range =>
    dsimp only [ChainRun.stepReap] at taken
    split at taken
    · rename_i c here
      cases taken
      exact inv.move ⟨fun _ mem => by cases mem; exact inv.entry c here, vacuous, vacuous, vacuous, vacuous⟩ False.elim
    · cases taken
      exact inv.move (.unbound rfl vacuous) False.elim
  | lock c =>
    refine inv.enter taken (fun mid allocated held => ⟨fun _ mem => ?_, fun _ mem => ?_, vacuous, vacuous,
      vacuous⟩) False.elim
    · rw [allocated]
      exact fits.known _ mem
    · cases mem
      exact held
  | test c =>
    dsimp only [ChainRun.stepReap] at taken
    split at taken
    · rename_i empty
      cases taken
      have held := fits.held c rfl
      have reaped : Orderly (s.put c { s.chains c with tombstoned := true }) := by
        refine inv.put (fun h r found mem => (inv.routines h r found).held c mem) (.inr ⟨rfl, fun h r other mem => ?_⟩)
          (fun _ => isEmpty_iff.1 empty) (fun _ _ carries => carries)
        -- whoever writes to the chain holds its lock, which is the reaper's
        have its := (inv.routines h r other).held c (holds_of_writes mem)
        rw [held] at its
        cases its
        rw [found] at other
        cases other
        cases mem
      refine reaped.move ⟨fits.known, fun _ mem => ?_, fun _ mem => ?_, vacuous, vacuous⟩ False.elim
      · cases mem
        rw [chains_put_self]
        exact held
      · cases mem
        rw [chains_put_self]
    · cases taken
      exact inv.move ⟨fits.known, fits.held, vacuous, vacuous, vacuous⟩ False.elim
  | delete c =>
    cases taken
    exact (inv.deleteEntry (fits.dead c rfl) (careful.1 c rfl)).move
      ⟨fits.known, fits.held, vacuous, vacuous, vacuous⟩ False.elim
  | unlock c =>
    cases taken
    exact inv.leave (fits.held c rfl) (.unbound rfl vacuous) (not_mem_none _) False.elim
  | finished => cases taken

theorem forget (calls : List Nat) : Orderly { s with gone := s.gone ++ calls } :=
  { inv with
    routines := fun h r found => (inv.routines h r found).same rfl rfl
    present := fun h r found done here => inv.present h r found done fun mem => here (mem_append_left _ mem) }

/-- Versions are removed from a chain that nobody holds, and noted as gone. -/
theorem filterVersions {keep : Version → Bool} (taken : s.filterVersions c keep = some s') :
    Orderly s' ∧ s'.allocated = s.allocated := by
  obtain ⟨_, rfl⟩ := of_guard taken
  refine ⟨(inv.forget _).put (fun h r found mem => (inv.routines h r found).held c mem) (.inl rfl) (fun tomb => ?_)
    (fun h here carries => ?_), rfl⟩
  · rw [inv.dead c tomb]
    rfl
  · obtain ⟨cell, mem, call⟩ := mem_map.1 carries
    refine mem_map.2 ⟨cell, mem_filter.2 ⟨mem, ?_⟩, call⟩
    by_contra removed
    have out : (!keep cell.version) = true := by simpa using removed
    exact here (mem_append_right _ (mem_filterMap.2 ⟨cell, mem_filter.2 ⟨mem, out⟩, call⟩))

theorem clearXMax {txnID : Nat} (taken : s.clearXMax c txnID = some s') : Orderly s' := by
  obtain ⟨_, rfl⟩ := of_guard taken
  refine inv.put (fun h r found mem => (inv.routines h r found).held c mem) (.inl rfl) (fun tomb => ?_)
    (fun h _ carries => ?_)
  · rw [inv.dead c tomb]
    rfl
  · obtain ⟨cell, mem, call⟩ := mem_map.1 carries
    refine mem_map.2 ⟨_, mem_map_of_mem mem, ?_⟩
    split
    · exact call
    · exact call

theorem stepUndo {txnID : Nat} {pc : UndoPc}
    (found : s.routines[g]? = some (.applyMVCCUndo txnID pc)) (taken : s.stepUndo g txnID pc = some s') :
    Orderly s' := by
  have fits := inv.routines g _ found
  cases pc with
  | getChain =>
    dsimp only [ChainRun.stepUndo] at taken
    split at taken
    · rename_i c here
      cases taken
      exact inv.move ⟨fun _ mem => by cases mem; exact inv.entry c here, vacuous, vacuous, vacuous, vacuous⟩ False.elim
    · cases taken
      exact inv.move (.unbound rfl vacuous) False.elim
  | removeByXMin c =>
    obtain ⟨mid, filtered, rfl⟩ := map_eq_some_iff.1 taken
    obtain ⟨inv', allocated⟩ := inv.filterVersions filtered
    refine inv'.move ⟨fun _ mem => ?_, vacuous, vacuous, vacuous, vacuous⟩ False.elim
    rw [allocated]
    exact fits.known _ mem
  | clearXMax c =>
    obtain ⟨mid, cleared, rfl⟩ := map_eq_some_iff.1 taken
    exact (inv.clearXMax cleared).move (.unbound rfl vacuous) False.elim
  | finished => cases taken

theorem stepPrune {horizon : Nat} {pc : PrunePc} (taken : s.stepPrune g horizon pc = some s') : Orderly s' := by
  cases pc with
  | range =>
    dsimp only [ChainRun.stepPrune] at taken
    split at taken
    · rename_i c here
      cases taken
      exact inv.move ⟨fun _ mem => by cases mem; exact inv.entry c here, vacuous, vacuous, vacuous, vacuous⟩ False.elim
    · cases taken
      exact inv.move (.unbound rfl vacuous) False.elim
  | prune c =>
    obtain ⟨mid, filtered, rfl⟩ := map_eq_some_iff.1 taken
    exact (inv.filterVersions filtered).1.move (.unbound rfl vacuous) False.elim
  | finished => cases taken

/-- A goroutine starts that refers to no chain yet. -/
theorem spawn (fits : ∀ g, r.Fits s g) (idle : ¬ r.Done) : Orderly (s.spawn r) := by
  refine { inv with routines := fun h r' found => ?_, present := fun h r' found done here => ?_ }
  all_goals rcases getElem?_concat_cases found with old | ⟨-, rfl⟩
  · exact (inv.routines h r' old).same rfl rfl
  · exact (fits h).same rfl rfl
  · exact inv.present h r' old done here
  · exact absurd done idle

theorem next {row : RowRef} {a : ChainAction} (careful : s.Careful a)
    (taken : s.next row a = some s') : Orderly s' := by
  unfold ChainRun.next at taken
  split at taken
  · cases taken
  cases a with
  | manager m =>
    cases taken
    exact inv.manager m
  | mvccWrite id values op =>
    obtain ⟨txn, -, rfl⟩ := map_eq_some_iff.1 taken
    exact inv.spawn (fun _ => .unbound rfl fun _ mem => by cases mem; decide) False.elim
  | reapEmpty | pruneVersions =>
    cases taken
    exact inv.spawn (fun _ => .unbound rfl vacuous) False.elim
  | abort id =>
    obtain ⟨txn, -, rfl⟩ := map_eq_some_iff.1 taken
    split
    · exact (inv.manager _).spawn (fun _ => .unbound rfl vacuous) False.elim
    · exact inv.manager _
  | step g =>
    obtain ⟨r, found, taken⟩ := bind_eq_some_iff.1 taken
    have careful := careful r found
    cases r with
    | mvccWrite => exact inv.stepWrite found careful taken
    | reapEmpty pc => exact inv.stepReap found careful taken
    | applyMVCCUndo => exact inv.stepUndo found taken
    | pruneVersions => exact inv.stepPrune taken

end

theorem start (m : Manager) (seed : Option VersionChain) : Orderly (start m seed) := by
  cases seed with
  | none =>
    refine ⟨nofun, fun c lt => absurd lt (Nat.not_lt_zero c), nofun, ?_, ?_, rfl⟩
    · simp [ChainRun.start]
    · simp [ChainRun.start]
  | some =>
    refine ⟨fun c eq => ?_, fun c lt _ => ?_, fun c tomb => ?_, ?_, ?_, rfl⟩
    · cases eq
      exact Nat.one_pos
    · exact congrArg some (Nat.lt_one_iff.1 lt).symm
    · dsimp only [ChainRun.start] at tomb
      rw [update_apply] at tomb
      split at tomb <;> cases tomb
    · simp [ChainRun.start]
    · simp [ChainRun.start]

end Orderly

section
variable {row : RowRef} {m : Manager} {seed : Option VersionChain}

/-- **Where deletions find the entry they are meant for**, and the loop of `MVCCWrite` is not used up, the
version of a write that returned nil stays on the chain in the map until an abort or the vacuum removes
it, and no goroutine unlocks a chain that it does not hold. -/
theorem kept_of_careful (reached : Reach (ChainRun.next row) Careful (start m seed) s) : s.Kept := by
  have inv : Orderly s :=
    reached.invariant (Orderly.start m seed) fun s a s' inv careful taken => inv.next careful taken
  exact inv.kept

end

def twoWriters : Manager := (((({} : Manager).begin .mvcc .readCommitted).2).begin .mvcc .readCommitted).2

/-- A row of the traces below, and a value for it. -/
def oneKey : RowRef := ([116], [107])

@[inherit_doc oneKey]
def oneValue : RowData := some [intVal 1]

def steps (g n : Nat) : List ChainAction := List.replicate n (.step g)

/-- The first transaction gets a chain, which is reaped before it has the lock; it finds the tombstone. -/
def meetsTombstone : List ChainAction :=
  .mvccWrite 1 oneValue .insert :: steps 0 2 ++ .reapEmpty :: steps 1 5 ++ steps 0 2

/-- The writer evicts the tombstoned chain, creates another and writes to that one. -/
theorem kept_second_chain : ∃ s, Reach (ChainRun.next oneKey) Careful (start twoWriters none) s ∧
    s.Landed 0 ∧ 0 ∉ s.gone ∧ s.entry = some 1 ∧ s.Kept := by
  obtain ⟨s, reached, landed, gone, entry⟩ := exists_such (ChainRun.next oneKey) Careful
    (start twoWriters none) (meetsTombstone ++ steps 0 7)
    (fun s => s.Landed 0 ∧ 0 ∉ s.gone ∧ s.entry = some 1) (by decide)
  exact ⟨s, reached, landed, gone, entry, kept_of_careful reached⟩

/-- Between the test and the eviction another writer creates a chain, writes to it and returns: the
eviction takes that chain away. And a writer whose chain is reaped four times writes without the lock
and unlocks a chain that is not locked. -/
theorem not_kept : (¬ ∀ s, Reach (ChainRun.next oneKey) AnyStep (start twoWriters none) s →
      ∀ g, s.Landed g → g ∉ s.gone → ∃ c, s.entry = some c ∧ Carries (s.chains c) g) ∧
    ¬ ∀ s, Reach (ChainRun.next oneKey) AnyStep (start twoWriters none) s → s.strayUnlock = false := by
  constructor
  · intro kept
    obtain ⟨s, reached, landed, gone, entry⟩ := exists_such (ChainRun.next oneKey) AnyStep (start twoWriters none)
      (meetsTombstone ++ .mvccWrite 2 oneValue .insert :: steps 2 6 ++ steps 0 1)
      (fun s => s.Landed 2 ∧ 2 ∉ s.gone ∧ s.entry = none) (by decide)
    obtain ⟨c, here, -⟩ := kept s reached 2 landed gone
    rw [entry] at here
    cases here
  · intro kept
    obtain ⟨s, reached, stray⟩ := exists_such (ChainRun.next oneKey) AnyStep (start twoWriters none)
      (meetsTombstone ++ steps 0 3 ++ .reapEmpty :: steps 2 5 ++ steps 0 5 ++ .reapEmpty :: steps 3 5 ++
        steps 0 5 ++ .reapEmpty :: steps 4 5 ++ steps 0 7)
      (fun s => s.strayUnlock ≠ false) (by decide)
    exact stray (kept s reached)

end ChainRun

end TransactionManager.Txn
