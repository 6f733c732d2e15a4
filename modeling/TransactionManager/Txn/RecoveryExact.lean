import TransactionManager.Txn.TwoPLLog

/-!
# Exactness of crash recovery

Redo replays the writes of the committed transactions in log order, so each row ends as its
last committed write leaves it. The locks put the writes of a row in commit order. Redo does
not look at compensation records: a write that was rolled back to a savepoint is replayed
with the rest.
-/

namespace TransactionManager.Txn
open Lib TransactionManager.Types List Option Storage Wal Manager TwoPLRun RowWrite TwoPLEvent
variable {h : List TwoPLEvent} {t : Nat}

def TwoPLEvent.wrote : TwoPLEvent → Option (Nat × RowWrite)
  | .write t row op values => some (t, ⟨row, op, values⟩)
  | _ => none

def writes (h : List TwoPLEvent) : List (Nat × RowWrite) := h.filterMap wrote

/-- The writes of the transactions that meet `C`, rolled back or not. -/
def writesBy (C : Nat → Prop) [DecidablePred C] (h : List TwoPLEvent) : List RowWrite :=
  ((writes h).filter fun w => C w.1).map Prod.snd

/-- How an event changes the net effects of a transaction: a rollback cuts them at the
position of the savepoint. -/
def effect (t : Nat) (ws : List RowWrite) : TwoPLEvent → List RowWrite
  | .write u row op values => if u = t then ws ++ [⟨row, op, values⟩] else ws
  | .rollback u position => if u = t then ws.take position else ws
  | _ => ws

/-- The net effects of a transaction: its writes that were not rolled back to a savepoint. -/
def effects (h : List TwoPLEvent) (t : Nat) : List RowWrite := h.foldl (effect t) []

/-- The transactions whose `COMMIT` is in the log, in its order. -/
def committers (log : List LogRecord) : List Nat :=
  log.filterMap fun rec => if rec.type = .commit then some rec.txnID else none

/-- The seed with the net effects of the committed transactions, in commit order. -/
def expected (seed : Catalog) (h : List TwoPLEvent) (log : List LogRecord) : Catalog :=
  (committers log).foldl (fun c t => (effects h t).foldl apply c) seed

/-- The freshly seeded catalog after recovery. -/
def recovered (seed : Catalog) (log : List LogRecord) : Catalog := applyRedoOps (runRecovery log).redoOps seed

/-- Whatever prefix of the log survives, recovery gives the net effects of the transactions
committed in it. -/
def RecoveryExact (seed : Catalog) (s : TwoPLRun) : Prop :=
  ∀ log, log <+: s.mgr.records → SameRows (recovered seed log) (expected seed s.hist log)

def lastOn (ws : List RowWrite) (row : RowRef) : Option RowWrite := ws.reverse.find? fun w => row = w.row

/-- Values that their bytes give back; a delete has none. -/
def Readable (values : RowData) (op : UndoOpType) : Prop := op = .delete ∨ ∃ vs ∈ values, reencoded vs = some vs

instance (values : RowData) (op : UndoOpType) : Decidable (Readable values op) := by
  unfold Readable
  infer_instance

/-- A read, or a write of readable values. -/
def RowOp.Readable : RowOp → Prop
  | .read _ => True
  | .write _ values op => Txn.Readable values op

instance (o : RowOp) : Decidable o.Readable := by
  cases o <;> unfold RowOp.Readable <;> infer_instance

/-- The condition on the steps: a write is called with readable values, and a transaction commits with its last write
of each row in place. -/
def Redoable (s : TwoPLRun) : TwoPLAction → Prop
  | .start _ o => o.Readable
  | .commit t => ∀ w ∈ writesBy (· = t) s.hist, lastOn (writesBy (· = t) s.hist) w.row = lastOn (effects s.hist t) w.row
  | _ => True

instance (s : TwoPLRun) (a : TwoPLAction) : Decidable (Redoable s a) := by
  unfold Redoable
  cases_type TwoPLAction <;> infer_instance

/-! ## Rows after a sequence of writes -/

theorem isSome_lookup_foldl (ws : List RowWrite) (c : Catalog) (name : GoString) :
    ((ws.foldl apply c).lookup name).isSome = (c.lookup name).isSome := by
  induction ws generalizing c with
  | nil => rfl
  | cons w ws ih => exact (ih _).trans (isSome_lookup_applyOp c w.row w.values w.op name)

theorem lastOn_append_singleton (ws : List RowWrite) (w : RowWrite) (row : RowRef) :
    lastOn (ws ++ [w]) row = if row = w.row then some w else lastOn ws row := by
  unfold lastOn
  split <;> simp_all

/-- A row is what its last write made of it. -/
theorem row_foldl_apply (ws : List RowWrite) (c : Catalog) (row : RowRef)
    (table : (c.lookup row.1).isSome) : (ws.foldl apply c).row row.1 row.2 =
      (lastOn ws row).elim (c.row row.1 row.2) outcome := by
  induction ws using List.reverseRecOn with
  | nil => rfl
  | append_singleton ws w ih =>
    rw [foldl_append, lastOn_append_singleton]
    show (w.apply (ws.foldl apply c)).row row.1 row.2 = _
    rw [row_apply _ w row fun _ => (isSome_lookup_foldl ws c row.1).trans table, ih]
    split <;> rfl

/-! ## What redo does -/

/-- Redo of what is logged by the transactions that meet `C`. -/
def Logged.redo (C : Nat → Prop) [DecidablePred C] (c : Catalog) : Logged → Catalog
  | .write t row op after =>
    if C t then applyRedoOp c ⟨t, LSNInvalid, op, row.1, row.2, after⟩ else c
  | .commit _ => c

/-- The redo pass only depends on what is logged. -/
theorem applyRedoOps_eq (C : Nat → Prop) [DecidablePred C] (log : List LogRecord) (c : Catalog) :
    applyRedoOps ((log.filter fun rec => rec.type = .write ∧ C rec.txnID).map LogRecord.redoOp) c =
      (log.filterMap loggedRecord).foldl (Logged.redo C) c := by
  rw [applyRedoOps, foldl_map, foldl_filter, foldl_filterMap]
  apply foldl_ext
  intro c rec _
  unfold loggedRecord Logged.redo
  cases type : rec.type <;> simp [LogRecord.redoOp, applyRedoOp]

/-- Redo of a readable write applies it. -/
theorem applyRedoOp_readable (c : Catalog) (t : Nat) (row : RowRef) {op : UndoOpType}
    {values : RowData} (readable : Readable values op) :
    applyRedoOp c ⟨t, LSNInvalid, op.code, row.1, row.2, afterBytes values⟩ = apply c ⟨row, op, values⟩ := by
  have put (vs : List Value) (again : reencoded vs = some vs) : setRow c row.1 row.2 (afterBytes (some vs)) =
        c.modify row.1 fun t => t.putRow row.2 (some vs) := by
    obtain ⟨bytes, encoded, decoded⟩ := bind_eq_some_iff.1 again
    have bytesEq : afterBytes (some vs) = bytes := by
      show (encodeValues vs).getD [] = bytes
      rw [encoded]
      rfl
    unfold setRow
    rw [bytesEq]
    cases result : decodeValues bytes with
    | error e =>
      rw [result] at decoded
      cases decoded
    | ok =>
      rw [result] at decoded
      cases decoded
      rfl
  rcases readable with rfl | ⟨vs, rfl, again⟩
  · rfl
  · cases op with
    | insert | update => exact put vs again
    | delete => rfl

/-- What is logged of a readable history redoes its writes. -/
theorem foldl_redo (C : Nat → Prop) [DecidablePred C] (h : List TwoPLEvent) (c : Catalog)
    (readable : ∀ t row op values, .write t row op values ∈ h → Readable values op) :
    (h.filterMap logged).foldl (Logged.redo C) c = (writesBy C h).foldl apply c := by
  rw [writesBy, writes, foldl_map, foldl_filter, foldl_filterMap, foldl_filterMap]
  apply foldl_ext
  intro c e mem
  cases e with
  | write t row op values =>
    simp only [logged, wrote, Logged.redo, decide_eq_true_eq,
      applyRedoOp_readable c t row (readable t row op values mem)]
  | _ => rfl

/-- Recovery applies the writes of the committed transactions in the order of the log. -/
theorem recovered_eq {s : TwoPLRun} (log : LogInv s) (books : Books s) (seed : Catalog)
    (readable : ∀ t row op values, .write t row op values ∈ s.hist → Readable values op) :
    recovered seed s.mgr.records = (writesBy (fun t => .commit t ∈ s.hist) s.hist).foldl apply seed := by
  unfold recovered
  rw [redoOps_runRecovery log.plain.threaded, ← foldl_redo _ _ _ readable, ← log.same, ← applyRedoOps_eq]
  congr 2
  apply filter_congr
  intro rec _
  simp only [log.status_eq_one_iff books]

/-! ## The last committed write of a row -/

theorem writes_append_singleton (h : List TwoPLEvent) (e : TwoPLEvent) :
    writes (h ++ [e]) = writes h ++ e.wrote.toList := by
  unfold writes
  rw [filterMap_append]
  exact congrArg _ (filterMap_toList (some e) _)

theorem effects_append_singleton (h : List TwoPLEvent) (e : TwoPLEvent) (t : Nat) :
    effects (h ++ [e]) t = effect t (effects h t) e := by
  unfold effects
  rw [foldl_append]
  rfl

theorem effects_other {e : TwoPLEvent} (other : e.txn ≠ t) : effects (h ++ [e]) t = effects h t := by
  rw [effects_append_singleton]
  cases e <;> first | rfl | exact if_neg other

theorem mem_writesBy_of_mem_effects {w : RowWrite} (mem : w ∈ effects h t) : w ∈ writesBy (· = t) h := by
  induction h using List.reverseRecOn with
  | nil => cases mem
  | append_singleton h e ih =>
    rw [effects_append_singleton] at mem
    unfold writesBy at *
    rw [writes_append_singleton, filter_append, map_append, mem_append]
    cases e with
    | write =>
      dsimp only [effect] at mem
      split at mem
      · rename_i mine
        rcases mem_append.1 mem with old | new
        · exact .inl (ih old)
        · refine .inr ?_
          simpa [wrote, mine] using new
      · exact .inl (ih mem)
    | rollback =>
      dsimp only [effect] at mem
      split at mem
      · exact .inl (ih (mem_of_mem_take mem))
      · exact .inl (ih mem)
    | _ => exact .inl (ih mem)

/-- The last write on a row of the transactions that meet `C`. -/
theorem lastOn_writesBy (C : Nat → Prop) [DecidablePred C] (h : List TwoPLEvent) (row : RowRef) :
    lastOn (writesBy C h) row = ((writes h).reverse.find? fun w => C w.1 ∧ row = w.2.row).map Prod.snd := by
  unfold lastOn writesBy
  rw [← map_reverse, find?_map, ← filter_reverse, find?_filter]
  simp

/-- The order of two writes is the order of their events. -/
theorem precedes_of_writes {x y : Nat × RowWrite} (order : Precedes (writes h) x y) :
    Precedes h (.write x.1 x.2.row x.2.op x.2.values) (.write y.1 y.2.row y.2.op y.2.values) := by
  have events : ((writes h).map fun w => write w.1 w.2.row w.2.op w.2.values).Sublist h := by
    clear order
    induction h with
    | nil => exact List.Sublist.slnil
    | cons e h ih =>
      cases e with
      | write => exact ih.cons_cons _
      | _ => exact ih.cons _
  exact (List.Sublist.map _ order).trans events

/-- A committing transaction that wrote the row wrote it last: one that committed before had waited for the lock or
had written first. -/
theorem lastOn_committing {s : TwoPLRun} (inv : TwoPLInv (· = .x) s) (run : s.mgr.Active t)
    {w : RowWrite} {row : RowRef} (last : lastOn (writesBy (· = t) s.hist) row = some w) :
    lastOn (writesBy (fun u => .commit u ∈ s.hist ++ [.commit t]) s.hist) row = some w := by
  rw [lastOn_writesBy] at last ⊢
  obtain ⟨found, here, rfl⟩ := map_eq_some_iff.1 last
  have mine : found.1 = t ∧ row = found.2.row := by simpa using find?_some here
  refine map_eq_some_iff.2 ⟨found, find?_reverse_of_no_later here ?_ fun y order later => ?_, rfl⟩
  · simp [mine]
  simp only [decide_eq_true_eq, mem_append, mem_singleton, commit.injEq] at later ⊢
  rcases later with ⟨committed | same, onRow⟩
  · -- the lock of `t` on the row keeps every other writer away until `t` ends
    exfalso
    have committed := (inv.books.commits y.1).1 committed
    have other : t ≠ y.1 := by
      rintro rfl
      exact (inv.books.running y.1 run).2.2.1 committed
    have access := precedes_of_writes order
    rw [mine.1] at access
    rcases inv.hist.order _ _ t y.1 row .x .x (by rw [mine.2]; rfl) (by rw [onRow]; rfl) other rfl rfl
      (.inl rfl) access with aborted | first
    · exact (inv.books.running t run).2.2.2 aborted
    · exact (inv.books.running t run).2.2.1 ((inv.books.commits t).1 first.mem_left)
  · exact ⟨same, onRow⟩

/-! ## The invariant of a run -/

structure ReplayInv (seed : Catalog) (s : TwoPLRun) : Prop where
  locks : TwoPLInv (· = .x) s
  log : LogInv s
  calls : CallsInv RowOp.Readable s
  readable : ∀ t row op values, .write t row op values ∈ s.hist → Readable values op
  exact : RecoveryExact seed s

section
variable {seed : Catalog} {s s' : TwoPLRun} {a : TwoPLAction} {t : Nat}

/-- What is expected of a log does not depend on later events. -/
theorem expected_append {e : Option TwoPLEvent} {log : List LogRecord} (books : Books s)
    (logged : LogInv s) (part : log <+: s.mgr.records) (running : ∀ e' ∈ e, s.mgr.Active e'.txn) :
    expected seed (s.hist ++ e.toList) log = expected seed s.hist log := by
  apply foldl_ext
  intro c t mem
  cases e with
  | none =>
    rw [show s.hist ++ (none : Option TwoPLEvent).toList = s.hist from append_nil _]
  | some e =>
    show ((effects (s.hist ++ [e]) t).foldl apply c) = _
    rw [effects_other]
    rintro rfl
    obtain ⟨rec, inside, eq⟩ := mem_filterMap.1 mem
    split at eq
    · rename_i commit
      have id : rec.txnID = e.txn := some.inj eq
      have committed := (logged.commit_mem_iff e.txn).1 ⟨rec, part.subset inside, commit, id⟩
      exact (books.running _ (running e rfl)).2.2.1 ((books.commits _).1 committed)
    · cases eq

theorem writesBy_append {e : Option TwoPLEvent} (books : Books s)
    (running : ∀ e' ∈ e, s.mgr.Active e'.txn) (other : ∀ u, e ≠ some (.commit u)) :
    writesBy (fun u => .commit u ∈ s.hist ++ e.toList) (s.hist ++ e.toList) =
      writesBy (fun u => .commit u ∈ s.hist) s.hist := by
  cases e with
  | none => simp
  | some e =>
    have commits (u : Nat) : .commit u ∈ s.hist ++ (some e).toList ↔ .commit u ∈ s.hist := by
      rw [mem_append]
      refine or_iff_left fun mem => other u ?_
      rw [mem_singleton.1 mem]
    unfold writesBy
    simp only [commits]
    show List.map _ (List.filter _ (writes (s.hist ++ [e]))) = _
    rw [writes_append_singleton, filter_append]
    cases e with
    | write u =>
      have uncommitted : commit u ∉ s.hist := fun mem =>
        (books.running u (running _ rfl)).2.2.1 ((books.commits u).1 mem)
      simp [wrote, uncommitted]
    | _ => simp [wrote]

/-- A commit of a transaction that did not write the row leaves the row's last committed write. -/
theorem lastOn_aside {row : RowRef} (none' : lastOn (writesBy (· = t) s.hist) row = none) :
    lastOn (writesBy (fun u => .commit u ∈ s.hist ++ [.commit t]) s.hist) row =
      lastOn (writesBy (fun u => .commit u ∈ s.hist) s.hist) row := by
  rw [lastOn_writesBy, map_eq_none_iff, find?_eq_none] at none'
  rw [lastOn_writesBy, lastOn_writesBy, ← head?_filter, ← head?_filter]
  congr 2
  apply filter_congr
  intro w mem
  have notMine := none' w mem
  simp only [decide_eq_true_eq, not_and] at notMine
  simp only [mem_append, mem_singleton, commit.injEq, decide_eq_decide]
  constructor
  · rintro ⟨old | mine, onRow⟩
    · exact ⟨old, onRow⟩
    · exact absurd onRow (notMine mine)
  · exact fun ⟨old, onRow⟩ => ⟨.inl old, onRow⟩

/-- A commit adds the net effects of its transaction. -/
theorem sameRows_commit {c : Catalog} (locks : TwoPLInv (· = .x) s) (run : s.mgr.Active t)
    (net : ∀ row, lastOn (writesBy (· = t) s.hist) row = lastOn (effects s.hist t) row)
    (same : SameRows ((writesBy (fun u => .commit u ∈ s.hist) s.hist).foldl apply seed) c) :
    SameRows ((writesBy (fun u => .commit u ∈ s.hist ++ [.commit t]) s.hist).foldl apply seed)
      ((effects s.hist t).foldl apply c) := by
  have tables (name : GoString) : (c.lookup name).isSome = (seed.lookup name).isSome :=
    (same.tables name).symm.trans (isSome_lookup_foldl _ seed name)
  refine ⟨fun name => ?_, fun row => ?_⟩
  · rw [isSome_lookup_foldl, isSome_lookup_foldl, tables]
  cases table : (seed.lookup row.1).isSome with
  | false => rw [row_eq_none, row_eq_none] <;> simp [isSome_lookup_foldl, tables, table]
  | true =>
    rw [row_foldl_apply _ seed row table, row_foldl_apply _ c row ((tables _).trans table), ← net]
    cases last : lastOn (writesBy (· = t) s.hist) row with
    | some w =>
      rw [lastOn_committing locks run last]
      rfl
    | none =>
      rw [lastOn_aside last, ← row_foldl_apply _ seed row table]
      exact same.rows row

/-- On a row that the transaction did not write there is nothing to agree on. -/
theorem net_of_redoable (redoable : Redoable s (.commit t)) (row : RowRef) :
    lastOn (writesBy (· = t) s.hist) row = lastOn (effects s.hist t) row := by
  by_cases wrote : ∃ w ∈ writesBy (· = t) s.hist, row = w.row
  · obtain ⟨w, mem, rfl⟩ := wrote
    exact redoable w mem
  have nowhere (ws : List RowWrite) (sub : ∀ w ∈ ws, w ∈ writesBy (· = t) s.hist) : lastOn ws row = none := by
    unfold lastOn
    rw [find?_eq_none]
    intro w mem here
    exact wrote ⟨w, sub w (mem_reverse.1 mem), of_decide_eq_true here⟩
  rw [nowhere _ fun _ => id, nowhere _ fun _ => mem_writesBy_of_mem_effects]

theorem committers_append (log : List LogRecord) (rec : LogRecord) : committers (log ++ [rec]) =
      committers log ++ if rec.type = .commit then [rec.txnID] else [] := by
  unfold committers
  split <;> simp [*]

theorem ReplayInv.start (seed : Catalog) (maxActive : Nat) : ReplayInv seed (.start seed maxActive (some ⟨1, []⟩)) where
  locks := .start _ seed maxActive _
  log := {
    on := rfl
    plain := ⟨nofun, nofun, .nil⟩
    next := ⟨le_rfl, nofun⟩
    opened := fun front rec part => by cases front <;> cases prefix_nil.1 part
    begun := by rintro t (known | known | known) <;> cases known
    aborts := by rintro r ⟨⟩
    same := rfl }
  calls := by rintro t call ⟨⟩
  readable := by rintro t row op values ⟨⟩
  exact := by
    intro log part
    cases prefix_nil.1 part
    exact ⟨fun _ => rfl, fun _ => rfl⟩

/-- The last committed writes after a step are what is expected of the whole log. -/
theorem sameRows_step {rec : LogRecord} {e : Option TwoPLEvent} (inv : ReplayInv seed s)
    (redoable : Redoable s a) (step : LogStep s a s' (some rec) e) :
    SameRows ((writesBy (fun u => .commit u ∈ s'.hist) s'.hist).foldl apply seed)
      (expected seed s'.hist (s.mgr.records ++ [s.mgr.stamped rec])) := by
  have before := inv.exact _ prefix_rfl
  rw [recovered_eq inv.log inv.locks.books seed inv.readable,
    ← expected_append inv.locks.books inv.log prefix_rfl step.running, ← step.hist] at before
  have same : loggedRecord rec = e.bind logged := step.same
  unfold expected at before ⊢
  rw [committers_append, foldl_append, type_stamped, txnID_stamped]
  by_cases commit : ∃ t, e = some (.commit t)
  · obtain ⟨t, rfl⟩ := commit
    have type : rec.type = .commit ∧ rec.txnID = t := by
      unfold loggedRecord at same
      split at same <;> cases same
      exact ⟨‹_›, rfl⟩
    have called : a = .commit t := step.called _ rfl
    subst called
    have hist : s'.hist = s.hist ++ [.commit t] := step.hist
    have quiet (C : Nat → Prop) [DecidablePred C] : writesBy C s'.hist = writesBy C s.hist := by
      unfold writesBy
      rw [hist, writes_append_singleton]
      exact congrArg _ (congrArg _ (append_nil _))
    have net : effects s'.hist t = effects s.hist t := by
      rw [hist, effects_append_singleton]
      rfl
    rw [if_pos type.1, type.2, foldl_cons, foldl_nil, quiet, net]
    simp only [hist] at before ⊢
    exact sameRows_commit inv.locks (step.running _ rfl) (net_of_redoable redoable) before
  · have type : rec.type ≠ .commit := by
      intro type
      unfold loggedRecord at same
      rw [type] at same
      obtain ⟨e', rfl, eq⟩ := bind_eq_some_iff.1 same.symm
      cases e' <;> cases eq
      exact commit ⟨_, rfl⟩
    rw [if_neg type, foldl_nil, step.hist,
      writesBy_append inv.locks.books step.running fun u eq => commit ⟨u, eq⟩, ← step.hist]
    exact before

theorem ReplayInv.step (inv : ReplayInv seed s) (redoable : Redoable s a)
    (taken : s.next a = some s') : ReplayInv seed s' := by
  have step := next_step taken
  obtain ⟨rec, e, logStep⟩ := step.logStep inv.log.on inv.locks.books inv.locks.locks.ids inv.calls
  have locks : TwoPLInv (· = .x) s' := by
    apply inv.locks.step rfl taken
    · rintro isoLevel - ⟨⟩
    · intro t txn o _ active _
      exact inv.locks.locks.patient_exclusive active
  have log := inv.log.step logStep step.aborted_sub
  have readable : ∀ t row op values, .write t row op values ∈ s'.hist → Readable values op := by
    intro t row op values mem
    rw [logStep.hist, mem_append] at mem
    rcases mem with old | new
    · exact inv.readable t row op values old
    · have here := logStep.called _ (mem_toList.1 new)
      exact (inv.calls t _ here).2 _ rfl
  have calls : CallsInv RowOp.Readable s' := by
    apply inv.calls.step step
    rintro t o rfl
    exact redoable
  refine ⟨locks, log, calls, readable, fun part survives => ?_⟩
  have older (old : part <+: s.mgr.records) : SameRows (recovered seed part) (expected seed s'.hist part) := by
    rw [logStep.hist, expected_append inv.locks.books inv.log old logStep.running]
    exact inv.exact part old
  rw [logStep.wal.records inv.log.on] at survives
  cases rec with
  | none =>
    rw [map_none, toList_none, append_nil] at survives
    exact older survives
  | some r =>
    rcases prefix_concat_iff.1 survives with rfl | old
    · have whole := logStep.wal.records inv.log.on
      rw [map_some, toList_some] at whole
      rw [← whole, recovered_eq log locks.books seed readable, whole]
      exact sameRows_step inv redoable logStep
    · exact older old

end

end TransactionManager.Txn
